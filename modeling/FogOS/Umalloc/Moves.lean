import FogOS.Umalloc.Fit
import FogOS.Umalloc.Heap

/-!
# Moves of the heap

What an operation on some of the blocks may do to all the others: a relation between heaps that
composes, the states that hold a heap, and the moves of the code. Every operation of the allocator
is a sequence of these moves.
-/

namespace FogOS.Umalloc

open ByteMem

/-- The addresses of a block, header included. -/
def Block.Covers (b : Block) (x : Nat) : Prop := b.addr ≤ x ∧ x < b.addr + b.size

/-- The addresses of the bytes a block offers to the program. -/
def Block.Payload (b : Block) (x : Nat) : Prop := b.addr + 32 ≤ x ∧ x < b.addr + b.size

def Heap.Covers (h : Heap) (x : Nat) : Prop := ∃ b ∈ h.blocks, b.Covers x

/-- The bytes that an operation on the blocks at `F` may change: those of the heap, or above the
break, that are not payload of another block in use. -/
def Heap.Scratch (F : List Nat) (h : Heap) (x : Nat) : Prop :=
  (h.Covers x ∨ h.brk ≤ x) ∧ ∀ b ∈ h.blocks, b.free = false → b.addr ∉ F → ¬ b.Payload x

/-- The heap `h` may become `h'` by operations on the blocks at `F`. -/
structure Evolves (F : List Nat) (h h' : Heap) : Prop where
  tiled : ∀ a, Tiled a h.blocks h.brk → Tiled a h'.blocks h'.brk
  covers : ∀ x, h'.Covers x → h.Covers x ∨ h.brk ≤ x
  back : ∀ x, h'.brk ≤ x → x < h.brk → h.Covers x
  kept : ∀ b ∈ h.blocks, b.free = false → b.addr ∉ F → b ∈ h'.blocks
  fresh : ∀ b ∈ h'.blocks, b.free = false → b.addr ∉ F → b ∈ h.blocks

variable {base brk total x : Nat} {F F' : List Nat} {bs l r : List Block} {fs fs' fl fr : List Nat}
  {b c c' d : Block} {h h' h'' : Heap} {s s' s'' : State}

/-! ### Evolving heaps -/

namespace Evolves

lemma refl (F : List Nat) (h : Heap) : Evolves F h h :=
  ⟨fun _ ht => ht, fun _ hx => Or.inl hx, fun x h1 h2 => absurd h1 (by omega),
    fun _ hb _ _ => hb, fun _ hb _ _ => hb⟩

lemma mono (he : Evolves F h h') (hsub : ∀ a ∈ F, a ∈ F') : Evolves F' h h' where
  tiled := he.tiled
  covers := he.covers
  back := he.back
  kept b hb hf ha := he.kept b hb hf fun hm => ha (hsub _ hm)
  fresh b hb hf ha := he.fresh b hb hf fun hm => ha (hsub _ hm)

lemma reach (he : Evolves F h h') (hx : h'.Covers x ∨ h'.brk ≤ x) : h.Covers x ∨ h.brk ≤ x := by
  rcases hx with hx | hx
  · exact he.covers x hx
  · by_cases hlt : x < h.brk
    · exact Or.inl (he.back x hx hlt)
    · exact Or.inr (by omega)

lemma trans (he : Evolves F h h') (he' : Evolves F h' h'') : Evolves F h h'' where
  tiled a ht := he'.tiled a (he.tiled a ht)
  covers x hx := he.reach (he'.covers x hx)
  back x hx hlt := by
    have h1 : h'.Covers x ∨ h'.brk ≤ x := he'.reach (Or.inr hx)
    exact (he.reach h1).resolve_right (by omega)
  kept b hb hf ha := he'.kept b (he.kept b hb hf ha) hf ha
  fresh b hb hf ha := he.fresh b (he'.fresh b hb hf ha) hf ha

lemma scratch (he : Evolves F h h') (hx : h'.Scratch F x) : h.Scratch F x :=
  ⟨he.reach hx.1, fun b hb hf ha => hx.2 b (he.kept b hb hf ha) hf ha⟩

end Evolves

lemma covers_middle : Heap.Covers ⟨l ++ c :: r, fs, brk⟩ x ↔
    c.Covers x ∨ Heap.Covers ⟨l ++ r, fs, brk⟩ x := by
  constructor
  · rintro ⟨b, hb, hx⟩
    rcases mem_middle.mp hb with rfl | hb
    · exact Or.inl hx
    · exact Or.inr ⟨b, hb, hx⟩
  · rintro (hx | ⟨b, hb, hx⟩)
    · exact ⟨c, mem_middle.mpr (Or.inl rfl), hx⟩
    · exact ⟨b, mem_middle.mpr (Or.inr hb), hx⟩

/-- A change of the mark of a block. -/
lemma Evolves.replace (ha : c'.addr = c.addr) (hs : c'.size = c.size) (hmem : c.addr ∈ F) :
    Evolves F ⟨l ++ c :: r, fs, brk⟩ ⟨l ++ c' :: r, fs', brk⟩ where
  tiled a ht := Tiled.replace ht ha hs
  covers x hx := by
    left
    rw [covers_middle] at hx ⊢
    rcases hx with hx | hx
    · left
      rwa [Block.Covers, ha, hs] at hx
    · exact Or.inr hx
  back x h1 h2 := absurd h1 (by simp only at h2 ⊢; omega)
  kept b hb _ hb' := by
    rcases mem_middle.mp hb with rfl | hb
    · exact absurd hmem hb'
    · exact mem_middle.mpr (Or.inr hb)
  fresh b hb _ hb' := by
    rcases mem_middle.mp hb with rfl | hb
    · exact absurd (ha ▸ hmem) hb'
    · exact mem_middle.mpr (Or.inr hb)

lemma Block.carve_cases (c : Block) (total : Nat) :
    (total + 48 ≤ c.size ∧ c.carve total = [c.lower total, c.upper total] ∧
      c.rest total = [c.addr + total]) ∨
    (c.size < total + 48 ∧ c.carve total = [c] ∧ c.rest total = []) := by
  unfold Block.carve Block.rest
  by_cases hle : total + 48 ≤ c.size
  · simp [hle]
  · rw [if_neg hle, if_neg hle]
    exact Or.inr ⟨by omega, rfl, rfl⟩

/-- Cutting a block in two. -/
lemma Evolves.carve (hlt : c.size < 2 ^ 32) (hmem : c.addr ∈ F) :
    Evolves F ⟨l ++ c :: r, fs, brk⟩ ⟨l ++ c.carve total ++ r, fs', brk⟩ := by
  refine ⟨fun a ht => Tiled.carve ht hlt, fun x hx => ?_,
    fun x h1 h2 => absurd h1 (by simp only at h2 ⊢; omega), fun b hb _ hb' => ?_,
    fun b hb hf hb' => ?_⟩
  · left
    rcases c.carve_cases total with ⟨hle, hc, -⟩ | ⟨-, hc, -⟩
    · rw [hc, List.append_assoc, List.cons_append, List.singleton_append, covers_middle,
        covers_middle] at hx
      rw [covers_middle]
      have hup : (c.upper total).size = c.size - total := Block.upper_size (by omega) hlt
      simp only [Block.Covers, hup] at hx ⊢
      simp only [Block.lower, Block.upper] at hx
      rcases hx with hx | hx | hx
      · exact Or.inl (by omega)
      · exact Or.inl (by omega)
      · exact Or.inr hx
    · rw [hc, List.append_assoc, List.singleton_append] at hx
      exact hx
  · rcases mem_middle.mp hb with rfl | hb
    · exact absurd hmem hb'
    · simp only [List.mem_append] at hb ⊢
      tauto
  · have hin : b ∈ c.carve total ∨ b ∈ l ++ r := by
      simp only [List.mem_append] at hb ⊢
      tauto
    rcases hin with hin | hin
    · rcases c.carve_cases total with ⟨-, hc, -⟩ | ⟨-, hc, -⟩
      · rw [hc] at hin
        simp only [List.mem_cons, List.not_mem_nil, or_false] at hin
        rcases hin with rfl | rfl
        · exact absurd hmem hb'
        · simp [Block.upper] at hf
      · rw [hc] at hin
        rw [List.mem_singleton] at hin
        exact absurd (hin ▸ hmem) hb'
    · exact mem_middle.mpr (Or.inr hin)

/-- Absorbing a free block. -/
lemma Evolves.join (hj : (c.join d).size = c.size + d.size) (hadj : c.addr + c.size = d.addr)
    (hd : d.free = true) (hc : c.addr ∈ F ∨ c.free = true) :
    Evolves F ⟨l ++ c :: d :: r, fs, brk⟩ ⟨l ++ c.join d :: r, fs', brk⟩ where
  tiled a ht := Tiled.join ht hj
  covers x hx := by
    left
    rw [covers_middle] at hx
    rw [covers_middle, covers_middle]
    simp only [Block.Covers, hj] at hx ⊢
    simp only [Block.join] at hx
    rcases hx with hx | hx
    · by_cases hlt : x < c.addr + c.size
      · exact Or.inl (by omega)
      · exact Or.inr (Or.inl (by omega))
    · exact Or.inr (Or.inr hx)
  back x h1 h2 := absurd h1 (by simp only at h2 ⊢; omega)
  kept b hb hf hb' := by
    rcases mem_middle.mp hb with rfl | hb
    · rcases hc with hc | hc
      · exact absurd hc hb'
      · simp [hc] at hf
    · rcases mem_middle.mp hb with rfl | hb
      · simp [hd] at hf
      · exact mem_middle.mpr (Or.inr hb)
  fresh b hb hf hb' := by
    rcases mem_middle.mp hb with rfl | hb
    · rcases hc with hc | hc
      · exact absurd hc hb'
      · have : c.free = false := hf
        simp [hc] at this
    · exact mem_middle.mpr (Or.inr (mem_middle.mpr (Or.inr hb)))

/-- A new block at the break. -/
lemma Evolves.grow {page : Nat} (hmem : brk ∈ F) :
    Evolves F ⟨bs, fs, brk⟩ ⟨bs ++ [⟨brk, page, false⟩], fs, brk + page⟩ where
  tiled a ht := Tiled.grow ht
  covers x := by
    rintro ⟨b, hb, hx⟩
    rcases List.mem_append.mp hb with hb | hb
    · exact Or.inl ⟨b, hb, hx⟩
    · rw [List.mem_singleton] at hb
      subst hb
      exact Or.inr hx.1
  back x h1 h2 := absurd h1 (by simp only at h2 ⊢; omega)
  kept b hb _ _ := List.mem_append_left _ hb
  fresh b hb _ hb' := by
    rcases List.mem_append.mp hb with hb | hb
    · exact hb
    · rw [List.mem_singleton] at hb
      subst hb
      exact absurd hmem hb'

/-- Giving the last block back. -/
lemma Evolves.trim (hfree : c.free = true) (htop : c.addr + c.size = brk) :
    Evolves F ⟨l ++ [c], fs, brk⟩ ⟨l, fs', c.addr⟩ where
  tiled a ht := Tiled.init ht
  covers x := by
    rintro ⟨b, hb, hx⟩
    exact Or.inl ⟨b, List.mem_append_left _ hb, hx⟩
  back x h1 h2 := ⟨c, by simp, h1, by simp only at h2; omega⟩
  kept b hb hf _ := by
    rcases List.mem_append.mp hb with hb | hb
    · exact hb
    · rw [List.mem_singleton] at hb
      simp [hb, hfree] at hf
  fresh b hb _ _ := List.mem_append_left _ hb

/-! ### States that hold a heap -/

/-- The bytes and the variables of `s` are those of the heap `h`. -/
structure Holds (base : Nat) (s : State) (h : Heap) : Prop where
  rep : Rep s h.blocks h.frees
  wf : h.Wf base
  brk : s.brk = h.brk

/-- The state `s` of the heap `h` becomes the state `s'` of the heap `h'`, by operations on the
blocks at `F`. -/
structure Moves (base : Nat) (F : List Nat) (s : State) (h : Heap) (s' : State) (h' : Heap) :
    Prop where
  holds : Holds base s' h'
  evolves : Evolves F h h'
  frame : Mem.Frame (h.Scratch F) s.mem s'.mem
  fsm : s'.currentFsm = s.currentFsm

namespace Moves

lemma refl (hh : Holds base s h) : Moves base F s h s h :=
  ⟨hh, Evolves.refl F h, Mem.Frame.refl _ _, rfl⟩

lemma trans (h1 : Moves base F s h s' h') (h2 : Moves base F s' h' s'' h'') :
    Moves base F s h s'' h'' where
  holds := h2.holds
  evolves := h1.evolves.trans h2.evolves
  frame := h1.frame.trans (h2.frame.mono fun _ hx => h1.evolves.scratch hx)
  fsm := h2.fsm.trans h1.fsm

/-- The payload of a block in use that is not operated on stays. -/
lemma keeps (hm : Moves base F s h s' h') (hb : b ∈ h.blocks) (hused : b.free = false)
    (hF : b.addr ∉ F) (hx : b.Payload x) : s'.mem x = s.mem x :=
  hm.frame x fun hs => hs.2 b hb hused hF hx

lemma mono (hm : Moves base F s h s' h') (hsub : ∀ a ∈ F, a ∈ F') :
    Moves base F' s h s' h' where
  holds := hm.holds
  evolves := hm.evolves.mono hsub
  frame := hm.frame.mono fun _ hx => ⟨hx.1, fun b hb hf ha => hx.2 b hb hf fun h => ha (hsub _ h)⟩
  fsm := hm.fsm

end Moves

/-- The bytes of the headers and of the free-list nodes are scratch. -/
lemma Heap.Wf.scratch (hw : h.Wf base) (hx : Meta (addrs h.blocks) h.frees x) :
    h.Scratch F x := by
  refine ⟨Or.inl ?_, fun b hb hf _ hp => hw.not_meta hb hf hp.1 hp.2 hx⟩
  rcases hx with ⟨a, ha, h1, h2⟩ | ⟨a, ha, h1, h2⟩
  · obtain ⟨b, hb, rfl⟩ := List.mem_map.mp ha
    have := (hw.size b hb).2
    exact ⟨b, hb, h1, by omega⟩
  · obtain ⟨b, hb, rfl⟩ := List.mem_map.mp (hw.sub a ha)
    have := (hw.size b hb).2
    exact ⟨b, hb, by omega, by omega⟩

/-- A move whose writes are to the headers and the nodes of the new heap. -/
lemma Moves.of_keeps (hrep : Rep s' h'.blocks h'.frees) (hw : h'.Wf base) (hs : s.brk = h.brk)
    (hbrk : h'.brk = h.brk) (he : Evolves F h h')
    (hk : Keeps (Heap.Scratch F h) s s') : Moves base F s h s' h' where
  holds := ⟨hrep, hw, by rw [hk.brk, hs, hbrk]⟩
  evolves := he
  frame := hk.frame
  fsm := hk.fsm

/-! ### The moves of the code -/

/-- `set_used` and `free_list_remove`. -/
lemma Holds.use (hh : Holds base s ⟨l ++ c :: r, fl ++ c.addr :: fr, brk⟩) (hmem : c.addr ∈ F) :
    Moves base F s ⟨l ++ c :: r, fl ++ c.addr :: fr, brk⟩
      ((s.setUsed c.addr).freeListRemove c.addr) ⟨l ++ c.use :: r, fl ++ fr, brk⟩ := by
  obtain ⟨h1, k1⟩ := hh.rep.setUsed
  obtain ⟨h2, k2, -, -⟩ := h1.freeListRemove
  refine Moves.of_keeps h2 hh.wf.use hh.brk rfl (Evolves.replace rfl rfl hmem) ?_
  refine (k1.mono fun x hx => hh.wf.scratch hx).trans (k2.mono fun x hx => hh.wf.scratch ?_)
  simpa using hx

/-- `set_free` and `free_list_add`. -/
lemma Holds.release (hh : Holds base s ⟨l ++ c :: r, fs, brk⟩) (hused : c.free = false)
    (hmem : c.addr ∈ F) : ∃ s', (s.setFree c.addr).freeListAdd c.addr = some s' ∧
      Moves base F s ⟨l ++ c :: r, fs, brk⟩ s' ⟨l ++ c.release :: r, fs ++ [c.addr], brk⟩ := by
  obtain ⟨h1, k1⟩ := hh.rep.setFree
  have hnot : c.addr ∉ fs := fun hm => by
    have := (hh.wf.marked c (by simp)).mpr hm
    simp [hused] at this
  obtain ⟨s', hs', h2, k2⟩ := h1.freeListAdd (a := c.addr) (by simp) hnot
  have hw := hh.wf.release hused
  have he : Evolves F ⟨l ++ c :: r, fs, brk⟩ ⟨l ++ c.release :: r, fs ++ [c.addr], brk⟩ :=
    Evolves.replace rfl rfl hmem
  refine ⟨s', hs', Moves.of_keeps h2 hw hh.brk rfl he ?_⟩
  exact (k1.mono fun x hx => hh.wf.scratch hx).trans
    (k2.mono fun x hx => he.scratch (hw.scratch hx))

/-- `split` and `free_list_add` of the upper part. The payload of the lower part stays. -/
lemma Holds.split (hh : Holds base s ⟨l ++ c :: r, fs, brk⟩) (hused : c.free = false)
    (htotal : total % 16 = 0 ∧ 48 ≤ total) (hle : total + 48 ≤ c.size) (hmem : c.addr ∈ F) :
    ∃ s₁ s', s.split c.addr total = (s₁, c.addr + total) ∧
      s₁.freeListAdd (c.addr + total) = some s' ∧
      Moves base F s ⟨l ++ c :: r, fs, brk⟩ s'
        ⟨l ++ c.lower total :: c.upper total :: r, fs ++ [c.addr + total], brk⟩ ∧
      ∀ x, (c.lower total).Payload x → s'.mem x = s.mem x := by
  have hc : c ∈ l ++ c :: r := by simp
  have hlt := hh.wf.size_lt hc
  have htop := hh.wf.addr_lt hc
  obtain ⟨-, hr, -⟩ := hh.wf.order_around
  have hw := hh.wf.carve hused htotal
  have he : Evolves F ⟨l ++ c :: r, fs, brk⟩ ⟨l ++ c.carve total ++ r, fs ++ c.rest total, brk⟩ :=
    Evolves.carve (by omega) hmem
  simp only [Block.carve, Block.rest, if_pos hle, List.append_assoc, List.cons_append,
    List.nil_append] at hw he
  have hmin : u32 (total + 48) ≤ c.size := le_trans (Nat.mod_le _ _) hle
  obtain ⟨s₁, hs₁, h1, k1⟩ := hh.rep.split hmin ⟨htotal.2, by omega, by omega⟩ (by omega)
    fun d hd => by have := hr d hd; omega
  have hnot : (c.upper total).addr ∉ fs := by
    have := hw.nodup
    rw [List.nodup_append] at this
    intro hm
    exact this.2.2 _ hm (c.addr + total) (by simp) rfl
  obtain ⟨s', hs', h2, k2⟩ := h1.freeListAdd (a := (c.upper total).addr) (by simp) hnot
  have k : Keeps (Meta (addrs (l ++ c.lower total :: c.upper total :: r))
      (fs ++ [c.addr + total])) s s' :=
    (k1.mono fun x hx => hx.mono (fun _ ha => ha) fun a ha => List.mem_append_left _ ha).trans k2
  refine ⟨s₁, s', hs₁, hs', Moves.of_keeps h2 hw hh.brk rfl he ?_, fun x hx => ?_⟩
  · exact k.mono fun x hx => he.scratch (hw.scratch hx)
  · exact k.frame x (hw.not_meta (b := c.lower total) (by simp) hused hx.1 hx.2)

lemma Holds.split_small (hh : Holds base s h) (hc : c ∈ h.blocks) (hle : total ≤ c.size)
    (hsmall : c.size < total + 48) : s.split c.addr total = (s, 0) := by
  have hlt := hh.wf.size_lt hc
  refine hh.rep.split_small hc ?_
  simp only [u32]
  omega

/-- The end of `malloc` and of a growing `realloc`. -/
lemma Holds.splitOff (hh : Holds base s ⟨l ++ c :: r, fs, brk⟩) (hused : c.free = false)
    (htotal : total % 16 = 0 ∧ 48 ≤ total) (hle : total ≤ c.size) (hmem : c.addr ∈ F) :
    ∃ s', s.splitOff c.addr total = some s' ∧
      Moves base F s ⟨l ++ c :: r, fs, brk⟩ s'
        ⟨l ++ c.carve total ++ r, fs ++ c.rest total, brk⟩ ∧
      ∀ x, c.addr + 32 ≤ x → x < c.addr + total → s'.mem x = s.mem x := by
  have hc : c ∈ l ++ c :: r := by simp
  unfold State.splitOff
  rcases c.carve_cases total with ⟨hsplit, hcarve, hrest⟩ | ⟨hsmall, hcarve, hrest⟩
  · obtain ⟨s₁, s', hs₁, hs', hm, hkeep⟩ := hh.split hused htotal hsplit hmem
    have hne : c.addr + total ≠ 0 := by omega
    rw [hcarve, hrest, hs₁]
    simp only [hne, if_true, ne_eq, not_false_eq_true]
    exact ⟨s', hs', by simpa using hm, fun x h1 h2 => hkeep x ⟨h1, h2⟩⟩
  · rw [hcarve, hrest, hh.split_small hc hle hsmall]
    simp only [ne_eq, not_true_eq_false, if_false]
    exact ⟨s, rfl, by simpa using Moves.refl hh, fun _ _ _ => rfl⟩

/-- `merge_with_next` before a free block, which must start where the block ends. -/
lemma Holds.mergeWithNext (hh : Holds base s ⟨l ++ c :: d :: r, fl ++ d.addr :: fr, brk⟩)
    (hd : d.free = true) (hadj : c.addr + c.size = d.addr) (hc : c.addr ∈ F ∨ c.free = true) :
    Moves base F s ⟨l ++ c :: d :: r, fl ++ d.addr :: fr, brk⟩ (s.mergeWithNext c.addr)
      ⟨l ++ c.join d :: r, fl ++ fr, brk⟩ := by
  obtain ⟨h1, k1⟩ := hh.rep.mergeWithNext hd
  have hj := Block.join_size (hh.wf.size_lt (b := c) (by simp)) (hh.wf.size_lt (b := d) (by simp))
  exact Moves.of_keeps h1 (hh.wf.join hadj) hh.brk rfl (Evolves.join hj hadj hd hc)
    (k1.mono fun x hx => hh.wf.scratch hx)

/-- `merge_with_prev` after a free block, which must end where the block starts. -/
lemma Holds.mergeWithPrev (hh : Holds base s ⟨l ++ c :: d :: r, fl ++ d.addr :: fr, brk⟩)
    (hc : c.free = true) (hd : d.free = true) (hadj : c.addr + c.size = d.addr) :
    Moves base F s ⟨l ++ c :: d :: r, fl ++ d.addr :: fr, brk⟩ (s.mergeWithPrev d.addr)
      ⟨l ++ c.join d :: r, fl ++ fr, brk⟩ := by
  obtain ⟨h1, k1⟩ := hh.rep.mergeWithPrev hc
  have hj := Block.join_size (hh.wf.size_lt (b := c) (by simp)) (hh.wf.size_lt (b := d) (by simp))
  exact Moves.of_keeps h1 (hh.wf.join hadj) hh.brk rfl (Evolves.join hj hadj hd (Or.inr hc))
    (k1.mono fun x hx => hh.wf.scratch hx)

/-- `free_list_remove` of the next block and then `merge_with_next`, which removes the node from
the free list once more: its links are stale, but they still name its old neighbours. -/
lemma Holds.expand (hh : Holds base s ⟨l ++ c :: d :: r, fl ++ d.addr :: fr, brk⟩)
    (hused : c.free = false) (hd : d.free = true) (hadj : c.addr + c.size = d.addr)
    (hmem : c.addr ∈ F) :
    Moves base F s ⟨l ++ c :: d :: r, fl ++ d.addr :: fr, brk⟩
      ((s.freeListRemove d.addr).mergeWithNext c.addr) ⟨l ++ c.join d :: r, fl ++ fr, brk⟩ ∧
      ∀ x, c.Payload x → ((s.freeListRemove d.addr).mergeWithNext c.addr).mem x = s.mem x := by
  obtain ⟨h1, k1, hp, hn⟩ := hh.rep.freeListRemove
  have hnot : d.addr ∉ fl ++ fr := (List.nodup_cons.mp (List.nodup_middle.mp hh.wf.nodup)).1
  obtain ⟨h2, k2⟩ := h1.mergeWithNext_stale hd hnot hp hn
  have hj := Block.join_size (hh.wf.size_lt (b := c) (by simp)) (hh.wf.size_lt (b := d) (by simp))
  have k := k1.trans (k2.mono fun x hx => hx.mono (fun a ha => ha) fun a ha =>
    mem_middle.mpr (Or.inr ha))
  refine ⟨Moves.of_keeps h2 (hh.wf.join hadj) hh.brk rfl (Evolves.join hj hadj hd (Or.inl hmem)) ?_,
    fun x hx => ?_⟩
  · exact k.mono fun x hx => hh.wf.scratch hx
  · exact k.frame x (hh.wf.not_meta (b := c) (by simp) hused hx.1 hx.2)

/-! ### Writes outside the headers -/

/-- The representation reads the headers but for the names, and the nodes of the free list. -/
lemma Rep.of_mem (hr : Rep s bs fs) (hh : s'.head = s.head) (ht : s'.tail = s.tail)
    (hf : s'.freeHead = s.freeHead)
    (hb : ∀ b ∈ bs, ∀ x, b.addr + 8 ≤ x → x < b.addr + 32 → s'.mem x = s.mem x)
    (hn : ∀ a ∈ fs, ∀ x, a + 32 ≤ x → x < a + 48 → s'.mem x = s.mem x) : Rep s' bs fs := by
  have hroot : ∀ g : Field, s'.root g = s.root g := by
    intro g
    cases g <;> simp [State.root, hh, ht, hf]
  have hnode : ∀ g : Field, ¬ g.InHeader → ∀ x ∈ 0 :: fs, s'.field g x = s.field g x := by
    intro g hg x hx
    by_cases hx0 : x = 0
    · simp [State.field, hx0, hroot]
    · simp only [State.field, hx0, if_false, State.get]
      refine Mem.load64_congr fun y hy hy' => hn x (List.mem_of_ne_of_mem hx0 hx) y ?_ ?_
      · rcases g.eq_of_not_inHeader hg with rfl | rfl <;> simp only [Field.off] at hy <;> omega
      · have := g.off_le
        omega
  refine hr.of_free_links (fun g hg x hx => ?_) ?_ hr.nodup hr.sub
  · by_cases hx0 : x = 0
    · simp [State.field, hx0, hroot]
    · obtain ⟨b, hb', rfl⟩ := List.mem_map.mp (List.mem_of_ne_of_mem hx0 hx)
      simp only [State.field, hx0, if_false, State.get]
      refine Mem.load64_congr fun y hy hy' => hb b hb' y ?_ ?_
      · have := g.off_le
        omega
      · rcases hg with rfl | rfl | rfl <;> simp only [Field.off] at hy' <;> omega
  · refine hr.freeRing.congr (hnode _ (by simp [Field.InHeader])) fun x hx => ?_
    unfold State.freePrev
    rw [hnode _ (by simp [Field.InHeader]) x hx]

/-- A write to bytes that are not the allocator's. -/
lemma Holds.of_mem (hh : Holds base s h) {m : Mem}
    (hm : ∀ x, Meta (addrs h.blocks) h.frees x → m x = s.mem x) :
    Holds base { s with mem := m } h where
  rep := by
    refine hh.rep.of_mem rfl rfl rfl (fun b hb x h1 h2 => hm x (Or.inl ?_))
      fun a ha x h1 h2 => hm x (Or.inr ⟨a, ha, h1, h2⟩)
    exact ⟨b.addr, List.mem_map_of_mem hb, by omega, h2⟩
  wf := hh.wf
  brk := hh.brk

/-! ### Moving the break -/

lemma le_pgRoundUp (n : Nat) : n ≤ State.pgRoundUp n := by
  unfold State.pgRoundUp
  omega

lemma toInt_of_lt {n : Nat} (hn : n < 2 ^ 31) : toInt n = n := if_pos hn

/-- The bytes above the break are scratch. -/
lemma Heap.Wf.scratch_above (hw : h.Wf base) (hx : h.brk ≤ x) : h.Scratch F x := by
  refine ⟨Or.inr hx, fun b hb _ _ hp => ?_⟩
  have h1 := hw.top b hb
  have h2 := hp.2
  omega

lemma Heap.Wf.end_le (hw : h.Wf base) (hb : b ∈ h.blocks) : b.addr + 48 ≤ h.brk := by
  have h1 := hw.top b hb
  have h2 := (hw.size b hb).2
  omega

/-- The header of a new block above all others, and its place in the block list. -/
lemma Rep.addBlock {a page : Nat} (hr : Rep s bs fs) (hend : ∀ b ∈ bs, b.addr + 48 ≤ a)
    (ha : 0 < a ∧ a < 2 ^ 63) (hpage : page % 2 = 0 ∧ page < 2 ^ 32) :
    ∃ s', ((((s.clearName a).setSize a page).setUsed a).putNextBlock a 0
        |>.putPrevBlock a 0).blockListAdd a = some s' ∧
      Rep s' (bs ++ [⟨a, page, false⟩]) fs ∧
      Keeps (Meta (addrs (bs ++ [⟨a, page, false⟩])) fs) s s' := by
  have ha0 : a ≠ 0 := by omega
  have hap : ∀ x ∈ 0 :: addrs bs, Apart a x := by
    intro x hx
    rcases List.mem_cons.mp hx with rfl | hx
    · exact Or.inr (Or.inl rfl)
    · obtain ⟨b, hb, rfl⟩ := List.mem_map.mp hx
      exact Or.inr (Or.inr (Or.inr (Or.inr (hend b hb))))
  have hself : Apart a a := Or.inr (Or.inr (Or.inl rfl))
  set s₂ := (((s.clearName a).setSize a page).setUsed a).putNextBlock a 0
    |>.putPrevBlock a 0 with hs₂
  have hf₂ : ∀ g x, Apart a x → s₂.field g x = if g = .prev ∧ x = a then 0
      else if g = .next ∧ x = a then 0 else if g = .size ∧ x = a then page
      else s.field g x := by
    intro g x hx
    rw [hs₂, State.putPrevBlock_eq ha0, State.putNextBlock_eq ha0,
      State.field_store hx (by omega) (Or.inl ha0), State.field_store hx (by omega) (Or.inl ha0),
      State.field_setSize_setUsed hx ha0 hpage.2 hpage.1, State.field_clearName hx ha0]
  have h2 : Rep s₂ bs fs := by
    refine hr.congr fun g x hx => ?_
    have hne : x ≠ a := by
      rintro rfl
      rcases List.mem_cons.mp hx with hx | hx
      · exact ha0 hx
      · obtain ⟨b, hb, hbx⟩ := List.mem_map.mp hx
        have := hend b hb
        omega
    rw [hf₂ g x (hap x hx)]
    simp [hne]
  have hsize : s₂.field .size a = Block.word ⟨a, page, false⟩ := by
    rw [hf₂ _ _ hself]
    simp [Block.word]
  obtain ⟨s', hs', h3, k3⟩ := h2.blockListAdd (d := ⟨a, page, false⟩) hend ha hpage hsize
  have hown : a ∈ addrs (bs ++ [⟨a, page, false⟩]) := by simp
  have k2 : Keeps (Meta (addrs (bs ++ [⟨a, page, false⟩])) fs) s s₂ :=
    ((((Keeps.clearName hown).trans (Keeps.setSize hown ha0)).trans (Keeps.putSize hown ha0)).trans
      (State.putNextBlock_eq ha0 ▸
        Keeps.store_header (List.mem_cons_of_mem _ hown) (Or.inr (Or.inl rfl)))).trans
      (State.putPrevBlock_eq ha0 ▸
        Keeps.store_header (List.mem_cons_of_mem _ hown) (Or.inr (Or.inr rfl)))
  exact ⟨s', hs', h3, k2.trans k3⟩

/-- The new block of `malloc`: its memory, its header and its place in the block list. -/
lemma Holds.extend {page : Nat} (hh : Holds base s ⟨bs, fs, brk⟩)
    (hpage : page % 16 = 0 ∧ 48 ≤ page) (hlim : brk + page < base + 2 ^ 31) (hmem : brk ∈ F) :
    ∃ s₁ s', s.sbrk true (toInt page) = (s₁, brk) ∧
      ((((s₁.clearName brk).setSize brk page).setUsed brk).putNextBlock brk 0
        |>.putPrevBlock brk 0).blockListAdd brk = some s' ∧
      Moves base F s ⟨bs, fs, brk⟩ s' ⟨bs ++ [⟨brk, page, false⟩], fs, brk + page⟩ := by
  have hbase : base ≤ brk := hh.wf.base_le
  have hb38 := hh.wf.base_lt
  have hb0 := hh.wf.base_pos
  have hsb : s.brk = brk := hh.brk
  have hp31 : page < 2 ^ 31 := by omega
  have hround := le_pgRoundUp brk
  set s₁ : State := { s with
    brk := brk + page
    mem := s.mem.fill (State.pgRoundUp brk) (State.pgRoundUp (brk + page) - State.pgRoundUp brk) 0 }
    with hs₁
  have hsbrk : s.sbrk true (toInt page) = (s₁, brk) := by
    rw [toInt_of_lt hp31]
    unfold State.sbrk
    rw [if_pos (by omega)]
    simp [hsb, hs₁]
  have hlow : ∀ x, x < brk → s₁.mem x = s.mem x := fun x hx =>
    Mem.fill_apply_ne _ _ _ _ (Or.inl (by omega))
  have hend : ∀ b ∈ bs, b.addr + 48 ≤ brk := fun b hb => hh.wf.end_le hb
  have h1 : Rep s₁ bs fs := by
    refine hh.rep.of_mem rfl rfl rfl (fun b hb x _ hx => hlow x ?_) fun a ha x _ hx => hlow x ?_
    · have := hend b hb
      omega
    · obtain ⟨b, hb, rfl⟩ := List.mem_map.mp (hh.wf.sub a ha)
      have := hend b hb
      omega
  have hpage2 : page % 2 = 0 ∧ page < 2 ^ 32 := ⟨by omega, by omega⟩
  obtain ⟨s', hs', h2, k2⟩ := h1.addBlock hend ⟨by omega, by omega⟩ hpage2
  have hw := hh.wf.grow hpage hlim
  have he : Evolves F ⟨bs, fs, brk⟩ ⟨bs ++ [⟨brk, page, false⟩], fs, brk + page⟩ :=
    Evolves.grow hmem
  have hfr₁ : Mem.Frame (Heap.Scratch F ⟨bs, fs, brk⟩) s.mem s₁.mem := by
    intro x hx
    refine hlow x ?_
    by_contra hge
    exact hx (hh.wf.scratch_above (by simpa using hge))
  refine ⟨s₁, s', hsbrk, hs', ⟨⟨h2, hw, ?_⟩, he, ?_, ?_⟩⟩
  · rw [k2.brk]
  · exact hfr₁.trans (k2.frame.mono fun x hx => he.scratch (hw.scratch hx))
  · rw [k2.fsm]

/-- `sbrk(-n)` lowers the break by `n`. -/
lemma State.sbrk_neg {n : Nat} (grant : Bool) (hn : 0 < n ∧ n < 2 ^ 31) (hle : n ≤ s.brk)
    (hlt : s.brk < 2 ^ 63) :
    (s.sbrk grant (toInt (u32 (2 ^ 32 - n)))).1 = { s with brk := s.brk - n } := by
  have hneg : toInt (u32 (2 ^ 32 - n)) = -(n : Int) := by
    unfold toInt u32
    split <;> omega
  have hback : (((s.brk : Int) + -(n : Int)) % 2 ^ 64).toNat = s.brk - n := by omega
  rw [hneg]
  unfold State.sbrk State.uvmdealloc
  rw [if_neg (by omega), if_pos (by omega), hback, if_neg (by omega)]

/-- One round of the loop that gives the tail back. -/
lemma Holds.trim (hh : Holds base s ⟨l ++ [c], fl ++ c.addr :: fr, brk⟩) (hfree : c.free = true)
    (htop : c.addr + c.size = brk) (grant : Bool) :
    Moves base F s ⟨l ++ [c], fl ++ c.addr :: fr, brk⟩
      (((s.freeListRemove c.addr).blockListRemove c.addr).sbrk grant
        (toInt (u32 (2 ^ 32 - c.size)))).1 ⟨l, fl ++ fr, c.addr⟩ := by
  have hc : c ∈ l ++ [c] := by simp
  have hlt := hh.wf.size_lt hc
  have h48 := (hh.wf.size c hc).2
  have haddr := hh.wf.addr_lt hc
  obtain ⟨h1, k1, -, -⟩ := hh.rep.freeListRemove
  have hnot : c.addr ∉ fl ++ fr := (List.nodup_cons.mp (List.nodup_middle.mp hh.wf.nodup)).1
  obtain ⟨h2, k2⟩ := h1.blockListRemove hnot
  generalize (s.freeListRemove c.addr).blockListRemove c.addr = s₂ at h2 k2 ⊢
  have hb2 : s₂.brk = brk := by rw [k2.brk, k1.brk, hh.brk]
  have hback : s₂.brk - c.size = c.addr := by omega
  rw [State.sbrk_neg grant ⟨by omega, hlt⟩ (by omega) (by omega), hback]
  have k : Keeps (Meta (addrs (l ++ [c])) (fl ++ c.addr :: fr)) s s₂ :=
    k1.trans (k2.mono fun x hx => hx.mono (fun a ha => ha) fun a ha => mem_middle.mpr (Or.inr ha))
  refine ⟨⟨?_, hh.wf.trim htop, rfl⟩, Evolves.trim hfree htop,
    k.frame.mono fun x hx => hh.wf.scratch hx, k.fsm⟩
  rw [List.append_nil] at h2
  exact h2.of_mem rfl rfl rfl (fun _ _ _ _ _ => rfl) fun _ _ _ _ _ => rfl

end FogOS.Umalloc
