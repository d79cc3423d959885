import FogOS.Umalloc.Lists

/-!
# Splitting and merging blocks

`split` cuts a block in two; `merge_with_next` and `merge_with_prev` absorb a free block into the
block before it. Both merges end in the same code, here called `absorb`.
-/

namespace FogOS.Umalloc

open ByteMem Ring

variable {s : State} {bs l r : List Block} {fs fl fr : List Nat} {b c d : Block} {a n v x : Nat}
  {f g : Field}

/-! ### Fresh headers -/

/-- Clearing the name of a block changes none of its other fields. -/
lemma State.field_clearName (hax : Apart a x) (ha : a ≠ 0) :
    (s.clearName a).field g x = s.field g x := by
  by_cases hx : x = 0
  · subst hx
    cases g <;> simp [State.field, State.clearName, State.root]
  · simp only [State.field, hx, if_false, State.get, State.clearName]
    have hoff := g.off_le
    have hax' : a = x ∨ a + 48 ≤ x ∨ x + 48 ≤ a := by
      rcases hax with h | h | h | h <;> simp_all
    apply Mem.load64_congr
    intro y hy hy'
    apply Mem.fill_apply_ne
    omega

lemma Keeps.clearName {as : List Nat} (ha : a ∈ as) :
    Keeps (Meta as fs) s (s.clearName a) := by
  refine ⟨rfl, rfl, fun x hx => Mem.fill_apply_ne _ _ _ _ ?_⟩
  by_contra hc
  exact hx (Or.inl ⟨a, ha, by omega, by omega⟩)

lemma State.field_setFree (hax : Apart a x) (ha : a ≠ 0) :
    (s.setFree a).field g x =
      if g = .size ∧ x = a then 2 * (s.field .size a / 2) + 1 else s.field g x := by
  have hlt := s.field_lt .size ha
  unfold State.setFree
  rw [State.putSize_eq ha, State.sizeField_eq ha, or_one_eq,
    State.field_store hax (by omega) (Or.inl ha)]

lemma State.field_setUsed (hax : Apart a x) (ha : a ≠ 0) :
    (s.setUsed a).field g x =
      if g = .size ∧ x = a then 2 * (s.field .size a / 2) else s.field g x := by
  have hlt := s.field_lt .size ha
  unfold State.setUsed
  rw [State.putSize_eq ha, State.sizeField_eq ha, and_mask_eq _ hlt,
    State.field_store hax (by omega) (Or.inl ha)]

/-- `set_size` on a header whose old content is unknown: the free bit may be either. -/
lemma State.field_setSize (hax : Apart a x) (ha : a ≠ 0) (hn : n < 2 ^ 32) (he : n % 2 = 0) :
    ∃ bit, bit < 2 ∧ (s.setSize a n).field g x =
      if g = .size ∧ x = a then n + bit else s.field g x := by
  unfold State.setSize
  rw [State.putSize_eq ha]
  cases s.isFree a with
  | false =>
    refine ⟨0, by omega, ?_⟩
    simpa using State.field_store hax (by omega) (Or.inl ha)
  | true =>
    refine ⟨1, by omega, ?_⟩
    simp only [if_true]
    rw [State.field_setFree hax ha, State.field_store_same (by omega) (Or.inl ha),
      State.field_store hax (by omega) (Or.inl ha)]
    split
    · omega
    · rfl

lemma State.field_setSize_setFree (hax : Apart a x) (ha : a ≠ 0) (hn : n < 2 ^ 32)
    (he : n % 2 = 0) : ((s.setSize a n).setFree a).field g x =
      if g = .size ∧ x = a then n + 1 else s.field g x := by
  rw [State.field_setFree hax ha]
  obtain ⟨bit, hb, h1⟩ := State.field_setSize (s := s) (g := .size) (a := a) (x := a)
    (by simp [Apart]) ha hn he
  obtain ⟨bit', hb', h2⟩ := State.field_setSize (s := s) (g := g) hax ha hn he
  rw [h1, h2]
  simp only [true_and, if_true]
  split
  · omega
  · rfl

lemma State.field_setSize_setUsed (hax : Apart a x) (ha : a ≠ 0) (hn : n < 2 ^ 32)
    (he : n % 2 = 0) : ((s.setSize a n).setUsed a).field g x =
      if g = .size ∧ x = a then n else s.field g x := by
  rw [State.field_setUsed hax ha]
  obtain ⟨bit, hb, h1⟩ := State.field_setSize (s := s) (g := .size) (a := a) (x := a)
    (by simp [Apart]) ha hn he
  obtain ⟨bit', hb', h2⟩ := State.field_setSize (s := s) (g := g) hax ha hn he
  rw [h1, h2]
  simp only [true_and, if_true]
  split
  · omega
  · rfl

lemma Keeps.putSize {as : List Nat} (ha : a ∈ as) (ha0 : a ≠ 0) :
    Keeps (Meta as fs) s (s.putSize a v) := by
  rw [State.putSize_eq ha0]
  exact Keeps.store_header (List.mem_cons_of_mem _ ha) (Or.inl rfl)

lemma Keeps.setSize {as : List Nat} (ha : a ∈ as) (ha0 : a ≠ 0) :
    Keeps (Meta as fs) s (s.setSize a n) := by
  unfold State.setSize
  cases s.isFree a with
  | false => simpa using Keeps.putSize ha ha0
  | true => simpa [State.setFree] using (Keeps.putSize ha ha0).trans (Keeps.putSize ha ha0)

/-! ### Splitting -/

/-- Linking a block whose header is written, right after `c`. -/
lemma Rep.linkAfter (h : Rep s (l ++ c :: r) fs)
    (hsp : (l ++ c :: d :: r).Pairwise fun b c => b.addr + 48 ≤ c.addr)
    (hd : 0 < d.addr ∧ d.addr < 2 ^ 63) (hfit : d.Fits) (hsize : s.field .size d.addr = d.word) :
    Rep (s.linkAfter c.addr d.addr) (l ++ c :: d :: r) fs ∧
      Keeps (Meta (addrs (l ++ c :: d :: r)) fs) s (s.linkAfter c.addr d.addr) := by
  have hc : c ∈ l ++ c :: r := by simp
  have hc0 := h.ne_zero hc
  have hd0 : d.addr ≠ 0 := by omega
  have hclt : c.addr < 2 ^ 64 := h.addr_lt (mem_addrs hc)
  have hdlt : d.addr < 2 ^ 64 := by omega
  have hap : ∀ x ∈ 0 :: addrs (l ++ c :: d :: r), ∀ y ∈ 0 :: addrs (l ++ c :: d :: r), Apart x y :=
    fun x hx y hy => Rep.apart_of_spaced hsp hx hy
  have hdm : d.addr ∈ 0 :: addrs (l ++ c :: d :: r) := mem_addrs (by simp)
  have hcm : c.addr ∈ 0 :: addrs (l ++ c :: d :: r) := mem_addrs (by simp)
  have hin : ∀ x ∈ 0 :: addrs (l ++ c :: r), x ∈ 0 :: addrs (l ++ c :: d :: r) := by
    intro x hx
    rw [addrs_append, addrs_cons, List.append_cons] at hx ⊢
    exact mem_cons_append_left hx d.addr
  have hxd : ∀ x ∈ 0 :: addrs (l ++ c :: r), x ≠ d.addr := by
    rintro x hx rfl
    have h1 := List.pairwise_append.mp hsp
    have h2 := List.pairwise_cons.mp h1.2.1
    rcases List.mem_cons.mp hx with hx | hx
    · exact hd0 hx
    obtain ⟨e, he, hed⟩ := List.mem_map.mp hx
    simp only [List.mem_append, List.mem_cons] at he
    rcases he with he | rfl | he
    · have := h1.2.2 e he d (by simp)
      omega
    · have := h2.1 d (by simp)
      omega
    · have := (List.pairwise_cons.mp h2.2).1 e he
      omega
  have hnext : s.field .next c.addr = (addrs r).headD 0 := by
    have h1 := h.nextBlock_eq
    rwa [State.nextBlock_eq hc0] at h1
  have hnm' : (addrs r).headD 0 ∈ 0 :: addrs (l ++ c :: r) := by
    rw [addrs_append, addrs_cons, List.append_cons]
    exact headD_mem_append _ _
  have hnm := hin _ hnm'
  have hnlt := h.addr_lt hnm'
  have hnd := hxd _ hnm'
  have hcd := hxd _ (mem_addrs hc)
  generalize hn : (addrs r).headD 0 = n at *
  set s₂ := (s.store .prev d.addr c.addr).store .next d.addr n with hs₂
  have hf₂ : ∀ g, ∀ x ∈ 0 :: addrs (l ++ c :: d :: r), s₂.field g x =
      if g = .next ∧ x = d.addr then n else if g = .prev ∧ x = d.addr then c.addr
      else s.field g x := by
    intro g x hx
    rw [hs₂, State.field_store (hap _ hdm x hx) hnlt (Or.inl hd0),
      State.field_store (hap _ hdm x hx) hclt (Or.inl hd0)]
  have hnext1 : (s.store .prev d.addr c.addr).nextBlock c.addr = n := by
    rw [State.nextBlock_eq hc0, State.field_store (hap _ hdm _ hcm) hclt (Or.inl hd0)]
    simp [hnext]
  have hnext2 : s₂.nextBlock c.addr = n := by
    rw [State.nextBlock_eq hc0, hf₂ _ _ hcm]
    simp [hcd, hnext]
  have hlast : (if s₂.nextBlock c.addr ≠ 0 then s₂.putPrevBlock (s₂.nextBlock c.addr) d.addr
      else { s₂ with tail := d.addr }) = s₂.store .prev n d.addr := by
    rw [hnext2]
    by_cases hn0 : n = 0
    · simp [hn0, State.store, State.setRoot]
    · simp [hn0, State.putPrevBlock_eq]
  have heq : s.linkAfter c.addr d.addr = (s₂.store .prev n d.addr).store .next c.addr d.addr := by
    unfold State.linkAfter
    simp only [State.putPrevBlock_eq hd0, State.putNextBlock_eq hd0, hnext1]
    simp only [← hs₂, hlast, State.putNextBlock_eq hc0]
  have hf : ∀ g, ∀ x ∈ 0 :: addrs (l ++ c :: d :: r), (s.linkAfter c.addr d.addr).field g x =
      if g = .next ∧ x = c.addr then d.addr else if g = .prev ∧ x = n then d.addr
      else s₂.field g x := by
    intro g x hx
    rw [heq, State.field_store (hap _ hcm x hx) hdlt (Or.inl hc0),
      State.field_store (hap _ hnm x hx) hdlt (Or.inr (Or.inr (Or.inl rfl)))]
  constructor
  · have h' : Rep s ((l ++ [c]) ++ r) fs := by simpa using h
    have hres : Rep (s.linkAfter c.addr d.addr) ((l ++ [c]) ++ d :: r) fs := by
      refine h'.insert (by simpa using hsp) hd hfit ?_ ?_ ?_ fun g x hx => ?_
      · rw [hf _ _ hdm, hf₂ _ _ hdm]
        simpa using hsize
      · rw [hf _ _ hdm, hf₂ _ _ hdm, hn]
        simp [hcd.symm]
      · rw [hf _ _ hdm, hf₂ _ _ hdm]
        simp [hnd.symm]
      · have hx' : x ∈ 0 :: addrs (l ++ c :: r) := by simpa using hx
        rw [hf _ _ (hin x hx'), hf₂ _ _ (hin x hx'), hn]
        simp [hxd x hx']
    simpa using hres
  · rw [heq]
    exact (((Keeps.store_header hdm (Or.inr (Or.inr rfl))).trans
      (Keeps.store_header hdm (Or.inr (Or.inl rfl)))).trans
      (Keeps.store_header hnm (Or.inr (Or.inr rfl)))).trans
      (Keeps.store_header hcm (Or.inr (Or.inl rfl)))

lemma minSplitSize_eq (size : Nat) : size + memBlockSize + 16 = size + 48 := by
  simp [memBlockSize]

/-- The lower and the upper part of a block that is split. -/
def Block.lower (c : Block) (size : Nat) : Block := { c with size := size }

def Block.upper (c : Block) (size : Nat) : Block :=
  ⟨c.addr + size, u32 (c.size + 2 ^ 32 - size), true⟩

/-- Cutting a block in two: the upper part becomes a free block of its own, which is not yet on
the free list. -/
lemma Rep.split {size : Nat} (h : Rep s (l ++ c :: r) fs) (hmin : u32 (size + 48) ≤ c.size)
    (hsize : 48 ≤ size ∧ size < 2 ^ 32 ∧ size % 2 = 0) (htop : c.addr + size < 2 ^ 63)
    (hr : ∀ d ∈ r, c.addr + size + 48 ≤ d.addr) :
    ∃ s', s.split c.addr size = (s', c.addr + size) ∧
      Rep s' (l ++ c.lower size :: c.upper size :: r) fs ∧
      Keeps (Meta (addrs (l ++ c.lower size :: c.upper size :: r)) fs) s s' := by
  have hc : c ∈ l ++ c :: r := by simp
  have hc0 := h.ne_zero hc
  obtain ⟨h48, hlt, heven⟩ := hsize
  have hevenc := (h.fits c hc).1
  have hd0 : (c.upper size).addr ≠ 0 := by simp only [Block.upper]; omega
  have hfit : (c.upper size).Fits := by
    refine ⟨?_, Nat.mod_lt _ (by norm_num)⟩
    simp only [Block.upper, u32]
    omega
  have hsp : (l ++ c.lower size :: c.upper size :: r).Pairwise
      fun b c => b.addr + 48 ≤ c.addr := by
    have h1 := List.pairwise_append.mp h.spaced
    have h2 := List.pairwise_cons.mp h1.2.1
    simp only [List.pairwise_append, List.pairwise_cons]
    refine ⟨h1.1, ⟨fun y hy => ?_, hr, h2.2⟩, fun x hx y hy => ?_⟩
    · rcases List.mem_cons.mp hy with rfl | hy
      · simp only [Block.lower, Block.upper]; omega
      · exact h2.1 y hy
    · have h3 := h1.2.2 x hx c (by simp)
      simp only [List.mem_cons] at hy
      rcases hy with rfl | rfl | hy
      · exact h3
      · simp only [Block.upper]; omega
      · have := h2.1 y hy
        omega
  have hlow : Block.Fits { c with size := size } := ⟨heven, hlt⟩
  obtain ⟨h1, k1⟩ := h.setSize hlow
  set s₁ := s.setSize c.addr size with hs₁
  set s₂ := ((s₁.clearName (c.upper size).addr).setSize (c.upper size).addr
    (c.upper size).size).setFree (c.upper size).addr with hs₂
  have hap : ∀ x ∈ 0 :: addrs (l ++ c.lower size :: c.upper size :: r),
      Apart (c.upper size).addr x := fun x hx =>
    Rep.apart_of_spaced hsp (mem_addrs (b := c.upper size) (by simp)) hx
  have hf₂ : ∀ g, ∀ x ∈ 0 :: addrs (l ++ c.lower size :: c.upper size :: r), s₂.field g x =
      if g = .size ∧ x = (c.upper size).addr then (c.upper size).size + 1
      else s₁.field g x := by
    intro g x hx
    rw [hs₂, State.field_setSize_setFree (hap x hx) hd0 hfit.2 hfit.1,
      State.field_clearName (hap x hx) hd0]
  have h2 : Rep s₂ (l ++ c.lower size :: r) fs := by
    refine h1.congr fun g x hx => ?_
    have hx' : x ∈ 0 :: addrs (l ++ c.lower size :: c.upper size :: r) := by
      simp only [Block.lower, addrs_append, addrs_cons, List.map_append, List.map_cons,
        List.mem_cons, List.mem_append] at hx ⊢
      rcases hx with hx | hx | hx | hx <;> simp [hx, addrs]
    rw [hf₂ g x hx', if_neg]
    rintro ⟨-, rfl⟩
    have hnd := Rep.nodup_of_spaced hsp fun b hb => by
      simp only [List.mem_append, List.mem_cons] at hb
      rcases hb with hb | rfl | rfl | hb
      · exact (h.addr b (by simp [hb])).1
      · exact (h.addr c hc).1
      · exact Nat.pos_of_ne_zero hd0
      · exact (h.addr b (by simp [hb])).1
    rw [List.append_cons, List.map_append, List.map_cons, ← List.cons_append] at hnd
    refine (List.nodup_cons.mp (List.nodup_middle.mp hnd)).1 ?_
    simpa [Block.lower] using hx
  have hsz : s₂.field .size (c.upper size).addr = (c.upper size).word := by
    rw [hf₂ _ _ (mem_addrs (by simp))]
    simp [Block.word, Block.upper]
  obtain ⟨h3, k3⟩ := h2.linkAfter hsp
    ⟨Nat.pos_of_ne_zero hd0, by simpa [Block.upper] using htop⟩ hfit hsz
  have heq : s.split c.addr size = (s₂.linkAfter c.addr (c.upper size).addr, c.addr + size) := by
    have hmin' : ¬ c.size < u32 (size + memBlockSize + 16) := by
      rw [minSplitSize_eq]
      omega
    simp only [State.split, if_neg hc0, h.getSize_eq hc, if_neg hmin', ← hs₁]
    rfl
  refine ⟨_, heq, h3, ?_⟩
  have hdm : (c.upper size).addr ∈ addrs (l ++ c.lower size :: c.upper size :: r) := by simp
  refine (k1.mono fun x hx => hx.mono (fun y hy => ?_) fun y hy => hy).trans
    ((((Keeps.clearName hdm).trans (Keeps.setSize hdm hd0)).trans (Keeps.putSize hdm hd0)).trans k3)
  rw [addrs_append, addrs_cons, List.append_cons] at hy ⊢
  exact mem_append_insert hy _

/-- A block that is too small is left whole. -/
lemma Rep.split_small {size : Nat} (h : Rep s bs fs) (hc : c ∈ bs)
    (hmin : c.size < u32 (size + 48)) : s.split c.addr size = (s, 0) := by
  rw [← minSplitSize_eq] at hmin
  simp only [State.split, if_neg (h.ne_zero hc), h.getSize_eq hc, if_pos hmin]

/-! ### Merging -/

/-- The block that results when `c` takes over the bytes of `d`. -/
def Block.join (c d : Block) : Block := { c with size := u32 (c.size + d.size) }

/-- Absorbing the next block, which is not on the free list any more. -/
lemma Rep.absorb (h : Rep s (l ++ c :: d :: r) fs) (hnot : d.addr ∉ fs) :
    Rep (s.absorb c.addr d.addr) (l ++ c.join d :: r) fs ∧
      Keeps (Meta (addrs (l ++ c :: d :: r)) fs) s (s.absorb c.addr d.addr) := by
  have hc : c ∈ l ++ c :: d :: r := by simp
  have hd : d ∈ l ++ c :: d :: r := by simp
  have hc0 := h.ne_zero hc
  have hd0 := h.ne_zero hd
  have hfit : Block.Fits { c with size := u32 (c.size + d.size) } := by
    have h1 := (h.fits c hc).1
    have h2 := (h.fits d hd).1
    refine ⟨?_, Nat.mod_lt _ (by norm_num)⟩
    simp only [u32]
    omega
  obtain ⟨h1, k1⟩ := h.setSize hfit
  set s₁ := s.setSize c.addr (u32 (c.size + d.size)) with hs₁
  have h1' : Rep s₁ ((l ++ [c.join d]) ++ d :: r) fs := by simpa [Block.join] using h1
  have hcd : c.addr ≠ d.addr := by
    have h2 := (List.pairwise_cons.mp (List.pairwise_append.mp h.spaced).2.1).1 d (by simp)
    omega
  have hp : s₁.field .prev d.addr = c.addr := by
    have h2 := h1'.prevBlock_eq
    rw [State.prevBlock_eq hd0] at h2
    simpa [Block.join] using h2
  -- the rest is `block_list_remove` of the absorbed block, which is preceded by `c`
  have heq : s.absorb c.addr d.addr = s₁.blockListRemove d.addr := by
    rw [State.blockListRemove_eq hd0, hp]
    unfold State.absorb
    simp only [h.getSize_eq hc, h.getSize_eq hd, ← hs₁, State.putNextBlock_eq hc0,
      State.nextBlock_eq hd0]
    set s₂ := s₁.store .next c.addr (s₁.field .next d.addr) with hs₂
    have hp2 : s₂.field .prev d.addr = c.addr := by
      have hap : Apart c.addr d.addr := h.apart (mem_addrs hc) (mem_addrs hd)
      rw [hs₂, State.field_store hap (s₁.field_lt _ hd0) (Or.inl hc0)]
      simp [hp]
    rw [hp2]
    by_cases hn : s₂.field .next d.addr = 0
    · simp [hn, State.store, State.setRoot]
    · simp [hn, State.putPrevBlock_eq]
  obtain ⟨h2, k2⟩ := h1'.blockListRemove hnot
  rw [heq]
  refine ⟨by simpa using h2, k1.trans (k2.mono fun x hx => hx.mono (fun y hy => ?_) fun y hy => hy)⟩
  simpa [Block.join] using hy

/-- `merge_with_next` when the next block is free and on the free list. -/
lemma Rep.mergeWithNext (h : Rep s (l ++ c :: d :: r) (fl ++ d.addr :: fr)) (hfree : d.free) :
    Rep (s.mergeWithNext c.addr) (l ++ c.join d :: r) (fl ++ fr) ∧
      Keeps (Meta (addrs (l ++ c :: d :: r)) (fl ++ d.addr :: fr)) s (s.mergeWithNext c.addr) := by
  have hd : d ∈ l ++ c :: d :: r := by simp
  have hnext : s.nextBlock c.addr = d.addr := by simpa using h.nextBlock_eq
  have heq : s.mergeWithNext c.addr = (s.freeListRemove d.addr).absorb c.addr d.addr := by
    unfold State.mergeWithNext
    rw [hnext, if_neg (by simp [h.ne_zero hd, h.isFree_eq hd, hfree])]
  obtain ⟨h1, k1, -, -⟩ := h.freeListRemove
  have hnot : d.addr ∉ fl ++ fr := (List.nodup_cons.mp (List.nodup_middle.mp h.nodup)).1
  obtain ⟨h2, k2⟩ := h1.absorb hnot
  rw [heq]
  refine ⟨h2, k1.trans (k2.mono fun x hx => hx.mono (fun y hy => hy) fun y hy => ?_)⟩
  exact mem_append_insert hy _

/-- `merge_with_next` when the next block is free but was taken off the free list before. -/
lemma Rep.mergeWithNext_stale (h : Rep s (l ++ c :: d :: r) (fl ++ fr)) (hfree : d.free)
    (hnot : d.addr ∉ fl ++ fr) (hp : s.field .prevFree d.addr = fl.getLastD 0)
    (hn : s.field .nextFree d.addr = fr.headD 0) :
    Rep (s.mergeWithNext c.addr) (l ++ c.join d :: r) (fl ++ fr) ∧
      Keeps (Meta (addrs (l ++ c :: d :: r)) (fl ++ fr)) s (s.mergeWithNext c.addr) := by
  have hd : d ∈ l ++ c :: d :: r := by simp
  have hnext : s.nextBlock c.addr = d.addr := by simpa using h.nextBlock_eq
  have heq : s.mergeWithNext c.addr = (s.freeListRemove d.addr).absorb c.addr d.addr := by
    unfold State.mergeWithNext
    rw [hnext, if_neg (by simp [h.ne_zero hd, h.isFree_eq hd, hfree])]
  obtain ⟨h1, k1⟩ := h.freeListRemove_stale (by simp) hnot hp hn
  obtain ⟨h2, k2⟩ := h1.absorb hnot
  rw [heq]
  exact ⟨h2, k1.trans k2⟩

/-- `merge_with_next` does nothing at the tail or before a block in use. -/
lemma Rep.mergeWithNext_none (h : Rep s (l ++ c :: r) fs) (hr : ∀ d ∈ r.head?, d.free = false) :
    s.mergeWithNext c.addr = s := by
  have hnext := h.nextBlock_eq
  unfold State.mergeWithNext
  cases r with
  | nil => simp [hnext]
  | cons d r =>
    have hnext' : s.nextBlock c.addr = d.addr := by simpa using hnext
    rw [hnext', if_pos]
    right
    rw [h.isFree_eq (c := d) (by simp), hr d (by simp)]
    simp

/-- `merge_with_prev` when the previous block is free. -/
lemma Rep.mergeWithPrev (h : Rep s (l ++ c :: d :: r) (fl ++ d.addr :: fr)) (hfree : c.free) :
    Rep (s.mergeWithPrev d.addr) (l ++ c.join d :: r) (fl ++ fr) ∧
      Keeps (Meta (addrs (l ++ c :: d :: r)) (fl ++ d.addr :: fr)) s (s.mergeWithPrev d.addr) := by
  have hc : c ∈ l ++ c :: d :: r := by simp
  have hprev : s.prevBlock d.addr = c.addr := by
    have h1 : Rep s ((l ++ [c]) ++ d :: r) (fl ++ d.addr :: fr) := by simpa using h
    simpa using h1.prevBlock_eq
  have heq : s.mergeWithPrev d.addr = (s.freeListRemove d.addr).absorb c.addr d.addr := by
    unfold State.mergeWithPrev
    rw [hprev, if_neg (by simp [h.ne_zero hc, h.isFree_eq hc, hfree])]
  obtain ⟨h1, k1, -, -⟩ := h.freeListRemove
  have hnot : d.addr ∉ fl ++ fr := (List.nodup_cons.mp (List.nodup_middle.mp h.nodup)).1
  obtain ⟨h2, k2⟩ := h1.absorb hnot
  rw [heq]
  refine ⟨h2, k1.trans (k2.mono fun x hx => hx.mono (fun y hy => hy) fun y hy => ?_)⟩
  exact mem_append_insert hy _

/-- `merge_with_prev` does nothing at the head or after a block in use. -/
lemma Rep.mergeWithPrev_none (h : Rep s (l ++ d :: r) fs) (hl : ∀ c ∈ l.getLast?, c.free = false) :
    s.mergeWithPrev d.addr = s := by
  have hprev := h.prevBlock_eq
  unfold State.mergeWithPrev
  rcases List.eq_nil_or_concat l with rfl | ⟨k, c, rfl⟩
  · simp [hprev]
  · rw [List.concat_eq_append] at *
    have hprev' : s.prevBlock d.addr = c.addr := by simpa using hprev
    rw [hprev', if_pos]
    right
    rw [h.isFree_eq (c := c) (by simp), hl c (by simp)]
    simp

end FogOS.Umalloc
