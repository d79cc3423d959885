import FogOS.Umalloc.SplitMerge

/-!
# Well-formed heaps

The heap as a list of blocks, without its bytes: which lists of blocks the allocator may leave
behind, and the edits that keep them well-formed. Nothing here asks for the blocks to be adjacent
in memory; `Tiled` says that separately, since another user of `sbrk` may leave gaps.
-/

namespace FogOS.Umalloc

/-- The blocks in address order, the free ones in free-list order, and the break. -/
structure Heap where
  blocks : List Block
  frees : List Nat
  brk : Nat

/-- The blocks do not overlap, lie between `base` and the break, have proper sizes, and the free
list holds exactly the free ones. -/
structure Heap.Wf (base : Nat) (h : Heap) : Prop where
  base_pos : 0 < base
  base_lt : base < 2 ^ 38
  base_le : base ≤ h.brk
  lim : h.brk < base + 2 ^ 31
  low : ∀ b ∈ h.blocks, base ≤ b.addr
  top : ∀ b ∈ h.blocks, b.addr + b.size ≤ h.brk
  size : ∀ b ∈ h.blocks, b.size % 16 = 0 ∧ 48 ≤ b.size
  order : h.blocks.Pairwise fun b c => b.addr + b.size ≤ c.addr
  marked : ∀ b ∈ h.blocks, b.free = true ↔ b.addr ∈ h.frees
  nodup : h.frees.Nodup
  sub : ∀ a ∈ h.frees, a ∈ addrs h.blocks

/-- No two neighbours are free. -/
def Calm (bs : List Block) : Prop :=
  bs.IsChain fun b c => ¬ (b.free = true ∧ c.free = true)

/-- The blocks follow each other without a gap, from address `a` to address `e`. -/
def Tiled : Nat → List Block → Nat → Prop
  | a, [], e => a = e
  | a, b :: bs, e => b.addr = a ∧ Tiled (a + b.size) bs e

/-- The block, in use. -/
def Block.use (c : Block) : Block := { c with free := false }

/-- The block, given back. -/
def Block.release (c : Block) : Block := { c with free := true }

/-- The block after `split` to `total` bytes: itself, or its two parts. -/
def Block.carve (c : Block) (total : Nat) : List Block :=
  if total + 48 ≤ c.size then [c.lower total, c.upper total] else [c]

/-- What `split` to `total` bytes leaves for the free list. -/
def Block.rest (c : Block) (total : Nat) : List Nat :=
  if total + 48 ≤ c.size then [c.addr + total] else []

variable {base brk total a e m : Nat} {bs l r : List Block} {fs fl fr : List Nat} {b c d : Block}
  {h : Heap}

/-! ### Consequences -/

namespace Heap.Wf

lemma spaced (hw : h.Wf base) : h.blocks.Pairwise fun b c => b.addr + 48 ≤ c.addr := by
  refine hw.order.imp_of_mem fun {x y} hx _ hxy => ?_
  have := (hw.size x hx).2
  omega

lemma fits (hw : h.Wf base) (hb : b ∈ h.blocks) : b.Fits := by
  have h1 := hw.top b hb
  have h2 := hw.low b hb
  have h3 := hw.lim
  have h4 := (hw.size b hb).1
  exact ⟨by omega, by omega⟩

lemma size_lt (hw : h.Wf base) (hb : b ∈ h.blocks) : b.size < 2 ^ 31 := by
  have h1 := hw.top b hb
  have h2 := hw.low b hb
  have h3 := hw.lim
  omega

lemma addr_lt (hw : h.Wf base) (hb : b ∈ h.blocks) : 0 < b.addr ∧ b.addr + b.size < 2 ^ 63 := by
  have h1 := hw.top b hb
  have h2 := hw.low b hb
  have h3 := hw.lim
  have h4 := hw.base_pos
  have h5 := hw.base_lt
  omega

/-- Distinct blocks do not overlap. -/
lemma disjoint (hw : h.Wf base) (hb : b ∈ h.blocks) (hc : c ∈ h.blocks) (hne : b ≠ c) :
    b.addr + b.size ≤ c.addr ∨ c.addr + c.size ≤ b.addr := by
  obtain ⟨i, hi, rfl⟩ := List.mem_iff_getElem.mp hb
  obtain ⟨j, hj, rfl⟩ := List.mem_iff_getElem.mp hc
  have ho := List.pairwise_iff_getElem.mp hw.order
  rcases lt_trichotomy i j with hij | rfl | hij
  · exact Or.inl (ho i j hi hj hij)
  · exact absurd rfl hne
  · exact Or.inr (ho j i hj hi hij)

/-- A block is determined by its address. -/
lemma addr_inj (hw : h.Wf base) (hb : b ∈ h.blocks) (hc : c ∈ h.blocks)
    (heq : b.addr = c.addr) : b = c := by
  by_contra hne
  have h1 := (hw.size b hb).2
  have h2 := (hw.size c hc).2
  rcases hw.disjoint hb hc hne with h3 | h3 <;> omega

/-- The payload of a block in use holds no header and no free-list node. -/
lemma not_meta (hw : h.Wf base) (hb : b ∈ h.blocks) (hused : b.free = false) {x : Nat}
    (hx : b.addr + 32 ≤ x) (hx' : x < b.addr + b.size) : ¬ Meta (addrs h.blocks) h.frees x := by
  rintro (⟨y, hy, h1, h2⟩ | ⟨y, hy, h1, h2⟩)
  · obtain ⟨c, hc, rfl⟩ := List.mem_map.mp hy
    have h3 := (hw.size c hc).2
    by_cases hbc : b = c
    · subst hbc; omega
    · rcases hw.disjoint hb hc hbc with h4 | h4 <;> omega
  · obtain ⟨c, hc, rfl⟩ := List.mem_map.mp (hw.sub y hy)
    have h3 := (hw.size c hc).2
    by_cases hbc : b = c
    · subst hbc
      have h4 := (hw.marked b hb).mpr hy
      simp [hused] at h4
    · rcases hw.disjoint hb hc hbc with h4 | h4 <;> omega

/-- The blocks on both sides of a block. -/
lemma order_around (hw : (⟨l ++ c :: r, fs, brk⟩ : Heap).Wf base) :
    (∀ b ∈ l, b.addr + b.size ≤ c.addr) ∧ (∀ d ∈ r, c.addr + c.size ≤ d.addr) ∧
      (l ++ r).Pairwise fun b c => b.addr + b.size ≤ c.addr := by
  have h1 := List.pairwise_append.mp hw.order
  have h2 := List.pairwise_cons.mp h1.2.1
  refine ⟨fun b hb => h1.2.2 b hb c (by simp), h2.1, ?_⟩
  exact hw.order.sublist (List.Sublist.append_left (by simp) l)

end Heap.Wf

/-! ### Replacing one block -/

lemma mem_middle {α : Type*} {x y : α} {k m : List α} :
    x ∈ k ++ y :: m ↔ x = y ∨ x ∈ k ++ m := by
  simp only [List.mem_append, List.mem_cons]
  tauto

lemma addrs_middle : a ∈ addrs (l ++ c :: r) ↔ a = c.addr ∨ a ∈ addrs (l ++ r) := by
  simp only [addrs_append, addrs_cons]
  exact mem_middle

/-- The address of a block does not occur among the other blocks. -/
lemma Heap.Wf.addr_notMem (hw : (⟨l ++ c :: r, fs, brk⟩ : Heap).Wf base) (hb : b ∈ l ++ r) :
    b.addr ≠ c.addr := by
  have h1 := (hw.size b (by rw [mem_middle]; exact Or.inr hb)).2
  have h2 := (hw.size c (by simp)).2
  obtain ⟨h3, h4, -⟩ := hw.order_around
  rcases List.mem_append.mp hb with hb | hb
  · have := h3 b hb
    omega
  · have := h4 b hb
    omega

/-- A change of one block that keeps its place and its bytes, and of the free list. -/
lemma Heap.Wf.mark {c' : Block} {fs' : List Nat} (hw : (⟨l ++ c :: r, fs, brk⟩ : Heap).Wf base)
    (ha : c'.addr = c.addr) (hs : c'.size = c.size) (hmark : c'.free = true ↔ c.addr ∈ fs')
    (hfs : ∀ x, x ≠ c.addr → (x ∈ fs' ↔ x ∈ fs)) (hnd : fs'.Nodup) :
    (⟨l ++ c' :: r, fs', brk⟩ : Heap).Wf base where
  base_pos := hw.base_pos
  base_lt := hw.base_lt
  base_le := hw.base_le
  lim := hw.lim
  low b hb := by
    rcases mem_middle.mp hb with rfl | hb
    · rw [ha]; exact hw.low c (by simp)
    · exact hw.low b (mem_middle.mpr (Or.inr hb))
  top b hb := by
    rcases mem_middle.mp hb with rfl | hb
    · rw [ha, hs]; exact hw.top c (by simp)
    · exact hw.top b (mem_middle.mpr (Or.inr hb))
  size b hb := by
    rcases mem_middle.mp hb with rfl | hb
    · rw [hs]; exact hw.size c (by simp)
    · exact hw.size b (mem_middle.mpr (Or.inr hb))
  order := by
    have h1 := hw.order
    simp only [List.pairwise_append, List.pairwise_cons] at h1 ⊢
    refine ⟨h1.1, ⟨fun y hy => ?_, h1.2.1.2⟩, fun x hx y hy => ?_⟩
    · rw [ha, hs]; exact h1.2.1.1 y hy
    · rcases List.mem_cons.mp hy with rfl | hy
      · rw [ha]; exact h1.2.2 x hx c (by simp)
      · exact h1.2.2 x hx y (by simp [hy])
  marked b hb := by
    rcases mem_middle.mp hb with rfl | hb
    · rw [ha]; exact hmark
    · rw [hfs b.addr (hw.addr_notMem hb)]
      exact hw.marked b (mem_middle.mpr (Or.inr hb))
  nodup := hnd
  sub x hx := by
    rw [addrs_middle, ha, ← addrs_middle]
    by_cases hxc : x = c.addr
    · rw [hxc]
      exact addrs_middle.mpr (Or.inl rfl)
    · exact hw.sub x ((hfs x hxc).mp hx)

/-- Taking a free block into use. -/
lemma Heap.Wf.use (hw : (⟨l ++ c :: r, fl ++ c.addr :: fr, brk⟩ : Heap).Wf base) :
    (⟨l ++ c.use :: r, fl ++ fr, brk⟩ : Heap).Wf base := by
  have hnd := List.nodup_cons.mp (List.nodup_middle.mp hw.nodup)
  refine hw.mark rfl rfl ?_ (fun x hx => ?_) hnd.2
  · simpa [Block.use] using hnd.1
  · rw [mem_middle]
    simp [hx]

/-- Putting a block that was in use on the free list. -/
lemma Heap.Wf.release (hw : (⟨l ++ c :: r, fs, brk⟩ : Heap).Wf base) (hused : c.free = false) :
    (⟨l ++ c.release :: r, fs ++ [c.addr], brk⟩ : Heap).Wf base := by
  have hnot : c.addr ∉ fs := fun hmem => by
    have := (hw.marked c (by simp)).mpr hmem
    simp [hused] at this
  refine hw.mark rfl rfl ?_ (fun x hx => ?_) ?_
  · simp [Block.release]
  · simp [hx]
  · rw [List.nodup_append]
    refine ⟨hw.nodup, by simp, ?_⟩
    intro x hx y hy hxy
    rw [List.mem_singleton] at hy
    exact hnot (hy ▸ hxy ▸ hx)

/-! ### Splitting -/

lemma Block.upper_size (hle : total ≤ c.size) (hlt : c.size < 2 ^ 32) :
    (c.upper total).size = c.size - total := by
  simp only [Block.upper, u32]
  omega

/-- Cutting a block in use in two and putting the upper part on the free list. -/
lemma Heap.Wf.carve (hw : (⟨l ++ c :: r, fs, brk⟩ : Heap).Wf base) (hused : c.free = false)
    (htotal : total % 16 = 0 ∧ 48 ≤ total) :
    (⟨l ++ c.carve total ++ r, fs ++ c.rest total, brk⟩ : Heap).Wf base := by
  unfold Block.carve Block.rest
  by_cases hsplit : total + 48 ≤ c.size
  swap
  · simpa [hsplit] using hw
  simp only [if_pos hsplit]
  have hc : c ∈ l ++ c :: r := by simp
  obtain ⟨hl, hr, hlr⟩ := hw.order_around
  have hsz := hw.size c hc
  have hup : (c.upper total).size = c.size - total :=
    Block.upper_size (by omega) (hw.fits hc).2
  have hmem : ∀ b, b ∈ l ++ [c.lower total, c.upper total] ++ r ↔
      b = c.lower total ∨ b = c.upper total ∨ b ∈ l ++ r := by
    intro b
    simp only [List.append_assoc, List.cons_append, List.nil_append, mem_middle]
  have hold : ∀ b ∈ l ++ r, b ∈ l ++ c :: r := fun b hb => mem_middle.mpr (Or.inr hb)
  have hnotc : c.addr ∉ fs := fun hx => by
    have := (hw.marked c hc).mpr hx
    simp [hused] at this
  have hnew : ∀ b ∈ l ++ c :: r, b.addr ≠ c.addr + total := by
    intro b hb heq
    have h1 := (hw.size b hb).2
    rcases mem_middle.mp hb with rfl | hb
    · omega
    · rcases List.mem_append.mp hb with hb | hb
      · have := hl b hb
        omega
      · have := hr b hb
        omega
  have hnotu : c.addr + total ∉ fs := by
    intro hx
    obtain ⟨b, hb, hbx⟩ := List.mem_map.mp (hw.sub _ hx)
    exact hnew b hb hbx
  refine ⟨hw.base_pos, hw.base_lt, hw.base_le, hw.lim, fun b hb => ?_, fun b hb => ?_,
    fun b hb => ?_, ?_, fun b hb => ?_, ?_, fun x hx => ?_⟩
  · rcases (hmem b).mp hb with rfl | rfl | hb
    · exact hw.low c hc
    · have := hw.low c hc
      simp only [Block.upper]
      omega
    · exact hw.low b (hold b hb)
  · rcases (hmem b).mp hb with rfl | rfl | hb
    · have := hw.top c hc
      simp only [Block.lower] at this ⊢
      omega
    · have := hw.top c hc
      rw [hup]
      simp only [Block.upper] at this ⊢
      omega
    · exact hw.top b (hold b hb)
  · rcases (hmem b).mp hb with rfl | rfl | hb
    · exact htotal
    · rw [hup]
      omega
    · exact hw.size b (hold b hb)
  · simp only [List.append_assoc, List.cons_append, List.nil_append]
    have h1 := List.pairwise_append.mp hlr
    simp only [List.pairwise_append, List.pairwise_cons]
    refine ⟨h1.1, ⟨fun y hy => ?_, fun y hy => ?_, h1.2.1⟩, fun x hx y hy => ?_⟩
    · rcases List.mem_cons.mp hy with rfl | hy
      · simp [Block.lower, Block.upper]
      · have := hr y hy
        simp only [Block.lower]
        omega
    · have := hr y hy
      rw [hup]
      simp only [Block.upper]
      omega
    · have := hl x hx
      simp only [List.mem_cons] at hy
      rcases hy with rfl | rfl | hy
      · exact this
      · simp only [Block.upper]
        omega
      · exact h1.2.2 x hx y hy
  · simp only [List.mem_append, List.mem_singleton]
    rcases (hmem b).mp hb with rfl | rfl | hb
    · simp only [Block.lower, hused, Bool.false_eq_true, false_iff, not_or]
      exact ⟨hnotc, by omega⟩
    · simp [Block.upper]
    · have h2 := hnew b (hold b hb)
      rw [hw.marked b (hold b hb)]
      simp [h2]
  · rw [List.nodup_append]
    refine ⟨hw.nodup, by simp, ?_⟩
    intro x hx y hy hxy
    rw [List.mem_singleton] at hy
    exact hnotu (hy ▸ hxy ▸ hx)
  · simp only [addrs_append, addrs_cons, addrs_nil, List.mem_append, List.mem_cons,
      List.not_mem_nil, or_false] at hx ⊢
    rcases hx with hx | rfl
    · have hin := hw.sub x hx
      rw [addrs_append, addrs_cons, List.mem_append, List.mem_cons] at hin
      rcases hin with hin | hin | hin
      · exact Or.inl (Or.inl hin)
      · exact Or.inl (Or.inr (Or.inl hin))
      · exact Or.inr hin
    · exact Or.inl (Or.inr (Or.inr rfl))

/-! ### Joining, growing and trimming -/

lemma Block.join_size (h1 : c.size < 2 ^ 31) (h2 : d.size < 2 ^ 31) :
    (c.join d).size = c.size + d.size := by
  simp only [Block.join, u32]
  omega

/-- Absorbing a free block into the block before it, when the two are adjacent in memory. -/
lemma Heap.Wf.join (hw : (⟨l ++ c :: d :: r, fl ++ d.addr :: fr, brk⟩ : Heap).Wf base)
    (hadj : c.addr + c.size = d.addr) :
    (⟨l ++ c.join d :: r, fl ++ fr, brk⟩ : Heap).Wf base := by
  have hc : c ∈ l ++ c :: d :: r := by simp
  have hd : d ∈ l ++ c :: d :: r := by simp
  have hj : (c.join d).size = c.size + d.size :=
    Block.join_size (hw.size_lt hc) (hw.size_lt hd)
  have hja : (c.join d).addr = c.addr := rfl
  have hold : ∀ b ∈ l ++ r, b ∈ l ++ c :: d :: r := by
    intro b hb
    exact mem_append_insert (mem_append_insert hb d) c
  have hnd := List.nodup_cons.mp (List.nodup_middle.mp hw.nodup)
  have hord := hw.order
  simp only [List.pairwise_append, List.pairwise_cons] at hord
  obtain ⟨hl, ⟨hcr, hdr, hr⟩, hlr⟩ := hord
  have hne : ∀ b ∈ l ++ c :: r, b.addr ≠ d.addr := by
    intro b hb
    have hb' : b ∈ (l ++ [c]) ++ r := by simpa using hb
    have hw' : (⟨(l ++ [c]) ++ d :: r, fl ++ d.addr :: fr, brk⟩ : Heap).Wf base := by simpa using hw
    exact hw'.addr_notMem hb'
  refine ⟨hw.base_pos, hw.base_lt, hw.base_le, hw.lim, fun b hb => ?_, fun b hb => ?_,
    fun b hb => ?_, ?_, fun b hb => ?_, hnd.2, fun x hx => ?_⟩
  · rcases mem_middle.mp hb with rfl | hb
    · exact hw.low c hc
    · exact hw.low b (hold b hb)
  · rcases mem_middle.mp hb with rfl | hb
    · have htop : d.addr + d.size ≤ brk := hw.top d hd
      rw [hj, hja, ← Nat.add_assoc, hadj]
      exact htop
    · exact hw.top b (hold b hb)
  · rcases mem_middle.mp hb with rfl | hb
    · have := hw.size c hc
      have := hw.size d hd
      rw [hj]
      omega
    · exact hw.size b (hold b hb)
  · simp only [List.pairwise_append, List.pairwise_cons]
    refine ⟨hl, ⟨fun y hy => ?_, hr⟩, fun x hx y hy => ?_⟩
    · have := hdr y hy
      rw [hj, hja]
      omega
    · rcases List.mem_cons.mp hy with rfl | hy
      · exact hlr x hx c (by simp)
      · exact hlr x hx y (by simp [hy])
  · have key : ∀ e ∈ l ++ c :: r, (e.addr ∈ fl ++ d.addr :: fr ↔ e.addr ∈ fl ++ fr) := by
      intro e he
      rw [mem_middle]
      simp [hne e he]
    rcases mem_middle.mp hb with rfl | hb
    · rw [hja, ← key c (by simp), ← hw.marked c hc]
      rfl
    · rw [← key b (mem_middle.mpr (Or.inr hb))]
      exact hw.marked b (hold b hb)
  · have hxd : x ≠ d.addr := by
      rintro rfl
      exact hnd.1 hx
    have hin := hw.sub x (mem_middle.mpr (Or.inr hx))
    rw [addrs_append, addrs_cons, addrs_cons, List.append_cons, mem_middle] at hin
    rw [addrs_append, addrs_cons, hja, List.append_cons]
    exact hin.resolve_left hxd

/-- A new block above the break. -/
lemma Heap.Wf.grow {page : Nat} (hw : (⟨bs, fs, brk⟩ : Heap).Wf base)
    (hpage : page % 16 = 0 ∧ 48 ≤ page) (hlim : brk + page < base + 2 ^ 31) :
    (⟨bs ++ [⟨brk, page, false⟩], fs, brk + page⟩ : Heap).Wf base := by
  have hmem : ∀ b, b ∈ bs ++ [⟨brk, page, false⟩] ↔ b ∈ bs ∨ b = ⟨brk, page, false⟩ := by
    intro b
    simp
  have hbase : base ≤ brk := hw.base_le
  have hnot : brk ∉ fs := by
    intro hx
    obtain ⟨b, hb, hbx⟩ := List.mem_map.mp (hw.sub _ hx)
    have := hw.top b hb
    have := (hw.size b hb).2
    simp only at *
    omega
  refine ⟨hw.base_pos, hw.base_lt, by simp only; omega, hlim, fun b hb => ?_, fun b hb => ?_,
    fun b hb => ?_, ?_, fun b hb => ?_, hw.nodup, fun x hx => ?_⟩
  · rcases (hmem b).mp hb with hb | rfl
    · exact hw.low b hb
    · exact hbase
  · rcases (hmem b).mp hb with hb | rfl
    · have := hw.top b hb
      simp only at *
      omega
    · exact le_refl _
  · rcases (hmem b).mp hb with hb | rfl
    · exact hw.size b hb
    · exact hpage
  · rw [List.pairwise_append]
    refine ⟨hw.order, by simp, fun x hx y hy => ?_⟩
    rw [List.mem_singleton.mp hy]
    exact hw.top x hx
  · rcases (hmem b).mp hb with hb | rfl
    · exact hw.marked b hb
    · simpa using hnot
  · have := hw.sub x hx
    simp only [addrs_append, List.mem_append]
    exact Or.inl this

/-- Giving the last block back, when it ends at the break. -/
lemma Heap.Wf.trim (hw : (⟨l ++ [c], fl ++ c.addr :: fr, brk⟩ : Heap).Wf base)
    (htop : c.addr + c.size = brk) : (⟨l, fl ++ fr, c.addr⟩ : Heap).Wf base := by
  have hc : c ∈ l ++ [c] := by simp
  have hold : ∀ b ∈ l, b ∈ l ++ [c] := fun b hb => by simp [hb]
  obtain ⟨hl, -, hlr⟩ := hw.order_around
  have hnd := List.nodup_cons.mp (List.nodup_middle.mp hw.nodup)
  have hlim : brk < base + 2 ^ 31 := hw.lim
  refine ⟨hw.base_pos, hw.base_lt, hw.low c hc, by simp only; omega,
    fun b hb => hw.low b (hold b hb), hl, fun b hb => hw.size b (hold b hb), by simpa using hlr,
    fun b hb => ?_, hnd.2, fun x hx => ?_⟩
  · have hne : b.addr ≠ c.addr := hw.addr_notMem (by simpa using hb)
    rw [hw.marked b (hold b hb)]
    simp only [mem_middle, hne, false_or]
  · have hxc : x ≠ c.addr := by
      rintro rfl
      exact hnd.1 hx
    have := hw.sub x (mem_middle.mpr (Or.inr hx))
    simpa [hxc] using this

/-- The other user of `sbrk` moves the break up. -/
lemma Heap.Wf.foreign {n : Nat} (hw : (⟨bs, fs, brk⟩ : Heap).Wf base)
    (hlim : brk + n < base + 2 ^ 31) : (⟨bs, fs, brk + n⟩ : Heap).Wf base where
  base_pos := hw.base_pos
  base_lt := hw.base_lt
  base_le := Nat.le_add_right_of_le hw.base_le
  lim := hlim
  low := hw.low
  top b hb := Nat.le_add_right_of_le (hw.top b hb)
  size := hw.size
  order := hw.order
  marked := hw.marked
  nodup := hw.nodup
  sub := hw.sub

/-! ### Tilings -/

lemma tiled_append : Tiled a (l ++ r) e ↔ ∃ m, Tiled a l m ∧ Tiled m r e := by
  induction l generalizing a with
  | nil => simp [Tiled]
  | cons b l ih => simp [Tiled, ih, and_assoc]

lemma Tiled.le (h : Tiled a bs e) : a ≤ e := by
  induction bs generalizing a with
  | nil => exact le_of_eq h
  | cons b bs ih =>
    have := ih h.2
    omega

lemma tiled_middle :
    Tiled a (l ++ c :: r) e ↔ Tiled a l c.addr ∧ Tiled (c.addr + c.size) r e := by
  rw [tiled_append]
  constructor
  · rintro ⟨m, hl, rfl, hr⟩
    exact ⟨hl, hr⟩
  · rintro ⟨hl, hr⟩
    exact ⟨c.addr, hl, rfl, hr⟩

/-- In a tiling, a block ends where the next one starts. -/
lemma Tiled.adjacent (h : Tiled a (l ++ c :: d :: r) e) : c.addr + c.size = d.addr :=
  (tiled_middle.mp h).2.1.symm

lemma Tiled.last (h : Tiled a (l ++ [c]) e) : c.addr + c.size = e :=
  (tiled_middle.mp h).2

lemma Tiled.init (h : Tiled a (l ++ [c]) e) : Tiled a l c.addr :=
  (tiled_middle.mp h).1

lemma Tiled.replace {c' : Block} (h : Tiled a (l ++ c :: r) e) (ha : c'.addr = c.addr)
    (hs : c'.size = c.size) : Tiled a (l ++ c' :: r) e := by
  rw [tiled_middle] at h ⊢
  rwa [ha, hs]

lemma Tiled.carve (h : Tiled a (l ++ c :: r) e) (hlt : c.size < 2 ^ 32) :
    Tiled a (l ++ c.carve total ++ r) e := by
  unfold Block.carve
  split
  · obtain ⟨hl, hr⟩ := tiled_middle.mp h
    rw [List.append_assoc]
    refine tiled_middle.mpr ⟨hl, rfl, ?_⟩
    rw [Block.upper_size (by omega) hlt]
    simp only [Block.lower]
    rwa [show c.addr + total + (c.size - total) = c.addr + c.size by omega]
  · simpa using h

lemma Tiled.join (h : Tiled a (l ++ c :: d :: r) e) (hj : (c.join d).size = c.size + d.size) :
    Tiled a (l ++ c.join d :: r) e := by
  obtain ⟨hl, -, hr⟩ := tiled_middle.mp h
  refine tiled_middle.mpr ⟨hl, ?_⟩
  rwa [hj, ← Nat.add_assoc]

lemma Tiled.grow {page : Nat} (h : Tiled a bs e) :
    Tiled a (bs ++ [⟨e, page, false⟩]) (e + page) :=
  tiled_append.mpr ⟨e, h, rfl, rfl⟩

end FogOS.Umalloc
