import FogOS.Umalloc.Contract

/-!
# Requests that wrap

`align_size`, the header and `align_to_page` are computed in `uint`, and the result is passed to
`sbrk` as an `int`. A request that wraps gets a block that is too small, and a request of about
`2 ^ 31` bytes or more gets a block above the break. This module says exactly which requests are
served as they should.
-/

namespace FogOS.Umalloc

open ByteMem

variable {base brk size ptr q a b n : Nat} {p : Process} {h h' : Heap} {s s' : State} {grant : Bool}
  {bs l r k : List Block} {fs fs' : List Nat} {c d e : Block}

/-! ### Only `sbrk` moves the break -/

namespace State

@[simp] lemma setFree_brk : (s.setFree a).brk = s.brk := rfl
@[simp] lemma setUsed_brk : (s.setUsed a).brk = s.brk := rfl
@[simp] lemma clearName_brk : (s.clearName a).brk = s.brk := rfl
@[simp] lemma putNextBlock_brk : (s.putNextBlock a b).brk = s.brk := rfl
@[simp] lemma putPrevBlock_brk : (s.putPrevBlock a b).brk = s.brk := rfl
@[simp] lemma putNextFree_brk : (s.putNextFree a b).brk = s.brk := rfl
@[simp] lemma putPrevFree_brk : (s.putPrevFree a b).brk = s.brk := rfl

@[simp] lemma setSize_brk : (s.setSize a n).brk = s.brk := by
  unfold setSize
  simp only
  split <;> rfl

@[simp] lemma freeListRemove_brk : (s.freeListRemove a).brk = s.brk := by
  unfold freeListRemove
  simp only
  split <;> split <;> rfl

@[simp] lemma linkAfter_brk : (s.linkAfter a b).brk = s.brk := by
  unfold linkAfter
  simp only
  split <;> rfl

@[simp] lemma absorb_brk : (s.absorb a b).brk = s.brk := by
  unfold absorb
  simp only
  split <;> simp

@[simp] lemma mergeWithNext_brk : (s.mergeWithNext a).brk = s.brk := by
  unfold mergeWithNext
  split <;> simp

@[simp] lemma mergeWithPrev_brk : (s.mergeWithPrev a).brk = s.brk := by
  unfold mergeWithPrev
  split <;> simp

@[simp] lemma split_brk : (s.split a n).1.brk = s.brk := by
  unfold split
  split
  · rfl
  · simp only
    split <;> simp

lemma freeListAdd_brk (hs : s.freeListAdd a = some s') : s'.brk = s.brk := by
  unfold freeListAdd at hs
  simp only at hs
  split at hs
  · cases hs
    rfl
  · rw [Option.bind_eq_bind, Option.bind_eq_some_iff] at hs
    obtain ⟨c, -, hc⟩ := hs
    cases hc
    rfl

lemma blockListAdd_brk (hs : s.blockListAdd a = some s') : s'.brk = s.brk := by
  unfold blockListAdd at hs
  split at hs
  · cases hs
    rfl
  · split at hs
    · cases hs
      rfl
    · rw [Option.bind_eq_bind, Option.bind_eq_some_iff] at hs
      obtain ⟨c, -, hc⟩ := hs
      simp only at hc
      split at hc <;> cases hc <;> rfl

lemma splitOff_brk (hs : s.splitOff a n = some s') : s'.brk = s.brk := by
  unfold splitOff at hs
  simp only at hs
  split at hs
  · rw [freeListAdd_brk hs, split_brk]
  · cases hs
    rw [split_brk]

/-- A request of the kernel for no more memory returns the break, and does not raise it. -/
lemma sbrk_nonpos (s : State) (grant : Bool) {m : Int} (hm : m ≤ 0) : ∃ s₁, s.sbrk grant m = (s₁, s.brk) ∧ s₁.brk ≤ s.brk ∧
    s₁ = { s with brk := s₁.brk } := by
  unfold sbrk
  rw [if_neg (by omega)]
  split
  · refine ⟨_, rfl, ?_, rfl⟩
    simp only [uvmdealloc]
    split <;> omega
  · exact ⟨s, rfl, le_refl _, rfl⟩

lemma sbrk_page (s : State) : ∃ s₁, s.sbrk true 4096 = (s₁, s.brk) ∧ s₁.brk = s.brk + 4096 :=
  ⟨_, rfl, rfl⟩

/-! ### What `malloc` returns -/

/-- `malloc` that reuses a block leaves the break alone. -/
lemma malloc_found (hsize : size ≠ 0) (ha : s.reuseBlock (u32 (memBlockSize + alignSize size)) = some a)
    (ha0 : a ≠ 0) (hs : s.malloc grant size = some (s', q)) : q = a + 32 ∧ s'.brk = s.brk := by
  unfold malloc at hs
  rw [if_neg hsize] at hs
  simp only [ha, Option.bind_eq_bind, Option.bind_some, ne_eq, ha0, not_false_eq_true, if_true] at hs
  rw [Option.bind_eq_some_iff] at hs
  obtain ⟨s₁, hs₁, hs₂⟩ := hs
  cases hs₂
  exact ⟨rfl, by rw [splitOff_brk hs₁]; simp⟩

/-- `malloc` that asks the kernel returns what `sbrk` returned. -/
lemma malloc_fresh {s₁ : State} (hsize : size ≠ 0)
    (ha : s.reuseBlock (u32 (memBlockSize + alignSize size)) = some 0)
    (hsb : s.sbrk grant (toInt (alignToPage (u32 (memBlockSize + alignSize size)))) = (s₁, a))
    (ha1 : a ≠ 2 ^ 64 - 1) (hs : s.malloc grant size = some (s', q)) :
    q = a + 32 ∧ s'.brk = s₁.brk := by
  unfold malloc at hs
  rw [if_neg hsize] at hs
  simp only [ha, Option.bind_eq_bind, Option.bind_some, ne_eq, not_true_eq_false, if_false, hsb,
    if_neg ha1] at hs
  rw [Option.bind_eq_some_iff] at hs
  obtain ⟨s₂, hs₂, hs⟩ := hs
  rw [Option.bind_eq_some_iff] at hs
  obtain ⟨s₃, hs₃, hs⟩ := hs
  cases hs
  exact ⟨rfl, by rw [splitOff_brk hs₃, blockListAdd_brk hs₂]; simp⟩

end State

/-! ### Requests to `malloc` -/

lemma totalSz_wrap (size : Nat) :
    u32 (memBlockSize + alignSize size) = u32 (totalSize size) := by
  unfold totalSize alignSize u32 memBlockSize
  split <;> omega

/-- A total that has wrapped to 16 or 32 bytes asks for one page. -/
lemma wrapped_page (hsize : size < 2 ^ 32) (hwrap : 2 ^ 32 < totalSize size) :
    toInt (alignToPage (u32 (totalSize size))) = 4096 := by
  have h16 : u32 (totalSize size) = 16 ∨ u32 (totalSize size) = 32 := by
    unfold totalSize at *
    unfold u32
    omega
  rcases h16 with h | h <;> rw [h] <;> rfl

/-- A total of about `2 ^ 31` bytes or more asks for a negative number of bytes, or for none. -/
lemma unfair_page (hle : totalSize size ≤ 2 ^ 32) (hunfair : ¬ Fair size) :
    toInt (alignToPage (u32 (totalSize size))) ≤ 0 := by
  unfold Fair pageSize at hunfair
  unfold toInt alignToPage u32
  split <;> split <;> omega

/-- NULL, or a pointer to `size` bytes of a large enough block below the break. -/
def State.Ample (s : State) (q size : Nat) : Prop :=
  q = 0 ∨ 32 + size ≤ s.getSize (q - 32) ∧ q + size ≤ s.brk

/-- `malloc` returns NULL or enough, and does not lower the break below an allocation. -/
def Process.MallocOk (p : Process) (grant : Bool) (size : Nat) : Prop :=
  ∃ s' q, p.s.malloc grant size = some (s', q) ∧ s'.Ample q size ∧
    ∀ e ∈ p.live, p.payloadEnd e.1 ≤ s'.brk

/-- The request is served, or its total wraps to 16 or 32 bytes, no free block is found for these
and the kernel refuses a page. -/
def State.MallocFits (s : State) (grant : Bool) (size : Nat) : Prop :=
  s.Serves size ∨
    2 ^ 32 < totalSize size ∧ s.reuseBlock (u32 (totalSize size)) = some 0 ∧ grant = false

/-- A live allocation that is not moved stays below the break. -/
lemma Good.below (hg : Good base p h) {F : List Nat} (hm : Moves base F p.s h s' h')
    {f : Nat × Nat} (hf : f ∈ p.live) (hF : f.1 - 32 ∉ F) : p.payloadEnd f.1 ≤ s'.brk := by
  obtain ⟨b, hb, hbf, hbe, -, hbp⟩ := hg.payload_of_live hf
  rw [hbe, Nat.add_sub_cancel] at hF
  rw [hbp, hm.holds.brk]
  exact hm.holds.wf.top b (hm.evolves.kept b hb hbf hF)

/-- A block of the heap lies below the break. -/
lemma Holds.ample (hh : Holds base s h) (hc : c ∈ h.blocks) (hle : totalSize size ≤ c.size) :
    s.Ample (c.addr + 32) size := by
  right
  have h2 := le_totalSize size
  have h3 := hh.wf.top c hc
  rw [Nat.add_sub_cancel, hh.rep.getSize_eq hc, hh.brk]
  exact ⟨by omega, by omega⟩

lemma Good.mallocOk (hg : Good base p h) (hsize : 0 < size ∧ size < 2 ^ 32)
    (hroom : grant = true → Fair size → p.s.brk + pageSize (totalSize size) < base + 2 ^ 31)
    (hfits : p.s.MallocFits grant size) : p.MallocOk grant size := by
  have hbelow : ∀ f ∈ p.live, p.payloadEnd f.1 ≤ p.s.brk := fun f hf =>
    hg.below (Moves.refl (F := []) hg.holds) hf (by simp)
  rcases hfits with hserves | ⟨hwrap, hnone, rfl⟩
  · rw [hg.holds.brk] at hroom
    rcases hg.holds.malloc hg.calm hsize.1 hserves grant hroom with hs | ⟨s', h', b, hs, hgv, -⟩
    · exact ⟨p.s, 0, hs, Or.inl rfl, hbelow⟩
    · refine ⟨s', b.addr + 32, hs, hgv.moves.holds.ample hgv.mem hgv.size,
        fun f hf => hg.below hgv.moves hf ?_⟩
      obtain ⟨c, hc, hcf, hce, -⟩ := hg.payload_of_live hf
      rw [hce, Nat.add_sub_cancel, List.mem_singleton]
      exact hgv.new c hc hcf
  · refine ⟨p.s, 0, ?_, Or.inl rfl, hbelow⟩
    unfold State.malloc
    rw [if_neg (by omega)]
    simp only [totalSz_wrap size, hnone, wrapped_page hsize.2 hwrap, Option.bind_eq_bind, Option.bind_some]
    simp [State.sbrk]

/-- Outside the heap there is no room for `size` bytes below the break. -/
lemma not_ample (hq : q ≠ 0) (hlt : s.brk < q + size) : ¬ s.Ample q size := by
  rintro (h | h)
  · exact hq h
  · have := h.2
    omega

/-- A request that does not fit is answered, if at all, with bytes above the break. -/
lemma Good.malloc_beyond (hg : Good base p h) (hsize : 0 < size ∧ size < 2 ^ 32)
    (hfits : ¬ p.s.MallocFits grant size) (hs : p.s.malloc grant size = some (s', q)) :
    q ≠ 0 ∧ s'.brk < q + size := by
  have hne : size ≠ 0 := by omega
  have hlim := hg.holds.wf.lim
  have hb38 := hg.holds.wf.base_lt
  have hbrk := hg.holds.brk
  have hbrk1 : p.s.brk ≠ 2 ^ 64 - 1 := by omega
  unfold State.MallocFits State.Serves at hfits
  simp only [not_or, not_and, not_not] at hfits
  obtain ⟨⟨hunfair, hfull⟩, hrefuse⟩ := hfits
  obtain ⟨a, ha, hfound⟩ := hg.holds.rep.reuseBlock_found (u32 (totalSize size))
  by_cases ha0 : a = 0
  · subst ha0
    -- the kernel is asked: for a page, or for no positive number of bytes
    by_cases hwrap : 2 ^ 32 < totalSize size
    · have hgrant : grant = true := by simpa using hrefuse hwrap ha
      subst hgrant
      obtain ⟨s₁, hsb, hb₁⟩ := p.s.sbrk_page
      rw [← wrapped_page hsize.2 hwrap, ← totalSz_wrap size] at hsb
      rw [← totalSz_wrap size] at ha
      obtain ⟨rfl, hb⟩ := State.malloc_fresh hne ha hsb hbrk1 hs
      unfold totalSize at hwrap
      omega
    · have hle := unfair_page (by omega) hunfair
      rw [← totalSz_wrap size] at hle ha
      obtain ⟨s₁, hsb, hb₁, -⟩ := State.sbrk_nonpos p.s grant hle
      obtain ⟨rfl, hb⟩ := State.malloc_fresh hne ha hsb hbrk1 hs
      omega
  · -- the total has wrapped, and some free block is large enough for what is left
    rw [← totalSz_wrap size] at ha
    obtain ⟨rfl, hb⟩ := State.malloc_found hne ha ha0 hs
    have hamem := (hfound.resolve_left ha0).1
    obtain ⟨c, hc, rfl⟩ := List.mem_map.mp (hg.holds.wf.sub a hamem)
    have hlow := hg.holds.wf.low c hc
    have hbig : 2 ^ 32 ≤ totalSize size := by
      by_contra hlt
      have := hfull (by omega)
      rw [totalSz_wrap size, u32, Nat.mod_eq_of_lt (by omega), this] at ha
      exact ha0 (Option.some.inj ha).symm
    unfold totalSize at hbig
    omega

lemma Good.not_mallocOk (hg : Good base p h) (hsize : 0 < size ∧ size < 2 ^ 32)
    (hfits : ¬ p.s.MallocFits grant size) : ¬ p.MallocOk grant size := by
  rintro ⟨s', q, hs, hample, -⟩
  obtain ⟨hq, hlt⟩ := hg.malloc_beyond hsize hfits hs
  exact not_ample hq hlt hample

/-! ### Requests to `realloc` -/

/-- `realloc` returns NULL or enough, and does not lower the break below an allocation that stays. -/
def Process.ReallocOk (p : Process) (grant : Bool) (ptr size : Nat) : Prop :=
  ∃ s' q, p.s.realloc grant ptr size = some (s', q) ∧ s'.Ample q size ∧
    ∀ e ∈ p.live, e.1 ≠ ptr ∨ q = 0 → p.payloadEnd e.1 ≤ s'.brk

/-- The total does not wrap, and the block has room for it, or has it together with the free block
after it, or `malloc` serves the request. -/
def State.ReallocFits (s : State) (block size : Nat) : Prop :=
  totalSize size < 2 ^ 32 ∧
    (totalSize size ≤ s.getSize block ∨
      (s.nextBlock block ≠ 0 ∧ s.isFree (s.nextBlock block) = true ∧
        totalSize size ≤ s.getSize block + s.getSize (s.nextBlock block)) ∨
      s.Serves size)

/-- The allocations other than `c` stay below the break. -/
lemma Good.below_others (hg : Good base p h) {F : List Nat} (hm : Moves base F p.s h s' h')
    (hF : ∀ b ∈ h.blocks, b.free = false → b.addr ≠ c.addr → b.addr ∉ F) (hq : q ≠ 0) :
    ∀ f ∈ p.live, f.1 ≠ c.addr + 32 ∨ q = 0 → p.payloadEnd f.1 ≤ s'.brk := by
  intro f hf hne
  refine hg.below hm hf ?_
  obtain ⟨b, hb, hbf, hbe, -⟩ := hg.payload_of_live hf
  rw [hbe, Nat.add_sub_cancel]
  refine hF b hb hbf ?_
  have := hne.resolve_right hq
  omega

lemma Good.reallocOk (hg : Good base p ⟨l ++ c :: r, fs, brk⟩) (ht : Tiled base (l ++ c :: r) brk)
    (hcf : c.free = false) (hsize : 0 < size)
    (hroom : grant = true → Fair size → p.s.brk + pageSize (totalSize size) < base + 2 ^ 31)
    (hfits : p.s.ReallocFits c.addr size) : p.ReallocOk grant (c.addr + 32) size := by
  have hc : c ∈ l ++ c :: r := by simp
  obtain ⟨hlt, hfits⟩ := hfits
  rw [hg.holds.rep.getSize_eq hc] at hfits
  by_cases hcramped : ¬ Cramped c r (totalSize size)
  · obtain ⟨s', h', b, hs, hba, hrs, -⟩ := hg.holds.realloc_stay hg.calm hcf hsize grant
      (fun _ => ht.touching.next) (fun _ d hd hdf _ => ht.touching.next d hd hdf) hcramped
    refine ⟨s', c.addr + 32, hs, ?_, hg.below_others hrs.moves ?_ (by omega)⟩
    · rw [← hba]
      exact hrs.moves.holds.ample hrs.mem hrs.size
    · intro d _ _ hd
      simpa [hba] using hd
  rw [not_not] at hcramped
  have hserves : p.s.Serves size := by
    rcases hfits with h | ⟨h0, hf, hge⟩ | h
    · exact absurd hcramped.1 (by omega)
    · have heq := hg.holds.rep.nextBlock_eq
      cases r with
      | nil => exact absurd (by simpa using heq) h0
      | cons d r =>
        have hd : d ∈ l ++ c :: d :: r := by simp
        have heq' : p.s.nextBlock c.addr = d.addr := by simpa using heq
        rw [heq', hg.holds.rep.isFree_eq hd] at hf
        rw [heq', hg.holds.rep.getSize_eq hd] at hge
        exact absurd (hcramped.2 d rfl hf) (by omega)
    · exact h
  have hbrk : p.s.brk = brk := hg.holds.brk
  rw [hbrk] at hroom
  rcases hg.holds.realloc_move hg.calm hcf hsize hserves grant hroom hcramped
    (fun _ _ _ _ _ _ hgv => hgv.moves.evolves.touching ht) with hs | ⟨s₁, h₁, s', h', b, hs, hgv, hfr, -⟩
  · exact ⟨p.s, 0, hs, Or.inl rfl, fun f hf _ =>
      hg.below (Moves.refl (F := []) hg.holds) hf (by simp)⟩
  · have hbc : b.addr ∉ [c.addr] := by
      rw [List.mem_singleton]
      exact (hgv.new c hc hcf).symm
    have hb' := hfr.moves.evolves.kept b hgv.mem hgv.used hbc
    have hm₁ : Moves base [b.addr, c.addr] p.s _ s₁ h₁ := hgv.moves.mono (by simp)
    have hm₂ : Moves base [b.addr, c.addr] s₁ h₁ s' h' := hfr.moves.mono (by simp)
    refine ⟨s', b.addr + 32, hs, hfr.moves.holds.ample hb' hgv.size,
      hg.below_others (hm₁.trans hm₂) ?_ (by omega)⟩
    intro d hd hdf hdc
    simpa [hdc] using hgv.new d hd hdf

/-- `realloc` in place leaves the break alone. -/
lemma State.realloc_inPlace (hptr : ptr ≠ 0) (hsize : size ≠ 0)
    (hle : u32 (memBlockSize + alignSize size) ≤ s.getSize (ptr - memBlockSize))
    (hs : s.realloc grant ptr size = some (s', q)) : q = ptr ∧ s'.brk = s.brk := by
  unfold realloc at hs
  simp only [if_neg hptr, if_neg hsize, if_pos hle] at hs
  split at hs
  · rw [Option.bind_eq_bind, Option.bind_eq_some_iff] at hs
    obtain ⟨s₁, hs₁, hs₂⟩ := hs
    obtain ⟨rfl, rfl⟩ := Prod.mk.inj (Option.some.inj hs₂)
    exact ⟨rfl, by rw [mergeWithNext_brk, freeListAdd_brk hs₁, split_brk]⟩
  · cases hs
    exact ⟨rfl, split_brk⟩

/-- The free blocks are on the free list. -/
def Listed (bs : List Block) (fs : List Nat) : Prop := ∀ b ∈ bs, b.free = true → b.addr ∈ fs

/-- `merge_with_next` inside a heap that goes on with the blocks `k` after a block in use. -/
lemma Rep.merge_right (hr : Rep s (l ++ c :: (r ++ k)) fs) (hmem : c.addr ∈ fs)
    (hlist : Listed r fs) (hk : ∀ d ∈ k.head?, d.free = false) :
    ∃ c' r' fs', Rep (s.mergeWithNext c.addr) (l ++ c' :: (r' ++ k)) fs' ∧ c'.addr = c.addr ∧
      c'.free = c.free ∧ c.addr ∈ fs' := by
  by_cases hnext : ∃ d r', r = d :: r' ∧ d.free = true
  · obtain ⟨d, r', rfl, hdf⟩ := hnext
    obtain ⟨fl, fr, rfl⟩ := List.append_of_mem (hlist d (by simp) hdf)
    obtain ⟨h1, -⟩ := Rep.mergeWithNext (l := l) (c := c) (d := d) (r := r' ++ k) (by simpa using hr) hdf
    refine ⟨c.join d, r', fl ++ fr, h1, rfl, rfl, ?_⟩
    have hne : c.addr ≠ d.addr := by
      have h2 := (List.pairwise_cons.mp (List.pairwise_append.mp hr.spaced).2.1).1 d (by simp)
      omega
    rcases mem_middle.mp hmem with heq | hin
    · exact absurd heq hne
    · exact hin
  · rw [hr.mergeWithNext_none]
    · exact ⟨c, r, fs, hr, rfl, rfl, hmem⟩
    · intro d hd
      cases r with
      | nil => exact hk d (by simpa using hd)
      | cons e r =>
        obtain rfl : e = d := by simpa using hd
        by_contra hf
        exact hnext ⟨e, r, rfl, by simpa using hf⟩

/-- `free` of a block before a tail that is in use, or small, does not trim. -/
lemma Rep.free_inside (hr : Rep s (l ++ c :: (r ++ k)) fs) (hnot : c.addr ∉ fs)
    (hlist : Listed (l ++ r) fs) (hk : ∀ d ∈ k.head?, d.free = false) (hne : k ≠ [])
    (hsmall : ∀ e ∈ k.getLast?, e.free = true → e.size < 4096) (grant : Bool) :
    ∃ s', s.free grant (c.addr + 32) = some s' ∧ s'.brk = s.brk := by
  obtain ⟨h1, k1⟩ := hr.setFree
  obtain ⟨s₂, hs₂, h2, k2⟩ := h1.freeListAdd (a := c.addr) (by simp) hnot
  have hlist₂ : Listed r (fs ++ [c.addr]) := fun b hb hbf =>
    List.mem_append_left _ (hlist b (by simp [hb]) hbf)
  obtain ⟨c₃, r₃, fs₃, h3, ha₃, hf₃, hm₃⟩ := Rep.merge_right (c := { c with free := true }) h2
    (by simp) hlist₂ hk
  have h4 : ∃ m fs₄, Rep ((s₂.mergeWithNext c.addr).mergeWithPrev c.addr) (m ++ k) fs₄ := by
    by_cases hprev : ∃ l' b, l = l' ++ [b] ∧ b.free = true
    · obtain ⟨l', b, rfl, hbf⟩ := hprev
      obtain ⟨fl, fr, rfl⟩ := List.append_of_mem hm₃
      have h3' : Rep (s₂.mergeWithNext c.addr) (l' ++ b :: c₃ :: (r₃ ++ k)) (fl ++ c₃.addr :: fr) := by
        rw [ha₃]
        simpa using h3
      obtain ⟨h5, -⟩ := h3'.mergeWithPrev hbf
      rw [ha₃] at h5
      exact ⟨l' ++ b.join c₃ :: r₃, fl ++ fr, by simpa using h5⟩
    · have hnone := h3.mergeWithPrev_none fun b hb => by
        obtain ⟨l', rfl⟩ := List.getLast?_eq_some_iff.mp hb
        by_contra hf
        exact hprev ⟨l', b, rfl, by simpa using hf⟩
      rw [ha₃] at hnone
      have hnone' : (s₂.mergeWithNext c.addr).mergeWithPrev c.addr = s₂.mergeWithNext c.addr := hnone
      rw [hnone']
      exact ⟨l ++ c₃ :: r₃, fs₃, by simpa using h3⟩
  obtain ⟨m, fs₄, h4⟩ := h4
  have hstop := h4.releaseTail_stop
    (fun e he hf => hsmall e (by rwa [List.getLast?_append_of_ne_nil _ hne] at he) hf) grant (2 ^ 64 - 1)
  refine ⟨(s₂.mergeWithNext c.addr).mergeWithPrev c.addr, ?_, ?_⟩
  · have hptr : c.addr + 32 ≠ 0 := by omega
    unfold State.free State.freeBlock
    simp only [if_neg hptr, memBlockSize, Nat.add_sub_cancel, hs₂, Option.bind_eq_bind,
      Option.bind_some]
    exact hstop
  · rw [State.mergeWithPrev_brk, State.mergeWithNext_brk, State.freeListAdd_brk hs₂,
      State.setFree_brk]

lemma alignToPage_lt (hn : n < 2 ^ 32) : alignToPage n % 4096 = 0 ∧ alignToPage n < 2 ^ 32 := by
  unfold alignToPage u32
  split <;> omega

/-- What is cut off a new block, in `uint` arithmetic, is less than a page. -/
lemma page_rest (n : Nat) : u32 (alignToPage n + 2 ^ 32 - n) < 4096 := by
  unfold alignToPage u32
  split <;> omega

/-- `malloc` of a request that is not fair and finds no free block puts a block above the break. -/
lemma Holds.malloc_unfair (hh : Holds base s ⟨bs, fs, brk⟩) (hsize : 0 < size)
    (hlt : totalSize size < 2 ^ 32) (hnone : s.reuseBlock (totalSize size) = some 0)
    (hunfair : ¬ Fair size) (grant : Bool) :
    ∃ s₁ d k, s.malloc grant size = some (s₁, brk + 32) ∧ Rep s₁ (bs ++ d :: k) (fs ++ addrs k) ∧
      s₁.brk ≤ brk ∧ d.addr = brk ∧ d.free = false ∧ (∀ e ∈ k, brk + totalSize size ≤ e.addr) ∧
      ∀ e ∈ (d :: k).getLast?, e.free = true → e.size < 4096 := by
  have htotal := totalSize_ge hsize
  have hbase : base ≤ brk := hh.wf.base_le
  have hlim : brk < base + 2 ^ 31 := hh.wf.lim
  have hb38 := hh.wf.base_lt
  have hb0 := hh.wf.base_pos
  have hsb : s.brk = brk := hh.brk
  have hend : ∀ b ∈ bs, b.addr + 48 ≤ brk := fun b hb => hh.wf.end_le hb
  have hwrap : u32 (totalSize size) = totalSize size := Nat.mod_eq_of_lt hlt
  have hle := unfair_page (by omega) hunfair
  rw [hwrap] at hle
  obtain ⟨s₀, hs₀, hb₀, heq₀⟩ := State.sbrk_nonpos s grant hle
  rw [hsb] at hs₀ hb₀
  set page := alignToPage (totalSize size) with hpage
  have hp := alignToPage_lt hlt
  rw [← hpage] at hp
  have hp2 : page % 2 = 0 ∧ page < 2 ^ 32 := ⟨by omega, hp.2⟩
  have hrep₀ : Rep s₀ bs fs := by
    rw [heq₀]
    exact hh.rep.of_mem rfl rfl rfl (fun _ _ _ _ _ => rfl) fun _ _ _ _ _ => rfl
  obtain ⟨s₁, hs₁, h1, k1⟩ := hrep₀.addBlock hend ⟨by omega, by omega⟩ hp2
  have hmalloc : s.malloc grant size = (s₁.splitOff brk (totalSize size)).bind
      fun s' => some (s', brk + 32) := by
    have hbrk1 : brk ≠ 2 ^ 64 - 1 := by omega
    unfold State.malloc
    rw [if_neg (by omega)]
    simp only [totalSz_eq hlt, hnone, Option.bind_eq_bind, Option.bind_some, ne_eq,
      not_true_eq_false, if_false, ← hpage, hs₀, if_neg hbrk1, hs₁]
    rfl
  rw [hmalloc]
  unfold State.splitOff
  by_cases hcut : u32 (totalSize size + 48) ≤ page
  · set d : Block := ⟨brk, page, false⟩ with hd
    obtain ⟨s₂, hs₂, h2, k2⟩ := Rep.split (c := d) (r := []) h1 hcut ⟨htotal.2, hlt, by omega⟩
      (by simp only [hd]; omega) (by simp)
    have hnot : (d.upper (totalSize size)).addr ∉ fs := by
      intro hx
      obtain ⟨b, hb, hbx⟩ := List.mem_map.mp (hh.wf.sub _ hx)
      have := hend b hb
      simp only [Block.upper, hd] at hbx
      omega
    obtain ⟨s₃, hs₃, h3, k3⟩ := h2.freeListAdd (a := (d.upper (totalSize size)).addr) (by simp) hnot
    have hne : brk + totalSize size ≠ 0 := by omega
    have hs₂' : s₁.split brk (totalSize size) = (s₂, brk + totalSize size) := hs₂
    have hs₃' : s₂.freeListAdd (brk + totalSize size) = some s₃ := hs₃
    refine ⟨s₃, d.lower (totalSize size), [d.upper (totalSize size)], ?_, h3, ?_, rfl, rfl, ?_, ?_⟩
    · rw [hs₂']
      simp only [ne_eq, hne, not_false_eq_true, if_true, hs₃', Option.bind_some]
    · rw [k3.brk, k2.brk, k1.brk]
      exact hb₀
    · intro e he
      rw [List.mem_singleton.mp he]
      exact le_refl _
    · intro e he _
      obtain rfl : d.upper (totalSize size) = e := by simpa using he
      exact page_rest _
  · have hsmall : s₁.split brk (totalSize size) = (s₁, 0) :=
      h1.split_small (c := ⟨brk, page, false⟩) (by simp) (by simp only; omega)
    refine ⟨s₁, ⟨brk, page, false⟩, [], ?_, by simpa using h1, ?_, rfl, rfl, by simp, ?_⟩
    · rw [hsmall]
      simp
    · rw [k1.brk]
      exact hb₀
    · intro e he hef
      obtain rfl : _ = e := by simpa using he
      simp at hef

lemma Good.not_reallocOk (hg : Good base p ⟨l ++ c :: r, fs, brk⟩) (hcf : c.free = false)
    (hsize : 0 < size ∧ size < 2 ^ 32) (hfits : ¬ p.s.ReallocFits c.addr size) :
    ¬ p.ReallocOk grant (c.addr + 32) size := by
  rintro ⟨s', q, hs, hample, -⟩
  have hc : c ∈ l ++ c :: r := by simp
  have hlow := hg.holds.wf.low c hc
  have hlim : brk < base + 2 ^ 31 := hg.holds.wf.lim
  have hbrk : p.s.brk = brk := hg.holds.brk
  have hcsz := hg.holds.wf.size_lt hc
  by_cases hlt : totalSize size < 2 ^ 32
  · unfold State.ReallocFits State.Serves at hfits
    rw [hg.holds.rep.getSize_eq hc] at hfits
    simp only [hlt, true_and, not_or, not_and, not_not] at hfits
    obtain ⟨hbig, hnext, hunfair, hnone⟩ := hfits
    have hcramped : Cramped c r (totalSize size) := by
      refine ⟨by omega, fun d hd hdf => ?_⟩
      obtain ⟨r, rfl⟩ := List.head?_eq_some_iff.mp hd
      have hdm : d ∈ l ++ c :: d :: r := by simp
      have heq : p.s.nextBlock c.addr = d.addr := by simpa using hg.holds.rep.nextBlock_eq
      rw [heq, hg.holds.rep.isFree_eq hdm, hg.holds.rep.getSize_eq hdm] at hnext
      have := hnext (hg.holds.rep.ne_zero hdm) hdf
      omega
    obtain ⟨s₁, d, k, hs₁, hrep, hb₁, hda, hdf, hk, hlast⟩ :=
      hg.holds.malloc_unfair hsize.1 hlt hnone hunfair grant
    have hcopy : State.copyLength c.size size < totalSize size - 32 := by
      have h1 := (hg.holds.wf.size c hc).2
      have h2 := hcramped.1
      unfold State.copyLength memBlockSize u32
      split <;> omega
    -- the copy goes above the break, but not as far as what was cut off
    have hrep₂ : Rep
        (s₁.copyPayload (brk + 32) (c.addr + 32) c.size size)
        ((l ++ c :: r) ++ d :: k) (fs ++ addrs k) := by
      refine hrep.of_mem rfl rfl rfl (fun b hb x h1 h2 => memmove_apply_ne _ _ _ _ ?_)
        fun y hy x h1 h2 => memmove_apply_ne _ _ _ _ ?_
      · rcases mem_middle.mp hb with rfl | hb
        · omega
        · rcases List.mem_append.mp hb with hb | hb
          · have := hg.holds.wf.end_le hb
            simp only at this
            omega
          · have := hk b hb
            omega
      · rcases List.mem_append.mp hy with hy | hy
        · obtain ⟨b, hb, rfl⟩ := List.mem_map.mp (hg.holds.wf.sub y hy)
          have := hg.holds.wf.end_le hb
          simp only at this
          omega
        · obtain ⟨b, hb, rfl⟩ := List.mem_map.mp hy
          have := hk b hb
          omega
    have hnot : c.addr ∉ fs ++ addrs k := by
      intro hm
      rcases List.mem_append.mp hm with hm | hm
      · have := (hg.holds.wf.marked c hc).mpr hm
        simp [hcf] at this
      · obtain ⟨b, hb, hbc⟩ := List.mem_map.mp hm
        have h1 := hk b hb
        have h2 := hg.holds.wf.end_le hc
        simp only at h2
        omega
    have hlist : Listed (l ++ r) (fs ++ addrs k) := fun b hb hbf =>
      List.mem_append_left _ ((hg.holds.wf.marked b (mem_middle.mpr (Or.inr hb))).mp hbf)
    obtain ⟨s₃, hs₃, hb₃⟩ := Rep.free_inside (k := d :: k) (by simpa using hrep₂) hnot hlist
      (by simpa using hdf) (by simp) hlast grant
    have hq : brk + 32 ≠ 0 := by omega
    rw [hg.holds.realloc_eq hsize.1 hlt hcramped] at hs
    simp only [hs₁, Option.bind_eq_bind, Option.bind_some, if_neg hq, hs₃] at hs
    cases hs
    refine not_ample hq ?_ hample
    rw [hb₃]
    unfold State.copyPayload
    simp only
    omega
  · have h48 := (hg.holds.wf.size c hc).2
    have hle : u32 (memBlockSize + alignSize size) ≤ p.s.getSize (c.addr + 32 - memBlockSize) := by
      rw [totalSz_wrap size, memBlockSize, Nat.add_sub_cancel, hg.holds.rep.getSize_eq hc]
      unfold totalSize at *
      unfold u32
      omega
    obtain ⟨rfl, hb⟩ := State.realloc_inPlace (by omega) (by omega) hle hs
    refine not_ample (by omega) ?_ hample
    unfold totalSize at hlt
    omega

/-- Exactly these requests are served as they should, in every heap that the allocator may leave
behind. -/
theorem request_served (hs : Sound base p) (hsize : 0 < size ∧ size < 2 ^ 32)
    (hroom : grant = true → Fair size → p.s.brk + pageSize (totalSize size) < base + 2 ^ 31) :
    (p.MallocOk grant size ↔ p.s.MallocFits grant size) ∧
      ∀ ptr ∈ p.live.map Prod.fst,
        (p.ReallocOk grant ptr size ↔ p.s.ReallocFits (ptr - 32) size) := by
  obtain ⟨⟨bs, fs, brk⟩, hg, ht⟩ := hs
  refine ⟨⟨fun hok => ?_, hg.mallocOk hsize hroom⟩, fun ptr hptr => ?_⟩
  · by_contra hfits
    exact hg.not_mallocOk hsize hfits hok
  · obtain ⟨l, c, r, hlr, hcf, rfl⟩ := hg.block_of_live hptr
    simp only at hlr ht
    subst hlr
    rw [Nat.add_sub_cancel]
    refine ⟨fun hok => ?_, hg.reallocOk ht hcf hsize.1 hroom⟩
    by_contra hfits
    exact hg.not_reallocOk hcf hsize hfits hok

/-- With two allocations and two free blocks: `malloc` and `realloc` serve 8000 bytes, and neither
serves a request whose total wraps. -/
theorem request_served_trace : ∃ as p, Steps (Calls 20480) (Process.init 20480) as p ∧
    p.live = [(20704, 200), (20656, 16)] ∧ p.MallocOk true 8000 ∧ p.ReallocOk true 20656 8000 ∧
    ¬ p.MallocOk true 4294967295 ∧ ¬ p.ReallocOk true 20656 4294967295 := by
  have hsome : (List.foldlM (Process.call 20480) (Process.init 20480)
      [.malloc 100 true, .malloc 16 true, .malloc 200 true, .free 20512 true]).any
      (fun p => p.live = [(20704, 200), (20656, 16)] ∧ p.s.brk = 24576) = true := by
    decide
  obtain ⟨p, hp, hbits⟩ := (Option.any_eq_true _ _).mp hsome
  rw [decide_eq_true_eq] at hbits
  obtain ⟨hlive, hbrk⟩ := hbits
  have hrun := Steps.of_foldlM (fun _ _ _ => Process.call_calls) hp
  have hstart : Start 20480 (Process.init 20480) := Process.start_init (by decide) (by decide)
  have hs := Sound.of_run hstart hrun
  have hptr : 20656 ∈ p.live.map Prod.fst := by simp [hlive]
  obtain ⟨hm, hr⟩ := request_served hs (by decide : 0 < 8000 ∧ 8000 < 2 ^ 32)
    (fun (_ : true = true) _ => by rw [hbrk]; decide)
  obtain ⟨hm', hr'⟩ := request_served hs (by decide : 0 < 4294967295 ∧ 4294967295 < 2 ^ 32)
    (fun (_ : true = true) hfair => absurd hfair (by decide))
  refine ⟨_, p, hrun, hlive, hm.mpr (Or.inl (Or.inl (by decide))),
    (hr 20656 hptr).mpr ⟨by decide, Or.inr (Or.inr (Or.inl (by decide)))⟩, fun h => ?_, fun h => ?_⟩
  · -- the total is 2 ^ 32 + 32, and the kernel gives the page
    rcases hm'.mp h with (hfair | hlt) | hwrap
    · revert hfair
      decide
    · exact absurd hlt.1 (by decide)
    · simp at hwrap
  · exact absurd ((hr' 20656 hptr).mp h).1 (by decide)

/-- `malloc(4294967295)` on an empty heap gives a block of 32 bytes. -/
theorem request_wraps : ¬ ∀ base p size grant, Sound base p → 0 < size ∧ size < 2 ^ 32 →
    (grant = true → Fair size → p.s.brk + pageSize (totalSize size) < base + 2 ^ 31) →
    p.MallocOk grant size := by
  intro hall
  obtain ⟨s', q, hs, hample, -⟩ := hall 20480 (Process.init 20480) 4294967295 true
    (Process.start_init (by decide) (by decide)).sound (by decide) (by decide)
  have hbits : ((Process.init 20480).s.malloc true 4294967295).map
      (fun r => (r.2, r.1.getSize 20480, r.1.brk)) = some (20512, 32, 24576) := by
    decide
  rw [hs] at hbits
  simp only [Option.map_some, Option.some.injEq, Prod.mk.injEq] at hbits
  rcases hample with h | h <;> omega

end FogOS.Umalloc
