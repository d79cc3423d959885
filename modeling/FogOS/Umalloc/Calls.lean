import FogOS.Umalloc.Moves

/-!
# The calls of the allocator

What `malloc`, `free`, `calloc`, `realloc` and `malloc_name` do on a heap without free neighbours:
each of them returns, and is a move of the heap. The merges and the trim of `free` are asked to
stay between blocks that touch; on a tiled heap all blocks do.
-/

namespace FogOS.Umalloc

open ByteMem

variable {base brk size total x : Nat} {F : List Nat} {bs l r : List Block} {fs fl fr : List Nat}
  {b c d : Block} {h h' : Heap} {s s' : State}

/-! ### Sizes -/

/-- The bytes of a block for a request of `size` bytes, header included. -/
def totalSize (size : Nat) : Nat := 32 + (size + 15) / 16 * 16

/-- The bytes asked from the kernel for a block of `total` bytes. -/
def pageSize (total : Nat) : Nat := (total + 4095) / 4096 * 4096

/-- The requests for which no `uint` wraps and the kernel is asked for a positive `int`. -/
def Fair (size : Nat) : Prop := pageSize (totalSize size) < 2 ^ 31

lemma totalSize_ge (hsize : 0 < size) : totalSize size % 16 = 0 ∧ 48 ≤ totalSize size := by
  unfold totalSize
  omega

lemma le_totalSize (size : Nat) : 32 + size ≤ totalSize size := by
  unfold totalSize
  omega

lemma le_pageSize (total : Nat) : total ≤ pageSize total ∧ pageSize total < total + 4096 := by
  unfold pageSize
  omega

lemma totalSz_eq (hlt : totalSize size < 2 ^ 32) :
    u32 (memBlockSize + alignSize size) = totalSize size := by
  unfold totalSize at *
  unfold alignSize u32 memBlockSize
  split <;> omega

lemma alignToPage_eq (hlt : pageSize total < 2 ^ 32) : alignToPage total = pageSize total := by
  unfold pageSize at *
  unfold alignToPage u32
  split <;> omega

lemma Fair.lt (hf : Fair size) : totalSize size < 2 ^ 31 := by
  unfold Fair at hf
  have := (le_pageSize (totalSize size)).1
  omega

/-! ### Free neighbours -/

lemma calm_middle : Calm (l ++ c :: r) ↔ Calm l ∧ Calm r ∧
    (c.free = true → (∀ b ∈ l.getLast?, b.free = false) ∧ ∀ d ∈ r.head?, d.free = false) := by
  unfold Calm
  rw [List.isChain_append, List.isChain_cons]
  simp only [List.head?_cons, Option.mem_some_iff, forall_eq', not_and, Bool.not_eq_true]
  constructor
  · rintro ⟨h1, ⟨h2, h3⟩, h4⟩
    refine ⟨h1, h3, fun hc => ⟨fun b hb => ?_, fun d hd => h2 d hd hc⟩⟩
    by_contra hbf
    have := h4 b hb (by simpa using hbf)
    simp [hc] at this
  · rintro ⟨h1, h2, h3⟩
    refine ⟨h1, ⟨fun d hd hc => (h3 hc).2 d hd, h2⟩, fun b hb hbf => ?_⟩
    by_contra hc
    have := (h3 (by simpa using hc)).1 b hb
    simp [hbf] at this

/-- A block in use may stand anywhere. -/
lemma Calm.used (hl : Calm l) (hr : Calm r) (hc : c.free = false) : Calm (l ++ c :: r) :=
  calm_middle.mpr ⟨hl, hr, fun h => by simp [hc] at h⟩

lemma Calm.left (hcalm : Calm (l ++ c :: r)) : Calm l := (calm_middle.mp hcalm).1

lemma Calm.right (hcalm : Calm (l ++ c :: r)) : Calm r := (calm_middle.mp hcalm).2.1

/-- The blocks next to a free block are in use. -/
lemma Calm.next (hcalm : Calm (l ++ c :: r)) (hc : c.free = true) : ∀ d ∈ r.head?, d.free = false :=
  ((calm_middle.mp hcalm).2.2 hc).2

lemma Calm.prev (hcalm : Calm (l ++ c :: r)) (hc : c.free = true) :
    ∀ b ∈ l.getLast?, b.free = false :=
  ((calm_middle.mp hcalm).2.2 hc).1

/-- Cutting a block in use leaves a free block, before one that is in use. -/
lemma Calm.carve (hl : Calm l) (hr : Calm r) (hc : c.free = false)
    (hnext : c.carve total = [c] ∨ ∀ d ∈ r.head?, d.free = false) :
    Calm (l ++ c.carve total ++ r) := by
  rcases c.carve_cases total with ⟨hle, hcarve, -⟩ | ⟨-, hcarve, -⟩
  · rw [hcarve, List.append_assoc]
    have hne : c.carve total ≠ [c] := by simp [hcarve]
    refine Calm.used hl ?_ hc
    have hup : Calm ([] ++ c.upper total :: r) :=
      calm_middle.mpr ⟨List.IsChain.nil, hr, fun _ => ⟨by simp, hnext.resolve_left hne⟩⟩
    simpa using hup
  · rw [hcarve, List.append_assoc]
    exact Calm.used hl hr hc

/-! ### The last block -/

/-- The last block is in use, or smaller than a page. -/
def SmallTail (bs : List Block) : Prop := ∀ e ∈ bs.getLast?, e.free = true → e.size < 4096

/-- The last block is in use, or smaller than a page, or there is no block. -/
def State.SmallTail (s : State) : Prop :=
  s.tail = 0 ∨ s.isFree s.tail = false ∨ s.getSize s.tail < 4096

lemma State.smallTail_iff_not : s.SmallTail ↔ ¬ s.LargeTail := by
  unfold State.SmallTail State.LargeTail
  cases s.isFree s.tail with
  | false => simp
  | true =>
    simp only [Bool.true_eq_false, false_or, true_and]
    omega

lemma Rep.tail_eq_last (hr : Rep s (l ++ [c]) fs) : s.tail = c.addr := by
  rw [hr.tail_eq]
  simp

lemma Rep.smallTail_iff (hr : Rep s bs fs) : s.SmallTail ↔ SmallTail bs := by
  unfold State.SmallTail
  rcases List.eq_nil_or_concat bs with rfl | ⟨l, c, rfl⟩
  · have htail : s.tail = 0 := hr.tail_eq
    simp [SmallTail, htail]
  · rw [List.concat_eq_append] at *
    have hc : c ∈ l ++ [c] := by simp
    have h0 := hr.ne_zero hc
    rw [hr.tail_eq_last, hr.isFree_eq hc, hr.getSize_eq hc]
    cases hf : c.free <;> simp [SmallTail, hf, h0]

lemma smallTail_append (hr : r ≠ []) : SmallTail (l ++ r) ↔ SmallTail r := by
  unfold SmallTail
  rw [List.getLast?_append_of_ne_nil _ hr]

lemma smallTail_last : SmallTail (l ++ [c]) ↔ (c.free = true → c.size < 4096) := by
  simp [SmallTail]

/-- Cutting a block in use at the end of the heap leaves a small tail if the rest is small. -/
lemma SmallTail.carve (hr : SmallTail r) (hused : c.free = false) (hlt : c.size < 2 ^ 32)
    (hrest : r = [] → c.size < total + 4096) : SmallTail (l ++ c.carve total ++ r) := by
  by_cases hnil : r = []
  · subst hnil
    rw [List.append_nil]
    rcases c.carve_cases total with ⟨hle, hcarve, -⟩ | ⟨-, hcarve, -⟩
    · rw [hcarve, ← List.singleton_append, ← List.append_assoc, smallTail_last,
        Block.upper_size (by omega) hlt]
      have := hrest rfl
      omega
    · rw [hcarve, smallTail_last]
      simp [hused]
  · exact (smallTail_append hnil).mpr hr

/-! ### malloc -/

/-- The request is fair, or a free block is found for it. -/
def State.Serves (s : State) (size : Nat) : Prop :=
  Fair size ∨ totalSize size < 2 ^ 32 ∧ s.reuseBlock (totalSize size) ≠ some 0

lemma State.Serves.lt (hs : s.Serves size) : totalSize size < 2 ^ 32 := by
  rcases hs with hf | ⟨hlt, -⟩
  · have := hf.lt
    omega
  · exact hlt

/-- The pointer `q` is that of a new block of at least `total` bytes. -/
structure Gives (base : Nat) (F : List Nat) (total : Nat) (s : State) (h : Heap) (s' : State)
    (h' : Heap) (b : Block) : Prop where
  moves : Moves base (b.addr :: F) s h s' h'
  calm : Calm h'.blocks
  mem : b ∈ h'.blocks
  used : b.free = false
  size : total ≤ b.size
  new : ∀ c ∈ h.blocks, c.free = false → c.addr ≠ b.addr

lemma Block.mem_carve (hle : total ≤ c.size) (hused : c.free = false) :
    ∃ b ∈ c.carve total, b.addr = c.addr ∧ b.free = false ∧ total ≤ b.size := by
  rcases c.carve_cases total with ⟨-, hcarve, -⟩ | ⟨-, hcarve, -⟩
  · exact ⟨c.lower total, by simp [hcarve], rfl, hused, le_refl _⟩
  · exact ⟨c, by simp [hcarve], rfl, hused, hle⟩

lemma Holds.mem_free (hh : Holds base s h) {a : Nat} (ha : a ∈ h.frees) :
    ∃ l c r fl fr, h = ⟨l ++ c :: r, fl ++ a :: fr, h.brk⟩ ∧ c.addr = a ∧ c.free = true := by
  obtain ⟨c, hc, rfl⟩ := List.mem_map.mp (hh.wf.sub a ha)
  obtain ⟨l, r, hlr⟩ := List.append_of_mem hc
  obtain ⟨fl, fr, hfr⟩ := List.append_of_mem ha
  refine ⟨l, c, r, fl, fr, ?_, rfl, (hh.wf.marked c hc).mpr ha⟩
  rw [← hlr, ← hfr]

/-- `malloc` when the search finds the block `c`. -/
lemma Holds.malloc_reuse (hh : Holds base s ⟨l ++ c :: r, fl ++ c.addr :: fr, brk⟩)
    (hcalm : Calm (l ++ c :: r)) (hfree : c.free = true)
    (htotal : total % 16 = 0 ∧ 48 ≤ total) (hle : total ≤ c.size) :
    ∃ s' h' b, ((s.setUsed c.addr).freeListRemove c.addr).splitOff c.addr total = some s' ∧
      b.addr = c.addr ∧
      Gives base [] total s ⟨l ++ c :: r, fl ++ c.addr :: fr, brk⟩ s' h' b ∧
      (SmallTail (l ++ c :: r) → SmallTail h'.blocks) := by
  have hm := hh.use (F := [c.addr]) (by simp)
  obtain ⟨s', hs', hm', -⟩ := hm.holds.splitOff (c := c.use) rfl htotal hle
    (F := [c.addr]) (by simp [Block.use])
  obtain ⟨b, hb, hba, hbf, hbs⟩ := Block.mem_carve (c := c.use) hle rfl
  have hba' : b.addr = c.addr := hba
  have hmoves : Moves base [b.addr] s ⟨l ++ c :: r, fl ++ c.addr :: fr, brk⟩ s'
      ⟨l ++ c.use.carve total ++ r, fl ++ fr ++ c.use.rest total, brk⟩ := by
    rw [hba']
    exact hm.trans hm'
  refine ⟨s', _, b, hs', hba', ⟨hmoves, ?_, by simp [hb], hbf, hbs, fun d hd hdf => ?_⟩,
    fun hsmall => ?_⟩
  · exact Calm.carve hcalm.left hcalm.right rfl (Or.inr (hcalm.next hfree))
  · rw [hba']
    rintro heq
    have hdc := hh.wf.addr_inj hd (c := c) (by simp) heq
    simp [hdc, hfree] at hdf
  · have hlt := hh.wf.size_lt (b := c) (by simp)
    refine SmallTail.carve (fun e he hef => ?_) rfl (show c.size < 2 ^ 32 by omega) fun hnil => ?_
    · refine hsmall e ?_ hef
      rw [List.getLast?_append_of_ne_nil _ (by simp)]
      exact List.mem_getLast?_cons he
    · subst hnil
      have := smallTail_last.mp hsmall hfree
      simp only [Block.use]
      omega

/-- `malloc` when the kernel gives more memory. -/
lemma Holds.malloc_grow (hh : Holds base s ⟨bs, fs, brk⟩) (hcalm : Calm bs)
    (htotal : total % 16 = 0 ∧ 48 ≤ total) (hlim : brk + pageSize total < base + 2 ^ 31) :
    ∃ s₁ s₂ s' h' b, s.sbrk true (toInt (pageSize total)) = (s₁, brk) ∧
      ((((s₁.clearName brk).setSize brk (pageSize total)).setUsed brk).putNextBlock brk 0
        |>.putPrevBlock brk 0).blockListAdd brk = some s₂ ∧
      s₂.splitOff brk total = some s' ∧ b.addr = brk ∧
      Gives base [] total s ⟨bs, fs, brk⟩ s' h' b ∧ SmallTail h'.blocks := by
  have hpage := le_pageSize total
  have hdiv : pageSize total % 16 = 0 := by
    unfold pageSize
    omega
  obtain ⟨s₁, s₂, hs₁, hs₂, hm⟩ := hh.extend (F := [brk]) ⟨hdiv, by omega⟩ hlim (by simp)
  obtain ⟨s', hs', hm', -⟩ := hm.holds.splitOff (c := ⟨brk, pageSize total, false⟩) (l := bs) (r := [])
    (F := [brk]) rfl htotal hpage.1 (by simp)
  obtain ⟨b, hb, hba, hbf, hbs⟩ := Block.mem_carve (c := ⟨brk, pageSize total, false⟩) hpage.1 rfl
  have hba' : b.addr = brk := hba
  have hmoves : Moves base [b.addr] s ⟨bs, fs, brk⟩ s'
      ⟨bs ++ Block.carve ⟨brk, pageSize total, false⟩ total ++ [],
        fs ++ Block.rest ⟨brk, pageSize total, false⟩ total, brk + pageSize total⟩ := by
    rw [hba']
    exact hm.trans hm'
  refine ⟨s₁, s₂, s', _, b, hs₁, hs₂, hs', hba', ⟨hmoves, ?_, by simp [hb], hbf, hbs,
    fun d hd hdf => ?_⟩, ?_⟩
  · exact Calm.carve hcalm List.IsChain.nil rfl (Or.inr (by simp))
  · have h1 := hh.wf.top d hd
    have h2 := (hh.wf.size d hd).2
    simp only at h1
    omega
  · have hb31 : pageSize total < 2 ^ 32 := by
      have := hh.wf.base_le
      simp only at this
      omega
    exact SmallTail.carve (by simp [SmallTail]) rfl hb31 fun _ => (by simp only; omega)

/-- `malloc` returns NULL and changes nothing, or gives a new block. -/
theorem Holds.malloc (hh : Holds base s h) (hcalm : Calm h.blocks) (hsize : 0 < size)
    (hserves : s.Serves size) (grant : Bool)
    (hroom : grant = true → Fair size → h.brk + pageSize (totalSize size) < base + 2 ^ 31) :
    s.malloc grant size = some (s, 0) ∨ ∃ s' h' b, s.malloc grant size = some (s', b.addr + 32) ∧
      Gives base [] (totalSize size) s h s' h' b ∧ (SmallTail h.blocks → SmallTail h'.blocks) := by
  have htotal := totalSize_ge hsize
  have hne : size ≠ 0 := by omega
  unfold State.malloc
  simp only [if_neg hne, totalSz_eq hserves.lt]
  obtain ⟨a, ha, hfound⟩ := hh.rep.reuseBlock_found (totalSize size)
  simp only [ha, Option.bind_eq_bind, Option.bind_some]
  rcases hfound with rfl | ⟨hafs, hle⟩
  · have hfair : Fair size := hserves.resolve_right fun hf => hf.2 ha
    simp only [ne_eq, not_true_eq_false, if_false]
    have hpage : alignToPage (totalSize size) = pageSize (totalSize size) :=
      alignToPage_eq (by unfold Fair at hfair; omega)
    rw [hpage]
    have hpos : 0 < pageSize (totalSize size) := by
      have := (le_pageSize (totalSize size)).1
      omega
    cases grant with
    | false =>
      left
      have hsbrk : s.sbrk false (toInt (pageSize (totalSize size))) = (s, 2 ^ 64 - 1) := by
        rw [toInt_of_lt hfair]
        unfold State.sbrk
        rw [if_pos (by omega)]
        simp
      rw [hsbrk]
      simp
    | true =>
      right
      obtain ⟨bs, fs, brk⟩ := h
      obtain ⟨s₁, s₂, s', h', b, hs₁, hs₂, hs', hba, hg, hsmall⟩ :=
        hh.malloc_grow hcalm htotal (hroom rfl hfair)
      have hbrk : brk ≠ 2 ^ 64 - 1 := by
        have h1 := hh.wf.lim
        have h2 := hh.wf.base_lt
        simp only at h1
        omega
      refine ⟨s', h', b, ?_, hg, fun _ => hsmall⟩
      rw [hs₁]
      simp only [if_neg hbrk, hs₂, Option.bind_some, hs', hba, memBlockSize]
  · right
    obtain ⟨l, c, r, fl, fr, hheap, rfl, hfree⟩ := hh.mem_free hafs
    generalize h.brk = brk at hheap
    subst hheap
    have hc0 := hh.rep.ne_zero (c := c) (by simp)
    rw [hh.rep.getSize_eq (c := c) (by simp)] at hle
    obtain ⟨s', h', b, hs', hba, hg, hsmall⟩ := hh.malloc_reuse hcalm hfree htotal hle
    refine ⟨s', h', b, ?_, hg, hsmall⟩
    simp only [ne_eq, hc0, not_false_eq_true, if_true, hs', Option.bind_some, hba, memBlockSize]

/-! ### free -/

/-- The bytes a merge takes over from a neighbour. -/
def freeSize : Option Block → Nat
  | none => 0
  | some b => if b.free then b.size else 0

/-- What `free` merges with the block `c`, or gives back to the kernel, has no gap. -/
structure Touching (l : List Block) (c : Block) (r : List Block) (brk : Nat) : Prop where
  next : ∀ d ∈ r.head?, d.free = true → c.addr + c.size = d.addr
  prev : ∀ b ∈ l.getLast?, b.free = true → b.addr + b.size = c.addr
  merged : ∀ e, (r = [] ∧ e = c ∨ r = [e] ∧ e.free = true) →
    4096 ≤ freeSize l.getLast? + c.size + freeSize r.head? → e.addr + e.size = brk
  tail : ∀ e ∈ r.getLast?, e.free = true → 4096 ≤ e.size → e.addr + e.size = brk

lemma Tiled.touching {a : Nat} (ht : Tiled a (l ++ c :: r) brk) : Touching l c r brk where
  next d hd _ := by
    obtain ⟨r, rfl⟩ := List.head?_eq_some_iff.mp hd
    exact ht.adjacent
  prev b hb _ := by
    obtain ⟨l, rfl⟩ := List.getLast?_eq_some_iff.mp hb
    rw [List.append_assoc] at ht
    exact Tiled.adjacent ht
  merged e he _ := by
    rcases he with ⟨rfl, rfl⟩ | ⟨rfl, -⟩
    · exact ht.last
    · rw [List.append_cons] at ht
      exact ht.last
  tail e he _ _ := by
    obtain ⟨r, rfl⟩ := List.getLast?_eq_some_iff.mp he
    rw [← List.cons_append, ← List.append_assoc] at ht
    exact ht.last

/-- The blocks of a tiled heap still touch after a move. -/
lemma Evolves.touching {a : Nat} (he : Evolves F h h') (ht : Tiled a h.blocks h.brk)
    (hlr : h'.blocks = l ++ c :: r) : Touching l c r h'.brk := by
  have ht' := he.tiled a ht
  rw [hlr] at ht'
  exact ht'.touching

/-- `merge_with_next` of a free block, whatever comes after it. -/
lemma Holds.merge_right (hh : Holds base s ⟨l ++ c :: r, fs, brk⟩) (hc : c.free = true)
    (hr : Calm r) (hadj : ∀ d ∈ r.head?, d.free = true → c.addr + c.size = d.addr) :
    ∃ c' r' fs', Moves base [] s ⟨l ++ c :: r, fs, brk⟩ (s.mergeWithNext c.addr)
        ⟨l ++ c' :: r', fs', brk⟩ ∧ c'.addr = c.addr ∧ c'.free = true ∧
      c'.size = c.size + freeSize r.head? ∧ Calm r' ∧ (∀ d ∈ r'.head?, d.free = false) ∧
      (r' = r ∨ ∃ d, r = d :: r' ∧ d.free = true) := by
  by_cases hnext : ∃ d r', r = d :: r' ∧ d.free = true
  · obtain ⟨d, r', rfl, hd⟩ := hnext
    obtain ⟨fl, fr, rfl⟩ := List.append_of_mem ((hh.wf.marked d (by simp)).mp hd)
    have hm := hh.mergeWithNext (F := []) hd (hadj d rfl hd) (Or.inr hc)
    have hj := Block.join_size (hh.wf.size_lt (b := c) (by simp)) (hh.wf.size_lt (b := d) (by simp))
    have hr' : Calm ([] ++ d :: r') := hr
    refine ⟨c.join d, r', fl ++ fr, hm, rfl, hc, ?_, hr'.right, hr'.next hd, Or.inr ⟨d, rfl, hd⟩⟩
    rw [hj]
    simp [freeSize, hd]
  · have hused : ∀ d ∈ r.head?, d.free = false := by
      intro d hd
      obtain ⟨r', rfl⟩ := List.head?_eq_some_iff.mp hd
      by_contra hf
      exact hnext ⟨d, r', rfl, by simpa using hf⟩
    rw [hh.rep.mergeWithNext_none hused]
    refine ⟨c, r, fs, Moves.refl hh, rfl, hc, ?_, hr, hused, Or.inl rfl⟩
    cases r with
    | nil => rfl
    | cons d r => simp [freeSize, hused d rfl]

/-- `merge_with_prev` of a free block, whatever comes before it. -/
lemma Holds.merge_left (hh : Holds base s ⟨l ++ c :: r, fs, brk⟩) (hc : c.free = true)
    (hl : Calm l) (hadj : ∀ b ∈ l.getLast?, b.free = true → b.addr + b.size = c.addr) :
    ∃ l' c' fs', Moves base [] s ⟨l ++ c :: r, fs, brk⟩ (s.mergeWithPrev c.addr)
        ⟨l' ++ c' :: r, fs', brk⟩ ∧ c'.addr + c'.size = c.addr + c.size ∧ c'.free = true ∧
      c'.size = freeSize l.getLast? + c.size ∧ Calm l' ∧ (∀ b ∈ l'.getLast?, b.free = false) := by
  by_cases hprev : ∃ l' b, l = l' ++ [b] ∧ b.free = true
  · obtain ⟨l', b, rfl, hb⟩ := hprev
    rw [List.append_assoc, List.singleton_append] at hh ⊢
    obtain ⟨fl, fr, rfl⟩ := List.append_of_mem ((hh.wf.marked c (by simp)).mp hc)
    have hba := hadj b (by simp) hb
    have hm := hh.mergeWithPrev (F := []) hb hc hba
    have hj := Block.join_size (hh.wf.size_lt (b := b) (by simp)) (hh.wf.size_lt (b := c) (by simp))
    refine ⟨l', b.join c, fl ++ fr, hm, ?_, hb, ?_, hl.left, hl.prev hb⟩
    · rw [hj, ← hba, ← Nat.add_assoc]
      rfl
    · rw [hj]
      simp [freeSize, hb]
  · have hused : ∀ b ∈ l.getLast?, b.free = false := by
      intro b hb
      obtain ⟨l', rfl⟩ := List.getLast?_eq_some_iff.mp hb
      by_contra hf
      exact hprev ⟨l', b, rfl, by simpa using hf⟩
    rw [hh.rep.mergeWithPrev_none hused]
    refine ⟨l, c, fs, Moves.refl hh, rfl, hc, ?_, hl, hused⟩
    cases hlast : l.getLast? with
    | none => simp [freeSize]
    | some b => simp [freeSize, hused b hlast]

lemma State.releaseTail_succ (grant : Bool) (n : Nat) : State.releaseTail grant (n + 1) s =
    if s.LargeTail then State.releaseTail grant n (s.trimTail grant) else some s := rfl

/-- The loop stops at a tail that is in use, or small, or when no block is left. -/
lemma Rep.releaseTail_stop (hr : Rep s bs fs) (hsmall : SmallTail bs) (grant : Bool) (n : Nat) :
    State.releaseTail grant (n + 1) s = some s := by
  rw [State.releaseTail_succ, if_neg (State.smallTail_iff_not.mp (hr.smallTail_iff.mpr hsmall))]

/-- A round of the loop gives a block back, and the block before it is in use. -/
lemma Holds.trim_tail (hh : Holds base s h) (hcalm : Calm h.blocks)
    (htop : ∀ e ∈ h.blocks.getLast?, e.free = true → 4096 ≤ e.size → e.addr + e.size = h.brk)
    (hbig : ¬ SmallTail h.blocks) (grant : Bool) :
    ∃ h', Moves base [] s h (s.trimTail grant) h' ∧ Calm h'.blocks ∧ SmallTail h'.blocks := by
  unfold SmallTail at hbig
  push Not at hbig
  obtain ⟨c, hc, hfree, hsz⟩ := hbig
  obtain ⟨bs, fs, brk⟩ := h
  obtain ⟨l, rfl⟩ := List.getLast?_eq_some_iff.mp hc
  have hmem : c ∈ l ++ [c] := by simp
  obtain ⟨fl, fr, rfl⟩ := List.append_of_mem ((hh.wf.marked c hmem).mp hfree)
  have hprev := Calm.prev hcalm hfree
  unfold State.trimTail
  simp only
  rw [hh.rep.tail_eq_last, hh.rep.getSize_eq hmem]
  exact ⟨_, hh.trim (F := []) hfree (htop c hc hfree hsz) grant, hcalm.left,
    fun e he hf => by simp [hprev e he] at hf⟩

/-- The loop of `free` gives back at most one block. -/
lemma Holds.releaseTail (hh : Holds base s h) (hcalm : Calm h.blocks)
    (htop : ∀ e ∈ h.blocks.getLast?, e.free = true → 4096 ≤ e.size → e.addr + e.size = h.brk)
    (grant : Bool) : ∃ s' h', State.releaseTail grant addresses s = some s' ∧
      Moves base [] s h s' h' ∧ Calm h'.blocks ∧ SmallTail h'.blocks := by
  obtain ⟨n, hn⟩ : ∃ n, addresses = n + 1 + 1 := ⟨2 ^ 64 - 2, by norm_num [addresses]⟩
  rw [hn]
  by_cases hsmall : SmallTail h.blocks
  · exact ⟨s, h, hh.rep.releaseTail_stop hsmall grant (n + 1), Moves.refl hh, hcalm, hsmall⟩
  · obtain ⟨h', hm, hcalm', hsmall'⟩ := hh.trim_tail hcalm htop hsmall grant
    refine ⟨_, h', ?_, hm, hcalm', hsmall'⟩
    have hbig := mt hh.rep.smallTail_iff.mp hsmall
    rw [State.smallTail_iff_not, not_not] at hbig
    rw [State.releaseTail_succ, if_pos hbig]
    exact hm.holds.rep.releaseTail_stop hsmall' grant n

/-- The block at address `a` is not in use any more, and no large free block ends the heap. -/
structure Frees (base : Nat) (F : List Nat) (s : State) (h : Heap) (s' : State) (h' : Heap)
    (a : Nat) : Prop where
  moves : Moves base (a :: F) s h s' h'
  calm : Calm h'.blocks
  gone : ∀ b ∈ h'.blocks, b.free = false → b.addr ≠ a
  small : ∀ e ∈ h'.blocks.getLast?, e.free = true → e.size < 4096

/-- The part of `free` before its loop: the block is free, and merged with its neighbours. -/
lemma Holds.free_merge (hh : Holds base s ⟨l ++ c :: r, fs, brk⟩) (hcalm : Calm (l ++ c :: r))
    (hused : c.free = false) (htouch : Touching l c r brk) :
    ∃ s₁ h₃, s.freeBlock c.addr = some s₁ ∧ Moves base [c.addr] s ⟨l ++ c :: r, fs, brk⟩ s₁ h₃ ∧
      Calm h₃.blocks ∧ (∀ b ∈ h₃.blocks, b.free = false → b.addr ≠ c.addr) ∧
      ∀ e ∈ h₃.blocks.getLast?, e.free = true → 4096 ≤ e.size → e.addr + e.size = h₃.brk := by
  obtain ⟨s₁, hs₁, hm₁⟩ := hh.release (F := [c.addr]) hused (by simp)
  obtain ⟨c₂, r₂, fs₂, hm₂, ha₂, hf₂, hz₂, hr₂, hnext, hr⟩ :=
    hm₁.holds.merge_right rfl hcalm.right htouch.next
  obtain ⟨l₃, c₃, fs₃, hm₃, he₃, hf₃, hz₃, hl₃, hprev⟩ :=
    hm₂.holds.merge_left hf₂ hcalm.left (by rw [ha₂]; exact htouch.prev)
  have hm : Moves base [] s₁ ⟨l ++ c.release :: r, fs ++ [c.addr], brk⟩ _ _ := hm₂.trans hm₃
  rw [ha₂] at hm
  have hfree : s.freeBlock c.addr = some ((s₁.mergeWithNext c.addr).mergeWithPrev c.addr) := by
    unfold State.freeBlock
    simp only [hs₁, Option.bind_eq_bind, Option.bind_some]
  refine ⟨_, _, hfree, hm₁.trans (hm.mono (by simp)),
    calm_middle.mpr ⟨hl₃, hr₂, fun _ => ⟨hprev, hnext⟩⟩, fun b hb hbf heq => ?_, ?_⟩
  · have hb₁ := hm.evolves.fresh b hb hbf (by simp)
    have hbc := hm₁.holds.wf.addr_inj hb₁ (c := c.release) (by simp) heq
    simp [hbc, Block.release] at hbf
  · intro e he hef hesz
    simp only at he
    rw [List.getLast?_append_of_ne_nil _ (by simp)] at he
    cases r₂ with
    | nil =>
      obtain rfl : e = c₃ := by simpa using he.symm
      rw [he₃, ha₂, hz₂]
      have hz : e.size = freeSize l.getLast? + c.size + freeSize r.head? := by
        rw [hz₃, hz₂, Nat.add_assoc]
        rfl
      rw [hz] at hesz
      rcases hr with rfl | ⟨d, rfl, hd⟩
      · exact htouch.merged c (Or.inl ⟨rfl, rfl⟩) hesz
      · have h1 := htouch.merged d (Or.inr ⟨rfl, hd⟩) hesz
        have h2 := htouch.next d rfl hd
        simp only [freeSize, hd, if_true, List.head?_cons, Block.release]
        omega
    | cons d r₂ =>
      have hlast : e ∈ r.getLast? := by
        rw [List.getLast?_cons_cons] at he
        rcases hr with rfl | ⟨d', rfl, -⟩
        · exact he
        · rw [List.getLast?_cons_cons]
          exact he
      exact htouch.tail e hlast hef hesz

/-- `free` of a block in use returns, and the block is in use no more. -/
theorem Holds.free (hh : Holds base s ⟨l ++ c :: r, fs, brk⟩) (hcalm : Calm (l ++ c :: r))
    (hused : c.free = false) (htouch : Touching l c r brk) (grant : Bool) :
    ∃ s' h', s.free grant (c.addr + 32) = some s' ∧
      Frees base [] s ⟨l ++ c :: r, fs, brk⟩ s' h' c.addr := by
  obtain ⟨s₁, h₃, hs₁, hm₃, hcalm₃, hgone, htop⟩ := hh.free_merge hcalm hused htouch
  obtain ⟨s', h', hs', hm₄, hcalm', hsmall⟩ := hm₃.holds.releaseTail hcalm₃ htop grant
  refine ⟨s', h', ?_, ⟨hm₃.trans (hm₄.mono (by simp)), hcalm', fun b hb hbf => ?_, hsmall⟩⟩
  · have hne : c.addr + 32 ≠ 0 := by omega
    unfold State.free
    simp only [if_neg hne, memBlockSize, Nat.add_sub_cancel, hs₁, Option.bind_eq_bind,
      Option.bind_some, hs']
  · exact hgone b (hm₄.evolves.fresh b hb hbf (by simp)) hbf

/-! ### calloc, realloc and the writes of the program -/

/-- A write inside the payload of a block in use. -/
lemma Holds.payload (hh : Holds base s h) (hb : b ∈ h.blocks) (hused : b.free = false) {m : Mem}
    (hm : Mem.Frame b.Payload s.mem m) : Moves base [b.addr] s h { s with mem := m } h where
  holds := hh.of_mem fun x hx => hm x fun hp => hh.wf.not_meta hb hused hp.1 hp.2 hx
  evolves := Evolves.refl _ _
  frame := hm.mono fun x hx => by
    refine ⟨Or.inl ⟨b, hb, by have := hx.1; omega, hx.2⟩, fun c hc _ hca hp => hca ?_⟩
    have hne : ¬ b ≠ c := fun hne => by
      have h1 := hx.1
      have h2 := hx.2
      have h3 := hp.1
      have h4 := hp.2
      rcases hh.wf.disjoint hb hc hne with h5 | h5 <;> omega
    rw [not_not.mp hne]
    simp
  fsm := rfl

/-- A write inside the new block. -/
lemma Gives.payload (hg : Gives base F total s h s' h' b) {m : Mem}
    (hm : Mem.Frame b.Payload s'.mem m) : Gives base F total s h { s' with mem := m } h' b :=
  ⟨hg.moves.trans ((hg.moves.holds.payload hg.mem hg.used hm).mono (by simp)), hg.calm, hg.mem,
    hg.used, hg.size, hg.new⟩

lemma copyUp_apply_ne (m : Mem) (n dst src : Nat) {x : Nat} (hx : x < dst ∨ dst + n ≤ x) :
    copyUp m dst src n x = m x := by
  induction n generalizing m dst src with
  | zero => rfl
  | succ n ih =>
    rw [copyUp, ih _ _ _ (by omega)]
    exact if_neg (by omega)

lemma copyDown_apply_ne (m : Mem) (n dst src : Nat) {x : Nat} (hx : x < dst ∨ dst + n ≤ x) :
    copyDown m dst src n x = m x := by
  induction n generalizing m with
  | zero => rfl
  | succ n ih =>
    rw [copyDown, ih _ (by omega)]
    exact if_neg (by omega)

lemma memset_apply_ne (m : Mem) (dst : Nat) (v : UInt8) (n : Nat) {x : Nat}
    (hx : x < dst ∨ dst + n ≤ x) : memset m dst v n x = m x := by
  induction n with
  | zero => rfl
  | succ n ih =>
    rw [memset, ← ih (by omega)]
    exact if_neg (by omega)

lemma memset_apply (m : Mem) (dst : Nat) (v : UInt8) {n i : Nat} (hi : i < n) :
    memset m dst v n (dst + i) = v := by
  induction n with
  | zero => omega
  | succ n ih =>
    unfold memset Mem.write
    split
    · rfl
    · exact ih (by omega)

/-- `memmove` writes at most `n` bytes. -/
lemma memmove_apply_ne (m : Mem) (dst src n : Nat) {x : Nat} (hx : x < dst ∨ dst + n ≤ x) :
    memmove m dst src n x = m x := by
  have hn : (toInt n).toNat ≤ n := by
    unfold toInt
    split <;> omega
  unfold memmove
  split
  · exact copyUp_apply_ne m _ dst src (by omega)
  · exact copyDown_apply_ne m _ dst src (by omega)

/-- Copying up reads every byte before it is written, as the source lies above. -/
lemma copyUp_apply (m : Mem) {n dst src i : Nat} (hlt : dst < src) (hi : i < n) :
    copyUp m dst src n (dst + i) = m (src + i) := by
  induction n generalizing m dst src i with
  | zero => omega
  | succ n ih =>
    rw [copyUp]
    cases i with
    | zero =>
      rw [copyUp_apply_ne _ _ _ _ (Or.inl (by omega))]
      exact if_pos rfl
    | succ i =>
      have hrest := ih (m.write dst (m src)) (by omega : dst + 1 < src + 1) (by omega : i < n)
      rw [show dst + (i + 1) = dst + 1 + i by omega, hrest, show src + 1 + i = src + (i + 1) by omega]
      exact if_neg (by omega)

/-- Copying down reads every byte before it is written, as the source lies below. -/
lemma copyDown_apply (m : Mem) {n dst src i : Nat} (hle : src ≤ dst) (hi : i < n) :
    copyDown m dst src n (dst + i) = m (src + i) := by
  induction n generalizing m with
  | zero => omega
  | succ n ih =>
    rw [copyDown]
    by_cases hin : i = n
    · subst hin
      rw [copyDown_apply_ne _ _ _ _ (Or.inr (by omega))]
      exact if_pos rfl
    · rw [ih _ (by omega)]
      exact if_neg (by omega)

/-- `memmove` copies the bytes as they were, also when the two places overlap. -/
lemma memmove_apply (m : Mem) {dst src n i : Nat} (hn : n < 2 ^ 31) (hi : i < n) :
    memmove m dst src n (dst + i) = m (src + i) := by
  have htoInt : (toInt n).toNat = n := by rw [toInt_of_lt hn, Int.toNat_natCast]
  unfold memmove
  rw [htoInt]
  split
  · exact copyUp_apply m (by assumption) hi
  · exact copyDown_apply m (by omega) hi

/-- `calloc` returns NULL and changes nothing, or gives a new block whose bytes are zero. -/
theorem Holds.calloc {nmemb : Nat} (hh : Holds base s h) (hcalm : Calm h.blocks)
    (hpos : 0 < nmemb * size) (hserves : s.Serves (nmemb * size)) (grant : Bool)
    (hroom : grant = true → Fair (nmemb * size) →
      h.brk + pageSize (totalSize (nmemb * size)) < base + 2 ^ 31) :
    s.calloc grant nmemb size = some (s, 0) ∨
      ∃ s' h' b, s.calloc grant nmemb size = some (s', b.addr + 32) ∧
        Gives base [] (totalSize (nmemb * size)) s h s' h' b ∧
        (SmallTail h.blocks → SmallTail h'.blocks) ∧
        ∀ i < nmemb * size, s'.mem (b.addr + 32 + i) = 0 := by
  have hlt := hserves.lt
  have hle := le_totalSize (nmemb * size)
  have hwrap : u32 (nmemb * size) = nmemb * size := Nat.mod_eq_of_lt (by omega)
  unfold State.calloc
  rw [hwrap]
  rcases hh.malloc hcalm hpos hserves grant hroom with hs | ⟨s', h', b, hs, hg, hsmall⟩
  · left
    simp [hs]
  · right
    have hsz := hg.size
    refine ⟨{ s' with mem := memset s'.mem (b.addr + 32) 0 (nmemb * size) }, h', b, by simp [hs],
      hg.payload fun x hx => ?_, hsmall, fun i hi => memset_apply _ _ _ hi⟩
    refine memset_apply_ne _ _ _ _ ?_
    unfold Block.Payload at hx
    omega

/-- The block at address `a` now has at least `total` bytes. -/
structure Resizes (base total : Nat) (s : State) (h : Heap) (s' : State) (h' : Heap) (b : Block) :
    Prop where
  moves : Moves base [b.addr] s h s' h'
  calm : Calm h'.blocks
  mem : b ∈ h'.blocks
  used : b.free = false
  size : total ≤ b.size

/-- The free bytes that a cut of `c` leaves at the end of the heap are less than a page. -/
def SmallRest (c : Block) (r : List Block) (total : Nat) : Prop :=
  total + 48 ≤ c.size → (r = [] ∨ ∃ d, r = [d] ∧ d.free = true) →
    c.size + freeSize r.head? < total + 4096

/-- `realloc` when the block is large enough: what is cut off joins a free block after it. -/
lemma Holds.realloc_shrink (hh : Holds base s ⟨l ++ c :: r, fs, brk⟩) (hcalm : Calm (l ++ c :: r))
    (hused : c.free = false) (hsize : 0 < size) (grant : Bool) (hle : totalSize size ≤ c.size)
    (hadj : totalSize size + 48 ≤ c.size →
      ∀ d ∈ r.head?, d.free = true → c.addr + c.size = d.addr) :
    ∃ s' h' b, s.realloc grant (c.addr + 32) size = some (s', c.addr + 32) ∧ b.addr = c.addr ∧
      Resizes base (totalSize size) s ⟨l ++ c :: r, fs, brk⟩ s' h' b ∧
      (∀ x, c.addr + 32 ≤ x → x < c.addr + totalSize size → s'.mem x = s.mem x) ∧
      (SmallTail (l ++ c :: r) → SmallRest c r (totalSize size) → SmallTail h'.blocks) := by
  have hc : c ∈ l ++ c :: r := by simp
  have htotal := totalSize_ge hsize
  have hlt := hh.wf.size_lt hc
  have hne : c.addr + 32 ≠ 0 := by omega
  have hne' : size ≠ 0 := by omega
  unfold State.realloc
  simp only [if_neg hne, if_neg hne', memBlockSize, Nat.add_sub_cancel]
  rw [show u32 (32 + alignSize size) = totalSize size from totalSz_eq (by omega),
    hh.rep.getSize_eq hc, if_pos hle]
  by_cases hcut : totalSize size + 48 ≤ c.size
  · obtain ⟨s₁, s₂, hs₁, hs₂, hm, hkeep⟩ := hh.split (F := [c.addr]) hused htotal hcut (by simp)
    have hne₁ : c.addr + totalSize size ≠ 0 := by omega
    have hup : (c.upper (totalSize size)).size = c.size - totalSize size :=
      Block.upper_size hle (hh.wf.fits hc).2
    have hh₂ : Holds base s₂ ⟨(l ++ [c.lower (totalSize size)]) ++ c.upper (totalSize size) :: r,
        fs ++ [c.addr + totalSize size], brk⟩ := by simpa using hm.holds
    obtain ⟨u, r', fs', hm', hua, huf, huz, hr', hnext, hrr⟩ := hh₂.merge_right rfl hcalm.right
      fun d hd hdf => by
        rw [hup, ← hadj hcut d hd hdf]
        simp only [Block.upper]
        omega
    have hm₂ : Moves base [] s₂ ⟨l ++ c.lower (totalSize size) :: c.upper (totalSize size) :: r,
        fs ++ [c.addr + totalSize size], brk⟩ (s₂.mergeWithNext (c.addr + totalSize size))
        ⟨l ++ c.lower (totalSize size) :: u :: r', fs', brk⟩ := by
      have hm₃ : Moves base [] s₂ _ _ _ := hm'
      simp only [List.append_assoc, List.singleton_append] at hm₃
      exact hm₃
    refine ⟨s₂.mergeWithNext (c.addr + totalSize size), _, c.lower (totalSize size), ?_, rfl,
      ⟨hm.trans (hm₂.mono (by simp)), ?_, by simp, hused, le_refl _⟩, fun x h1 h2 => ?_,
      fun hsmall hrest => ?_⟩
    · simp only [hs₁, ne_eq, hne₁, not_false_eq_true, if_true, hs₂, Option.bind_eq_bind,
        Option.bind_some]
    · have hright : Calm ([] ++ u :: r') :=
        calm_middle.mpr ⟨List.IsChain.nil, hr', fun _ => ⟨by simp, hnext⟩⟩
      exact Calm.used hcalm.left hright hused
    · have hlow : c.lower (totalSize size) ∈
          l ++ c.lower (totalSize size) :: c.upper (totalSize size) :: r := by simp
      rw [hm₂.keeps hlow hused (by simp) ⟨h1, h2⟩, hkeep x ⟨h1, h2⟩]
    · by_cases hnil : r' = []
      · subst hnil
        have hlast := hrest hcut (hrr.imp (fun h => h.symm) fun h => h)
        have hu : SmallTail ((l ++ [c.lower (totalSize size)]) ++ [u]) :=
          smallTail_last.mpr fun _ => (by omega)
        simpa using hu
      · have htail : SmallTail r' := by
          rcases hrr with rfl | ⟨d, rfl, -⟩
          · rw [List.append_cons] at hsmall
            exact (smallTail_append hnil).mp hsmall
          · rw [List.append_cons, List.append_cons] at hsmall
            exact (smallTail_append hnil).mp hsmall
        have hu : SmallTail ((l ++ [c.lower (totalSize size), u]) ++ r') :=
          (smallTail_append hnil).mpr htail
        simpa using hu
  · refine ⟨s, _, c, ?_, rfl, ⟨Moves.refl hh, hcalm, hc, hused, hle⟩, fun _ _ _ => rfl,
      fun hsmall _ => hsmall⟩
    rw [hh.split_small hc hle (by omega)]
    simp

/-- `realloc` when the block grows into the free block after it. -/
lemma Holds.realloc_expand (hh : Holds base s ⟨l ++ c :: d :: r, fs, brk⟩)
    (hcalm : Calm (l ++ c :: d :: r)) (hused : c.free = false) (hd : d.free = true)
    (hsize : 0 < size) (grant : Bool) (hlt : c.size < totalSize size)
    (hle : totalSize size ≤ c.size + d.size) (hadj : c.addr + c.size = d.addr) :
    ∃ s' h' b, s.realloc grant (c.addr + 32) size = some (s', c.addr + 32) ∧ b.addr = c.addr ∧
      Resizes base (totalSize size) s ⟨l ++ c :: d :: r, fs, brk⟩ s' h' b ∧
      (∀ x, c.Payload x → s'.mem x = s.mem x) ∧
      (SmallTail (l ++ c :: d :: r) → SmallTail h'.blocks) := by
  have hc : c ∈ l ++ c :: d :: r := by simp
  have hdm : d ∈ l ++ c :: d :: r := by simp
  have htotal := totalSize_ge hsize
  have hcsz := hh.wf.size_lt hc
  have hdsz := hh.wf.size_lt hdm
  have hne : c.addr + 32 ≠ 0 := by omega
  have hne' : size ≠ 0 := by omega
  have hnext : s.nextBlock c.addr = d.addr := by simpa using hh.rep.nextBlock_eq
  have hjle : totalSize size ≤ (c.join d).size := by
    rw [Block.join_size hcsz hdsz]
    exact hle
  have hcond : s.NextServes c.addr (totalSize size) := by
    unfold State.NextServes
    rw [hnext, hh.rep.isFree_eq hdm, hh.rep.getSize_eq hdm, hh.rep.getSize_eq hc]
    refine ⟨hh.rep.ne_zero hdm, hd, ?_⟩
    rw [u32, Nat.mod_eq_of_lt (by omega)]
    exact hle
  obtain ⟨fl, fr, rfl⟩ := List.append_of_mem ((hh.wf.marked d hdm).mp hd)
  obtain ⟨hm, hkeep⟩ := hh.expand (F := [c.addr]) hused hd hadj (by simp)
  obtain ⟨s', hs', hm', hkeep'⟩ := hm.holds.splitOff (F := [c.addr]) (c := c.join d) hused htotal
    hjle (by simp [Block.join])
  have hs₂ : ((s.freeListRemove d.addr).mergeWithNext c.addr).splitOff c.addr (totalSize size) =
      some s' := hs'
  obtain ⟨b, hb, hba, hbf, hbs⟩ := Block.mem_carve (c := c.join d) hjle hused
  have hba' : b.addr = c.addr := hba
  have hmoves := hm.trans hm'
  rw [← hba'] at hmoves
  have hright : Calm ([] ++ d :: r) := hcalm.right
  refine ⟨s', _, b, ?_, hba', ⟨hmoves, ?_, by simp [hb], hbf, hbs⟩, fun x hx => ?_,
    fun hsmall => ?_⟩
  · unfold State.realloc
    simp only [if_neg hne, if_neg hne', memBlockSize, Nat.add_sub_cancel]
    rw [show u32 (32 + alignSize size) = totalSize size from totalSz_eq (by omega),
      hh.rep.getSize_eq hc, if_neg (by omega), if_pos hcond, hnext, hs₂]
    rfl
  · exact Calm.carve hcalm.left hright.right hused (Or.inr (hright.next hd))
  · have hx2 := hx.2
    rw [hkeep' x hx.1 (show x < c.addr + totalSize size by omega), hkeep x hx]
  · -- a block that has to grow leaves less of the tail than there was
    have hjs := Block.join_size hcsz hdsz
    rw [List.append_cons] at hsmall
    refine SmallTail.carve (fun e he hef => ?_) hused (by omega) fun hnil => ?_
    · refine hsmall e ?_ hef
      rw [List.getLast?_append_of_ne_nil _ (by simp)]
      exact List.mem_getLast?_cons he
    · subst hnil
      have := smallTail_last.mp hsmall hd
      omega

/-- The free block after `c`, if there is one, is too small for `c` to grow to `total` bytes. -/
def Cramped (c : Block) (r : List Block) (total : Nat) : Prop :=
  c.size < total ∧ ∀ d ∈ r.head?, d.free = true → c.size + d.size < total

/-- The copy stays inside the new block. -/
lemma Gives.copied (hg : Gives base F (totalSize size) s h s' h' b) (src old : Nat) :
    Gives base F (totalSize size) s h (s'.copyPayload (b.addr + 32) src old size) h' b := by
  refine hg.payload fun x hx => memmove_apply_ne _ _ _ _ ?_
  have h1 := le_totalSize size
  have h2 := hg.size
  have hcopy : State.copyLength old size ≤ size := by
    unfold State.copyLength
    split <;> omega
  unfold Block.Payload at hx
  omega

/-- `realloc` allocates, copies and frees when the block has to move. -/
lemma Holds.realloc_eq (hh : Holds base s ⟨l ++ c :: r, fs, brk⟩) (hsize : 0 < size)
    (hlt : totalSize size < 2 ^ 32) (hcramped : Cramped c r (totalSize size)) (grant : Bool) :
    s.realloc grant (c.addr + 32) size = (do
      let (s₁, newPtr) ← s.malloc grant size
      if newPtr = 0 then some (s₁, 0) else
      let s₃ ← (s₁.copyPayload newPtr (c.addr + 32) c.size size).free grant (c.addr + 32)
      some (s₃, newPtr)) := by
  have hc : c ∈ l ++ c :: r := by simp
  have hne : c.addr + 32 ≠ 0 := by omega
  have hne' : size ≠ 0 := by omega
  have hcond : ¬ s.NextServes c.addr (totalSize size) := by
    rintro ⟨h0, hf, hge⟩
    rw [hh.rep.getSize_eq hc] at hge
    have hnext := hh.rep.nextBlock_eq
    cases r with
    | nil => exact h0 (by simpa using hnext)
    | cons d r =>
      have hdm : d ∈ l ++ c :: d :: r := by simp
      have hnext' : s.nextBlock c.addr = d.addr := by simpa using hnext
      rw [hnext', hh.rep.isFree_eq hdm] at hf
      rw [hnext', hh.rep.getSize_eq hdm, u32] at hge
      have h1 := hcramped.2 d rfl hf
      have h2 := Nat.mod_le (c.size + d.size) (2 ^ 32)
      omega
  have hsmall := hcramped.1
  conv_lhs => unfold State.realloc
  simp only [if_neg hne, if_neg hne', memBlockSize, Nat.add_sub_cancel]
  rw [show u32 (32 + alignSize size) = totalSize size from totalSz_eq hlt,
    hh.rep.getSize_eq hc, if_neg (by omega), if_neg hcond]

/-- `realloc` when the block has to move. The block `c` is freed in the state that `malloc` and the
copy leave behind. -/
lemma Holds.realloc_move (hh : Holds base s ⟨l ++ c :: r, fs, brk⟩) (hcalm : Calm (l ++ c :: r))
    (hused : c.free = false) (hsize : 0 < size) (hserves : s.Serves size) (grant : Bool)
    (hroom : grant = true → Fair size → brk + pageSize (totalSize size) < base + 2 ^ 31)
    (hcramped : Cramped c r (totalSize size))
    (htouch : ∀ s₁ h₁ b l' r', s.malloc grant size = some (s₁, b.addr + 32) →
      Gives base [] (totalSize size) s ⟨l ++ c :: r, fs, brk⟩ s₁ h₁ b →
      h₁.blocks = l' ++ c :: r' → Touching l' c r' h₁.brk) :
    s.realloc grant (c.addr + 32) size = some (s, 0) ∨
      ∃ s₁ h₁ s' h' b, s.realloc grant (c.addr + 32) size = some (s', b.addr + 32) ∧
        Gives base [] (totalSize size) s ⟨l ++ c :: r, fs, brk⟩ s₁ h₁ b ∧
        Frees base [] s₁ h₁ s' h' c.addr ∧
        ∀ i < min size (c.size - 32), s'.mem (b.addr + 32 + i) = s.mem (c.addr + 32 + i) := by
  have hc : c ∈ l ++ c :: r := by simp
  rw [hh.realloc_eq hsize hserves.lt hcramped grant]
  rcases hh.malloc hcalm hsize hserves grant hroom with hs | ⟨s₁, h₁, b, hs, hg, -⟩
  · left
    simp [hs]
  · right
    have hca : c.addr ∉ [b.addr] := by simpa using hg.new c hc hused
    have hc₁ := hg.moves.evolves.kept c hc hused hca
    obtain ⟨bs, fs₁, brk₁⟩ := h₁
    obtain ⟨l', r', rfl⟩ := List.append_of_mem hc₁
    have hg' := hg.copied (c.addr + 32) c.size
    obtain ⟨s', h', hs', hf⟩ :=
      hg'.moves.holds.free hg.calm hused (htouch s₁ _ b l' r' hs hg rfl) grant
    refine ⟨_, _, s', h', b, ?_, hg', hf, fun i hi => ?_⟩
    · have hq : b.addr + 32 ≠ 0 := by omega
      simp only [hs, Option.bind_eq_bind, Option.bind_some, if_neg hq, hs']
    · have hcsz := hh.wf.size_lt hc
      have h48 := (hh.wf.size c hc).2
      have hlen : State.copyLength c.size size = min size (c.size - 32) := by
        unfold State.copyLength memBlockSize u32
        split <;> omega
      have h1 := le_totalSize size
      have h2 := hg.size
      rw [hf.moves.keeps hg.mem hg.used (by simpa using (hg.new c hc hused).symm)
        ⟨by omega, by omega⟩, State.copyPayload, hlen]
      simp only
      rw [memmove_apply s₁.mem (by omega) hi,
        hg.moves.keeps hc hused hca ⟨by omega, by omega⟩]

lemma cramped_iff : Cramped c r total ↔ c.size + freeSize r.head? < total := by
  unfold Cramped freeSize
  cases r with
  | nil => simp
  | cons d r =>
    cases hd : d.free with
    | false => simp [hd]
    | true =>
      simp only [List.head?_cons, Option.mem_some_iff, forall_eq', hd, if_true, true_implies]
      omega

/-- `realloc` in place, when the block and the free block after it are large enough. -/
lemma Holds.realloc_stay (hh : Holds base s ⟨l ++ c :: r, fs, brk⟩) (hcalm : Calm (l ++ c :: r))
    (hused : c.free = false) (hsize : 0 < size) (grant : Bool)
    (hcut : totalSize size + 48 ≤ c.size →
      ∀ d ∈ r.head?, d.free = true → c.addr + c.size = d.addr)
    (hgrow : c.size < totalSize size → ∀ d ∈ r.head?, d.free = true →
      totalSize size ≤ c.size + d.size → c.addr + c.size = d.addr)
    (hroomy : ¬ Cramped c r (totalSize size)) :
    ∃ s' h' b, s.realloc grant (c.addr + 32) size = some (s', c.addr + 32) ∧ b.addr = c.addr ∧
      Resizes base (totalSize size) s ⟨l ++ c :: r, fs, brk⟩ s' h' b ∧
      (∀ x, c.Payload x → x < c.addr + totalSize size → s'.mem x = s.mem x) ∧
      (SmallTail (l ++ c :: r) → SmallRest c r (totalSize size) → SmallTail h'.blocks) := by
  by_cases hle : totalSize size ≤ c.size
  · obtain ⟨s', h', b, hs', hba, hrs, hkeep, hsmall⟩ :=
      hh.realloc_shrink hcalm hused hsize grant hle hcut
    exact ⟨s', h', b, hs', hba, hrs, fun x hx => hkeep x hx.1, hsmall⟩
  · obtain ⟨d, hd, hdf, hdle⟩ : ∃ d ∈ r.head?, d.free = true ∧ totalSize size ≤ c.size + d.size := by
      by_contra hnone
      refine hroomy ⟨by omega, fun d hd hdf => ?_⟩
      by_contra hge
      exact hnone ⟨d, hd, hdf, by omega⟩
    obtain ⟨r, rfl⟩ := List.head?_eq_some_iff.mp hd
    obtain ⟨s', h', b, hs', hba, hrs, hkeep, hsmall⟩ :=
      hh.realloc_expand hcalm hused hdf hsize grant (by omega) hdle
        (hgrow (by omega) d hd hdf hdle)
    exact ⟨s', h', b, hs', hba, hrs, fun x hx _ => hkeep x hx, fun ht _ => hsmall ht⟩

/-! ### malloc_name -/

lemma copyName_apply_ne (block name k i : Nat) (m : Mem) (hx : x < block ∨ block + i + k < x) :
    State.copyName block name k i m x = m x := by
  induction k generalizing i m with
  | zero => exact if_neg (by omega)
  | succ k ih =>
    unfold State.copyName
    split
    · rw [ih _ _ (by omega)]
      exact if_neg (by omega)
    · exact if_neg (by omega)

/-- `malloc_name` writes the name of a block, and nothing else. -/
theorem Holds.mallocName (hh : Holds base s h) (hb : b ∈ h.blocks) (name : Nat) :
    Moves base F s h (s.mallocName (b.addr + 32) name) h := by
  unfold State.mallocName
  split
  · exact Moves.refl hh
  · have hm : Mem.Frame (fun x => b.addr ≤ x ∧ x < b.addr + 8) s.mem
        (State.copyName b.addr name 7 0 s.mem) := fun x hx =>
      copyName_apply_ne _ _ _ _ _ (by omega)
    rw [memBlockSize, Nat.add_sub_cancel]
    refine ⟨⟨?_, hh.wf, hh.brk⟩, Evolves.refl _ _, hm.mono fun x hx => hh.wf.scratch ?_, rfl⟩
    · refine hh.rep.of_mem rfl rfl rfl (fun c hc x h1 h2 => hm x ?_) fun a ha x h1 h2 => hm x ?_
      · have := (hh.wf.size b hb).2
        have := (hh.wf.size c hc).2
        by_cases hbc : b = c
        · subst hbc; omega
        · rcases hh.wf.disjoint hb hc hbc with h3 | h3 <;> omega
      · obtain ⟨c, hc, rfl⟩ := List.mem_map.mp (hh.wf.sub a ha)
        have := (hh.wf.size b hb).2
        have := (hh.wf.size c hc).2
        by_cases hbc : b = c
        · subst hbc; omega
        · rcases hh.wf.disjoint hb hc hbc with h3 | h3 <;> omega
    · exact Or.inl ⟨b.addr, List.mem_map_of_mem hb, hx.1, by omega⟩

end FogOS.Umalloc
