import FogOS.Kernel.UserSpace

/-!
# The memory of a child

What `uvmcopy` of `kernel/vm.c` and the memory part of `kfork` make of the address space of the
parent: copies of the heap pages, the same mmap pages, and no other page of anybody else.
-/

namespace FogOS.Kernel

open ByteMem Ledger

variable {V : Arena} {R : Multiset Nat} {k k' k₀ : Kmem} {old new pt pt' : Pagetable} {tramp tf : Nat}
  {f : Nat → Option Pte} {a : Nat}

/-! ### Copying -/

lemma uvmcopyLoop_succ {old : Pagetable} {c a : Nat} (ha : a < 2 ^ 26) (k : Kmem)
    (new : Pagetable) :
    uvmcopyLoop old (c + 1) k new (a * pgsize) = (match old.leaf a with
      | none => uvmcopyLoop old c k new ((a + 1) * pgsize)
      | some q =>
        match k.kalloc with
        | (none, k) => do
          let (k, new) ← uvmunmap k new 0 a true
          pure (false, k, new)
        | (some mem, k) => do
          let (mapped, k, new) ←
            mappages (k.setPage mem (k.page q.pa)) new (a * pgsize) pgsize mem q.perm
          if !mapped then
            let (k, new) ← uvmunmap (k.kfree mem) new 0 a true
            pure (false, k, new)
          else uvmcopyLoop old c k new ((a + 1) * pgsize)) := by
  rw [uvmcopyLoop, next_page, ← pte_page old ha, Nat.mul_div_cancel _ (by decide : 0 < pgsize)]
  rcases walk_false k old (page_lt_maxva ha) with ⟨-, hw⟩ | ⟨hnone, hw⟩
  · rw [hw]
    rfl
  · rw [hw, hnone]
    rfl

/-- The pages of `old` below `a` have been copied to `new`, which had the entries `f` and shares no
page with anybody. -/
structure Copying (V : Arena) (R : Multiset Nat) (old : Pagetable) (f : Nat → Option Pte)
    (k₀ : Kmem) (a : Nat) (k : Kmem) (new : Pagetable) : Prop where
  copied : ∀ m q, m < a → old.leaf m = some q →
    ∃ pa, new.leaf m = some (pa2pte pa q.perm) ∧ PageAddr pa ∧ k.page pa = k₀.page q.pa
  same : ∀ m, a ≤ m ∨ old.leaf m = none → new.leaf m = f m
  books : k.Books V (R + new.refs)
  nodup : new.refs.Nodup
  fresh : ∀ x ∈ R, x ∉ new.refs
  data : ∀ x ∈ R, k.page x = k₀.page x

namespace Copying

/-- There is no page to copy. -/
lemma skip (h : Copying V R old f k₀ a k new) (hq : old.leaf a = none) :
    Copying V R old f k₀ (a + 1) k new := by
  refine ⟨fun m q hm hq' => ?_, fun m hm => ?_, h.books, h.nodup, h.fresh, h.data⟩
  · have hne : m ≠ a := by
      rintro rfl
      rw [hq] at hq'
      cases hq'
    exact h.copied m q (by omega) hq'
  · refine h.same m ?_
    by_cases hma : m = a
    · exact Or.inr (hma ▸ hq)
    · exact hm.imp_left (by omega)

/-- What the child is left with when memory runs out. -/
lemma undo {k1 : Kmem} {new1 : Pagetable} (h : Copying V R old f k₀ a k new) (ha : a ≤ tfPage)
    (htr : k.Trades V k1 new.refs new1.refs) (hleaf : new1.leaf = new.leaf) :
    ∃ k' new', uvmunmap k1 new1 0 a true = .ok (k', new') ∧ k'.Books V (R + new'.refs) ∧
      new'.refs.Nodup ∧ (∀ x ∈ R, x ∉ new'.refs) ∧ (∀ x ∈ R, k'.page x = k₀.page x) ∧
      ∀ m, new'.leaf m = if m < a then none else new.leaf m := by
  have htf := tfPage_eq
  have hzero : uvmunmap k1 new1 0 a true = uvmunmap k1 new1 (0 * pgsize) a true := by rw [Nat.zero_mul]
  obtain ⟨k', new', hun⟩ := uvmunmapLoop_total (d := true) (a := 0) (c := a) (by omega) k1 new1
  have hunmapped := uvmunmapLoop_ok (V := V) hun
  have htr' := htr.trans (hunmapped.trades rfl fun m hm hlt => by omega)
  refine ⟨k', new', ?_, htr'.accounts h.books, htr'.nodup h.books h.nodup, fun x hx => ?_, fun x hx => ?_,
    fun m => ?_⟩
  · rw [hzero, uvmunmap_page (by omega), hun]
  · exact htr'.notMem h.books hx (h.fresh x hx)
  · exact (htr'.data_eq h.books hx (h.fresh x hx)).trans (h.data x hx)
  · rw [hunmapped.leaf, hleaf, cut]
    simp

/-- One more page is copied. -/
lemma cons {k1 k2 : Kmem} {new2 : Pagetable} {mem : Nat} {q : Pte}
    (h : Copying V R old f k₀ a k new) (ha : a < tfPage) (hq : old.leaf a = some q) (hqR : q.pa ∈ R)
    (hk : k.kalloc = (some mem, k1))
    (hmap : MappedPage V (k1.setPage mem (k1.page q.pa)) new a (pa2pte mem q.perm) true k2 new2) :
    Copying V R old f k₀ (a + 1) k2 new2 := by
  have htake : k.Trades V (k1.setPage mem (k1.page q.pa)) new.refs ({mem} + new.refs) :=
    Kmem.trades_take hk _ _
  have htr := htake.trans (hmap.trades_refs ha)
  have hleaf : new2.leaf = Function.update new.leaf a (some (pa2pte mem q.perm)) := hmap.leaf
  have hB := htake.accounts h.books
  have hfree : mem ∈ k.freelist := by
    rw [(Kmem.kalloc_some hk).1]
    exact List.mem_cons_self
  have hmem : mem ∉ R + new.refs := h.books.notMem_of_free hfree
  have hnotRef : mem ∉ new.refs := fun hx => hmem (Multiset.mem_add.mpr (Or.inr hx))
  have hnotR : mem ∉ R := fun hx => hmem (Multiset.mem_add.mpr (Or.inl hx))
  have hkeep : ∀ x, x = mem ∨ x ∈ userPages new.leaf →
      k2.page x = (k1.setPage mem (k1.page q.pa)).page x := by
    intro x hx
    have hB' : (k1.setPage mem (k1.page q.pa)).Books V (R + {mem} + new.refs) := by
      rw [add_assoc]
      exact hB
    refine hmap.page_eq hB' ?_ fun hnode => ?_
    · rcases hx with rfl | hx
      · simp
      · rw [Pagetable.refs]
        exact Multiset.mem_add.mpr (Or.inr (Multiset.mem_add.mpr (Or.inr hx)))
    · rcases hx with rfl | hx
      · exact hnotRef (by rw [Pagetable.refs]; exact Multiset.mem_add.mpr (Or.inl hnode))
      · have hnodup := h.nodup
        rw [Pagetable.refs, Multiset.nodup_add] at hnodup
        exact Multiset.disjoint_left.mp hnodup.2.2 hnode hx
  have hpage : ∀ x, x ≠ mem → (k1.setPage mem (k1.page q.pa)).page x = k.page x := by
    intro x hx
    have hk1 := (Kmem.kalloc_some hk).2.1
    have hset : (k1.setPage mem (k1.page q.pa)).page x = k1.page x := Function.update_of_ne hx _ _
    rw [hset, hk1]
    exact Function.update_of_ne hx _ _
  refine ⟨fun m p hm hp => ?_, fun m hm => ?_, htr.accounts h.books, htr.nodup h.books h.nodup,
    fun x hx => htr.notMem h.books hx (h.fresh x hx),
    fun x hx => (htr.data_eq h.books hx (h.fresh x hx)).trans (h.data x hx)⟩
  · by_cases hma : m = a
    · subst hma
      obtain rfl : q = p := Option.some.inj (hq.symm.trans hp)
      refine ⟨mem, by rw [hleaf, Function.update_self], V.page_addr mem (hB.subset mem (by simp)), ?_⟩
      have hwritten : (k1.setPage mem (k1.page q.pa)).page mem = k1.page q.pa := Function.update_self _ _ _
      have hne : q.pa ≠ mem := fun he => hnotR (he ▸ hqR)
      have hset : (k1.setPage mem (k1.page q.pa)).page q.pa = k1.page q.pa := Function.update_of_ne hne _ _
      rw [hkeep mem (Or.inl rfl), hwritten, ← hset, hpage q.pa hne]
      exact h.data q.pa hqR
    · obtain ⟨pa, hpa, haddr, hdata⟩ := h.copied m p (by omega) hp
      refine ⟨pa, by rw [hleaf, Function.update_of_ne hma, hpa], haddr, ?_⟩
      have hin : pa ∈ userPages new.leaf := by
        have := mem_userPages (by omega) hpa
        rwa [pa_pa2pte haddr.aligned] at this
      have hne : pa ≠ mem := by
        rintro rfl
        exact hnotRef (by rw [Pagetable.refs]; exact Multiset.mem_add.mpr (Or.inr hin))
      rw [hkeep pa (Or.inr hin), hpage pa hne, hdata]
  · have hma : m ≠ a := by
      rintro rfl
      rcases hm with hm | hm
      · omega
      · rw [hq] at hm
        cases hm
    rw [hleaf, Function.update_of_ne hma]
    exact h.same m (hm.imp_left (by omega))

end Copying

/-- The loop of `uvmcopy`: every page is copied, or none is left. -/
lemma uvmcopyLoop_ok {c : Nat} (hac : a + c ≤ tfPage)
    (hf : ∀ m, m < tfPage → f m = none) (hR : ∀ m q, m < tfPage → old.leaf m = some q → q.pa ∈ R)
    (h : Copying V R old f k₀ a k new) :
    ∃ b k' new', uvmcopyLoop old c k new (a * pgsize) = .ok (b, k', new') ∧
      k'.Books V (R + new'.refs) ∧ new'.refs.Nodup ∧ (∀ x ∈ R, x ∉ new'.refs) ∧
      (∀ x ∈ R, k'.page x = k₀.page x) ∧
      (if b then Copying V R old f k₀ (a + c) k' new' else new'.leaf = f) := by
  have htf := tfPage_eq
  induction c generalizing k new a with
  | zero => exact ⟨true, k, new, rfl, h.books, h.nodup, h.fresh, h.data, h⟩
  | succ c ih =>
    rw [uvmcopyLoop_succ (by omega)]
    -- what is unmapped after a failure was empty to begin with
    have hempty : ∀ {new' : Pagetable}, (∀ m, new'.leaf m = if m < a then none else new.leaf m) →
        new'.leaf = f := by
      intro new' hleaf
      funext m
      rw [hleaf m]
      split
      · rw [hf m (by omega)]
      · exact h.same m (Or.inl (by omega))
    have hsum : a + (c + 1) = a + 1 + c := by omega
    cases hq : old.leaf a with
    | none =>
      rw [hsum]
      exact ih (by omega) (h.skip hq)
    | some q =>
      dsimp only
      split
      · next k1 hk =>
        obtain rfl := Kmem.kalloc_none hk
        obtain ⟨k', new', hun, hB, hnodup, hfresh, hdata, hleaf⟩ :=
          h.undo (by omega) (Trade.refl _ _ _) rfl
        rw [hun]
        exact ⟨false, k', new', rfl, hB, hnodup, hfresh, hdata, hempty hleaf⟩
      · next mem k1 hk =>
        have hfree : new.leaf a = none := by rw [h.same a (Or.inl le_rfl), hf a (by omega)]
        obtain ⟨b1, k2, new2, hm⟩ := mappages_total (by omega) hfree
          (k1.setPage mem (k1.page q.pa)) mem q.perm
        obtain ⟨-, hmap⟩ := mappages_ok (V := V) hm
        rw [hm, ok_bind]
        cases b1 with
        | false =>
          have hback : k.Trades V (k2.kfree mem) new.refs new2.refs :=
            ((Kmem.trades_take hk _ _).trans (hmap.trades_of_not.frame_left {mem})).trans
              (Kmem.trades_drop V k2 mem _)
          obtain ⟨k', new', hun, hB, hnodup, hfresh, hdata, hleaf⟩ := h.undo (by omega) hback hmap.leaf
          refine ⟨false, k', new', ?_, hB, hnodup, hfresh, hdata, hempty hleaf⟩
          change (uvmunmap (k2.kfree mem) new2 0 a true >>= fun r => pure (false, r.1, r.2)) = _
          rw [hun]
          rfl
        | true =>
          rw [hsum]
          exact ih (by omega) (h.cons (by omega) hq (hR a q (by omega) hq) hk hmap)

/-- `uvmcopy` to an address space without user memory. -/
lemma uvmcopy_ok {sz : Nat} (hsz : pages sz ≤ tfPage) (hblank : Blank tramp tf new.leaf)
    (hR : ∀ m q, m < tfPage → old.leaf m = some q → q.pa ∈ R) (hB : k.Books V (R + new.refs))
    (hnodup : new.refs.Nodup) (hfresh : ∀ x ∈ R, x ∉ new.refs) :
    ∃ b k' new', uvmcopy k old new sz = .ok (b, k', new') ∧
      k'.Books V (R + new'.refs) ∧ new'.refs.Nodup ∧ (∀ x ∈ R, x ∉ new'.refs) ∧
      (∀ x ∈ R, k'.page x = k.page x) ∧
      (if b then Copying V R old new.leaf k (pages sz) k' new' else new'.leaf = new.leaf) := by
  have hstart : Copying V R old new.leaf k 0 k new :=
    ⟨fun m q hm => absurd hm (Nat.not_lt_zero m), fun m _ => rfl, hB, hnodup, hfresh, fun x _ => rfl⟩
  have hloop := uvmcopyLoop_ok (c := pages sz) (by omega) hblank.user hR hstart
  rw [Nat.zero_mul, Nat.zero_add] at hloop
  exact hloop

/-! ### The memory of a child -/

lemma userPages_window_le (f : Nat → Option Pte) (e j : Nat) :
    userPages (window f e j) ≤ userPages f := by
  rw [userPages, userPages]
  refine Finset.sum_le_sum fun m _ => ?_
  unfold window
  split
  · cases hq : f m with
    | none => exact le_rfl
    | some q =>
      have hpa : pgsize ∣ q.pa := ⟨q.ppn, Nat.mul_comm _ _⟩
      rw [Option.map_some, cell_some, cell_some, pa_pa2pte hpa]
  · exact Multiset.zero_le _

/-- What the child `new` has of the memory of `p`: copies of the heap pages, and the pages of the
mmap region. -/
structure Inherits (k₀ : Kmem) (p : Proc) (old : Pagetable) (k : Kmem) (new : Pagetable) :
    Prop where
  absent : ∀ m, m < pages p.sz → old.leaf m = none → new.leaf m = none
  copied : ∀ m q, m < pages p.sz → old.leaf m = some q →
    ∃ q', new.leaf m = some q' ∧ q'.perm = q.perm ∧ k.page q'.pa = k₀.page q.pa
  shared : p.hasMmap = true → ∀ m, p.low < m → m < tfPage → new.leaf m = old.leaf m

/-- A child `np` of `p`, beside the references `R` of everybody else. -/
structure Child (V : Arena) (R : Multiset Nat) (floor tramp : Nat) (k₀ : Kmem) (p : Proc)
    (old : Pagetable) (tf : Nat) (k : Kmem) (np : Proc) (new : Pagetable) (ntf : Nat) : Prop where
  space : Space floor tramp np new ntf
  books : k.Books V (R + np.refs)
  nodup : np.refs.Nodup
  shares : ∀ x ∈ R, x ∈ np.refs → ∃ n, p.Shares n x ∧ np.Shares n x
  inherits : Inherits k₀ p old k new
  data : ∀ x ∈ R, k.page x = k₀.page x
  regs : ∀ x < trapframeSize, k.page ntf x = (k₀.page tf).store64 tfA0 0 x

/-- Where `kfork` is in the mmap region of the parent: the heap has been copied to `new`, the
registers are there, and the pages from `j` on are shared. -/
structure Forking (V : Arena) (R : Multiset Nat) (floor tramp : Nat) (k₀ : Kmem) (p : Proc)
    (old : Pagetable) (tf ntf : Nat) (f : Nat → Option Pte) (k₁ : Kmem) (new : Pagetable) (j : Nat)
    (k : Kmem) (npt : Pagetable) : Prop where
  parent : Space floor tramp p old tf
  known : ∀ x ∈ p.refs, x ∈ R
  blank : Blank tramp ntf f
  fresh : ntf ∉ R
  copying : Copying V (R + {ntf}) old f k₀ (pages p.sz) k₁ new
  sharing : Sharing V (R + {ntf}) old new.leaf (copyTrapframe k₁ tf ntf) tfPage j k npt
  above : pages p.sz ≤ j ∧ j ≤ tfPage ∧ (j < tfPage → p.hasMmap = true ∧ p.low < j)

namespace Forking

variable {floor ntf j : Nat} {p : Proc} {k₁ : Kmem} {npt : Pagetable}

lemma leaf_new (h : Forking V R floor tramp k₀ p old tf ntf f k₁ new j k npt) {m : Nat}
    (hm : pages p.sz ≤ m) : new.leaf m = f m :=
  h.copying.same m (Or.inl hm)

lemma leaf_below (h : Forking V R floor tramp k₀ p old tf ntf f k₁ new j k npt) {m : Nat}
    (hm : m < j) : npt.leaf m = new.leaf m := by
  rw [h.sharing.leaf, overlay, window, if_neg (by omega)]
  rfl

/-- The shared entries are those of the parent. -/
lemma leaf_shared (h : Forking V R floor tramp k₀ p old tf ntf f k₁ new j k npt) {m : Nat}
    (hm : j ≤ m) (hlt : m < tfPage) : npt.leaf m = old.leaf m := by
  obtain ⟨hsz, -, hhas⟩ := h.above
  obtain ⟨hhas, hlow⟩ := hhas (by omega)
  obtain ⟨pa, hpa⟩ := h.parent.region hhas m (by omega) hlt
  have hsame : pa2pte (pa2pte pa .rwu).pa .rwu = pa2pte pa .rwu := pa2pte_pa (pa2pte pa .rwu)
  rw [h.sharing.leaf, overlay, window, if_pos ⟨hm, hlt⟩, hpa, Option.map_some, hsame]
  rfl

lemma leaf_top (h : Forking V R floor tramp k₀ p old tf ntf f k₁ new j k npt) {m : Nat}
    (hm : tfPage ≤ m) : npt.leaf m = f m := by
  have hsz := h.parent.size
  rw [h.sharing.leaf, overlay, window, if_neg (by omega), h.leaf_new (by omega)]
  rfl

lemma top (h : Forking V R floor tramp k₀ p old tf ntf f k₁ new j k npt) :
    Top tramp ntf npt.leaf :=
  h.blank.top.congr fun _ hm => h.leaf_top hm

/-- The child has copies of heap pages and shared pages. -/
lemma user (h : Forking V R floor tramp k₀ p old tf ntf f k₁ new j k npt) {m : Nat}
    (hm : m < tfPage) (hne : npt.leaf m ≠ none) : m < pages p.sz ∨ j ≤ m := by
  by_contra! hout
  rw [h.leaf_below hout.2, h.leaf_new hout.1, h.blank.user m hm] at hne
  exact hne rfl

/-- The references of the child: its own, and those to shared pages. -/
lemma refs (h : Forking V R floor tramp k₀ p old tf ntf f k₁ new j k npt) :
    npt.refs = npt.nodes + userPages new.leaf + userPages (window old.leaf tfPage j) := by
  refine h.sharing.refs fun m hm hlt => ?_
  obtain ⟨hsz, -, -⟩ := h.above
  rw [h.leaf_new (by omega), h.blank.user m hlt]

/-- Shared pages are pages of the parent. -/
lemma shared_known (h : Forking V R floor tramp k₀ p old tf ntf f k₁ new j k npt) {x : Nat}
    (hx : x ∈ userPages (window old.leaf tfPage j)) : x ∈ R := by
  refine h.known x ?_
  rw [h.parent.refs, Pagetable.refs]
  simp only [Multiset.mem_add]
  exact Or.inr (Or.inr (Multiset.mem_of_le (userPages_window_le _ _ _) hx))

lemma nodup (h : Forking V R floor tramp k₀ p old tf ntf f k₁ new j k npt) (hp : p.refs.Nodup) :
    ({ntf} + npt.refs).Nodup := by
  have hmem : ∀ x ∈ R, x ∈ R + {ntf} := fun x hx => Multiset.mem_add.mpr (Or.inl hx)
  have hself : ntf ∈ R + {ntf} := Multiset.mem_add.mpr (Or.inr (Multiset.mem_singleton_self ntf))
  have hwindow : (userPages (window old.leaf tfPage j)).Nodup := by
    rw [h.parent.refs, Pagetable.refs] at hp
    have hpages := (Multiset.nodup_add.mp (Multiset.nodup_add.mp hp).2.1).2.1
    exact Multiset.nodup_of_le (userPages_window_le _ _ _) hpages
  rw [h.refs, Multiset.singleton_add, Multiset.nodup_cons, Multiset.nodup_add]
  refine ⟨fun hntf => ?_, h.sharing.nodup, hwindow, ?_⟩
  · rcases Multiset.mem_add.mp hntf with hown | hshared
    · exact h.sharing.fresh ntf hself hown
    · exact h.fresh (h.shared_known hshared)
  · refine Multiset.disjoint_left.mpr fun {x} hown hshared => ?_
    exact h.sharing.fresh x (hmem x (h.shared_known hshared)) hown

/-- What the child has in common with the others are mmap pages of the parent. -/
lemma shares (h : Forking V R floor tramp k₀ p old tf ntf f k₁ new j k npt) {x : Nat}
    (hx : x ∈ R) (hmem : x ∈ {ntf} + npt.refs) :
    ∃ n, j ≤ n ∧ n < tfPage ∧ p.Shares n x ∧ npt.leaf n = some (pa2pte x .rwu) := by
  have hx' : x ∈ R + {ntf} := Multiset.mem_add.mpr (Or.inl hx)
  rw [h.refs] at hmem
  simp only [Multiset.mem_add, Multiset.mem_singleton] at hmem
  have hshared : x ∈ userPages (window old.leaf tfPage j) := by
    rcases hmem with rfl | hown | hshared
    · exact absurd hx h.fresh
    · exact absurd (Multiset.mem_add.mpr hown) (h.sharing.fresh x hx')
    · exact hshared
  obtain ⟨n, q, hn, hq, rfl⟩ := exists_of_mem_userPages hshared
  unfold window at hq
  split at hq
  · next hwin =>
    obtain ⟨q', hq', rfl⟩ := Option.map_eq_some_iff.mp hq
    obtain ⟨hhas, hlow⟩ := h.above.2.2 (by omega)
    obtain ⟨pa, hpa⟩ := h.parent.region hhas n (by omega) hn
    obtain rfl : q' = pa2pte pa .rwu := Option.some.inj (hq'.symm.trans hpa)
    have hsame : pa2pte (pa2pte (pa2pte pa .rwu).pa .rwu).pa .rwu = pa2pte pa .rwu := by
      rw [show pa2pte (pa2pte pa .rwu).pa .rwu = pa2pte pa .rwu from pa2pte_pa (pa2pte pa .rwu)]
      exact pa2pte_pa (pa2pte pa .rwu)
    refine ⟨n, hwin.1, hn, ⟨hhas, by omega, hn, old, h.parent.pagetable, ?_⟩, ?_⟩
    · rw [hsame, hpa]
    · rw [hsame, h.leaf_shared hwin.1 hn, hpa]
  · cases hq

/-- The pages outside the trapframe of the child are as they were when the heap had been copied. -/
lemma page_eq (h : Forking V R floor tramp k₀ p old tf ntf f k₁ new j k npt) {x : Nat}
    (hx : x ∈ R ∨ x ∈ userPages new.leaf) : k.page x = k₁.page x := by
  have hself : ntf ∈ R + {ntf} := Multiset.mem_add.mpr (Or.inr (Multiset.mem_singleton_self ntf))
  have hne : x ≠ ntf := by
    rintro rfl
    refine hx.elim h.fresh fun hpage => h.sharing.fresh x hself ?_
    exact Multiset.mem_add.mpr (Or.inr hpage)
  refine (h.sharing.data x (hx.imp_left fun hR => Multiset.mem_add.mpr (Or.inl hR))).trans ?_
  exact Function.update_of_ne hne _ _

lemma data (h : Forking V R floor tramp k₀ p old tf ntf f k₁ new j k npt) {x : Nat} (hx : x ∈ R) :
    k.page x = k₀.page x :=
  (h.page_eq (Or.inl hx)).trans (h.copying.data x (Multiset.mem_add.mpr (Or.inl hx)))

lemma regs (h : Forking V R floor tramp k₀ p old tf ntf f k₁ new j k npt) {x : Nat}
    (hx : x < trapframeSize) : k.page ntf x = (k₀.page tf).store64 tfA0 0 x := by
  have hself : ntf ∈ R + {ntf} := Multiset.mem_add.mpr (Or.inr (Multiset.mem_singleton_self ntf))
  have htf : tf ∈ R := by
    refine h.known tf ?_
    rw [h.parent.refs]
    exact Multiset.mem_add.mpr (Or.inl (Multiset.mem_singleton_self tf))
  have hpage : k₁.page tf = k₀.page tf := h.copying.data tf (Multiset.mem_add.mpr (Or.inl htf))
  have hcopy : (copyTrapframe k₁ tf ntf).page ntf = Mem.store64
      (fun x => if x < trapframeSize then k₁.page tf x else k₁.page ntf x) tfA0 0 :=
    Function.update_self _ _ _
  rw [h.sharing.data ntf (Or.inl hself), hcopy]
  unfold Mem.store64
  dsimp only
  rw [if_pos hx, hpage]

lemma inherits (h : Forking V R floor tramp k₀ p old tf ntf f k₁ new j k npt)
    (hj : p.hasMmap = true → j = p.low + 1) : Inherits k₀ p old k npt where
  absent m hm hnone := by
    obtain ⟨hsz, hlt, -⟩ := h.above
    rw [h.leaf_below (by omega), h.copying.same m (Or.inr hnone), h.blank.user m (by omega)]
  copied m q hm hq := by
    obtain ⟨pa, hpa, haddr, hdata⟩ := h.copying.copied m q hm hq
    obtain ⟨hsz, hlt, -⟩ := h.above
    have hin := mem_userPages (by omega) hpa
    refine ⟨pa2pte pa q.perm, ?_, rfl, ?_⟩
    · rw [h.leaf_below (by omega), hpa]
    · rw [h.page_eq (Or.inr hin), pa_pa2pte haddr.aligned, hdata]
  shared hhas m hlow hm := h.leaf_shared (by have := hj hhas; omega) hm

lemma child (h : Forking V R floor tramp k₀ p old tf ntf f k₁ new j k npt) {np : Proc}
    (hp : p.refs.Nodup) (hj : j = if p.hasMmap then p.low + 1 else tfPage)
    (hpt : np.pagetable = some npt) (htf : np.trapframe = some ntf) (hsz : np.sz = p.sz)
    (hhas : np.hasMmap = p.hasMmap) (hmmap : np.mmap = if p.hasMmap then p.mmap else 0) :
    Child V R floor tramp k₀ p old tf k np npt ntf := by
  have hsize := h.parent.size
  have hrefs : np.refs = {ntf} + npt.refs := Proc.refs_some hpt htf
  have hlow : p.hasMmap = true → np.low = p.low := by
    intro hhas'
    rw [Proc.low, Proc.low, hmmap, if_pos hhas']
  have hinh := h.inherits fun hhas' => by rw [hj, if_pos hhas']
  refine ⟨⟨hpt, htf, h.top, ?_, ?_, ?_, ?_, ?_, ?_, ?_⟩, ?_, ?_, ?_, hinh, fun x => h.data, fun x => h.regs⟩
  · rwa [hsz]
  · intro m hfloor hm
    rw [hsz] at hm
    obtain ⟨q, hq⟩ := Option.ne_none_iff_exists'.mp (h.parent.heap m hfloor hm)
    obtain ⟨q', hq', -⟩ := hinh.copied m q hm hq
    simp [hq']
  · rw [Proc.low, hmmap]
    split
    · exact h.parent.aligned
    · rfl
  · intro hhas'
    rw [hsz, hlow (hhas ▸ hhas')]
    exact h.parent.apart (hhas ▸ hhas')
  · intro hhas' m hm hlt
    rw [hhas] at hhas'
    rw [hlow hhas'] at hm
    rw [hinh.shared hhas' m hm hlt]
    exact h.parent.region hhas' m hm hlt
  · intro m hm hne
    rw [hsz, hhas]
    refine (h.user hm hne).imp_right fun hjm => ?_
    obtain ⟨hhas', -⟩ := h.above.2.2 (by omega)
    rw [if_pos hhas'] at hj
    exact ⟨hhas', by rw [hlow hhas']; omega⟩
  · intro hhas'
    rw [hhas] at hhas'
    rw [hmmap, hhas']
    exact Or.inl rfl
  · rw [hrefs, ← add_assoc]
    exact h.sharing.books
  · rw [hrefs]
    exact h.nodup hp
  · intro x hx hmem
    rw [hrefs] at hmem
    obtain ⟨n, hjn, hn, hshares, hleaf⟩ := h.shares hx hmem
    refine ⟨n, hshares, ?_, ?_, hn, npt, hpt, hleaf⟩
    · rw [hhas]
      exact hshares.1
    · rw [hlow hshares.1]
      exact hshares.2.1

/-- A child that is not finished can be freed. -/
lemma freeable (h : Forking V R floor tramp k₀ p old tf ntf f k₁ new j k npt) (np : Proc)
    (hpt : np.pagetable = some npt) (htf : np.trapframe = some ntf) (hsz : np.sz = p.sz)
    (hhas : np.hasMmap = p.hasMmap) (hmmap : np.mmap = p.mmap) : Freeable tramp np npt ntf := by
  have hlow : np.low = p.low := by rw [Proc.low, Proc.low, hmmap]
  refine ⟨hpt, htf, h.top, hsz ▸ h.parent.size, fun hhas' => ?_, fun m q hm hq => ?_⟩
  · obtain ⟨hle, hlt⟩ := h.parent.apart (hhas ▸ hhas')
    rw [hsz, hlow]
    exact ⟨hle, by omega⟩
  · rw [hsz, hhas, hlow]
    have hne : npt.leaf m ≠ none := by simp [hq]
    refine (h.user hm hne).imp_right fun hjm => ?_
    obtain ⟨hhas', hlow'⟩ := h.above.2.2 (by omega)
    obtain ⟨pa, hpa⟩ := h.parent.region hhas' m (by omega) hm
    rw [h.leaf_shared hjm hm, hpa] at hq
    cases hq
    refine ⟨hhas', by omega, rfl, ?_⟩
    have hmem : (pa2pte pa .rwu).pa ∈ old.refs := mem_refs hm hpa
    have hknown : (pa2pte pa .rwu).pa ∈ R := by
      refine h.known _ ?_
      rw [h.parent.refs]
      exact Multiset.mem_add.mpr (Or.inr hmem)
    have hall : (pa2pte pa .rwu).pa ∈ R + {ntf} + npt.refs :=
      Multiset.mem_add.mpr (Or.inl (Multiset.mem_add.mpr (Or.inl hknown)))
    exact (V.page_addr _ (h.sharing.books.subset _ hall)).ne_zero

end Forking

/-- The heap has been copied and no page is shared yet. -/
lemma Copying.forking {floor ntf : Nat} {p : Proc} (h : Copying V (R + {ntf}) old f k₀ (pages p.sz) k new)
    (hp : Space floor tramp p old tf) (hknown : ∀ x ∈ p.refs, x ∈ R) (hblank : Blank tramp ntf f)
    (hfresh : ntf ∉ R) :
    Forking V R floor tramp k₀ p old tf ntf f k new tfPage (copyTrapframe k tf ntf) new := by
  have hwindow : window old.leaf tfPage tfPage = fun _ => none := by
    funext m
    exact if_neg (by omega)
  refine ⟨hp, hknown, hblank, hfresh, h, ⟨?_, ?_, ?_, ?_, fun x _ => rfl⟩, hp.size, le_rfl,
    fun hlt => absurd hlt (lt_irrefl _)⟩
  · rw [hwindow]
    rfl
  · exact h.books.congr rfl fun _ _ => rfl
  · rw [← Pagetable.refs]
    exact h.nodup
  · rw [← Pagetable.refs]
    exact h.fresh

lemma Blank.freeable {np : Proc} (h : Blank tramp tf pt.leaf) (hpt : np.pagetable = some pt)
    (htf : np.trapframe = some tf) (hsz : np.sz = 0) (hhas : np.hasMmap = false) :
    Freeable tramp np pt tf := by
  refine ⟨hpt, htf, h.top, ?_, fun hhas' => ?_, fun m q hm hq => ?_⟩
  · rw [hsz]
    exact Nat.zero_le _
  · rw [hhas] at hhas'
    cases hhas'
  · rw [h.user m hm] at hq
    cases hq

/-- The slot `np` is given up. -/
lemma freeproc_books {np : Proc} (h : Reclaimable tramp np pt tf) (hB : k.Books V (R + np.refs)) :
    ∃ k', freeproc k np = .ok (k', np.cleared) ∧ k'.Books V R ∧ ∀ x ∈ R, x ∉ np.refs → k'.page x = k.page x := by
  obtain ⟨k', hfree, htr⟩ := freeproc_total h k
  have hB' := (htr V).accounts hB
  rw [add_zero] at hB'
  exact ⟨k', hfree, hB', fun x hx hnot => (htr V).data_eq hB hx hnot⟩

namespace Forking

variable {floor ntf j : Nat} {p : Proc} {k₁ : Kmem} {npt : Pagetable}

/-- A user page of the parent is known to others than the child. -/
lemma leaf_known (h : Forking V R floor tramp k₀ p old tf ntf f k₁ new j k npt) {m : Nat} {q : Pte}
    (hm : m < tfPage) (hq : old.leaf m = some q) : q.pa ∈ R := by
  refine h.known _ ?_
  rw [h.parent.refs]
  exact Multiset.mem_add.mpr (Or.inr (mem_refs hm hq))

/-- The loop of `kfork` over the mmap region. -/
lemma share (h : Forking V R floor tramp k₀ p old tf ntf f k₁ new tfPage k npt)
    (hhas : p.hasMmap = true) :
    ∃ b k' npt' j, shareMmapLoop old (mmapRounds p.mmap) k npt (trapframeVa - pgsize) =
        .ok (b, k', npt') ∧ (b = true → j = p.low + 1) ∧
      Forking V R floor tramp k₀ p old tf ntf f k₁ new j k' npt' := by
  obtain ⟨hle, hlow⟩ := h.parent.apart hhas
  have hsum : p.low + 1 + (tfPage - 1 - p.low) = tfPage := by omega
  have hseen : Seen old.leaf (p.low + 1) (tfPage - 1 - p.low) := by
    intro m q ham hmc hq
    obtain ⟨pa, hpa⟩ := h.parent.region hhas m (by omega) (by omega)
    obtain rfl : q = pa2pte pa .rwu := Option.some.inj (hq.symm.trans hpa)
    have hmem : (pa2pte pa .rwu).pa ∈ R + {ntf} + npt.refs := by
      simp only [Multiset.mem_add]
      exact Or.inl (Or.inl (h.leaf_known (by omega) hpa))
    exact ⟨rfl, (V.page_addr _ (h.sharing.books.subset _ hmem)).ne_zero⟩
  have hempty : ∀ m, p.low + 1 ≤ m → m < tfPage → new.leaf m = none := by
    intro m hm hlt
    rw [h.leaf_new (by omega), h.blank.user m hlt]
  have hknown : ∀ m q, p.low + 1 ≤ m → m < p.low + 1 + (tfPage - 1 - p.low) → old.leaf m = some q →
      q.pa ∈ R + {ntf} :=
    fun m q _ hlt hq => Multiset.mem_add.mpr (Or.inl (h.leaf_known (by omega) hq))
  have hsh : Sharing V (R + {ntf}) old new.leaf (copyTrapframe k₁ tf ntf) tfPage
      (p.low + 1 + (tfPage - 1 - p.low)) k npt := by
    rw [hsum]
    exact h.sharing
  obtain ⟨b, k', npt', j, hloop, hlj, hjt, hb, hsh'⟩ :=
    shareMmapLoop_ok hsum.le le_rfl hseen hempty hknown hsh
  refine ⟨b, k', npt', j, ?_, hb, h.parent, h.known, h.blank, h.fresh, h.copying, hsh', by omega,
    by omega, fun _ => ⟨hhas, by omega⟩⟩
  rw [mmapRounds_eq, trapframeVa_eq]
  rwa [hsum] at hloop

end Forking

/-- The memory part of `kfork`, to a slot as `allocproc` returns it. -/
lemma forkMemory_total {floor ntf : Nat} {p np : Proc} {npt : Pagetable}
    (hp : Space floor tramp p old tf) (hknown : ∀ x ∈ p.refs, x ∈ R) (hnodup : p.refs.Nodup)
    (hpt : np.pagetable = some npt) (hntf : np.trapframe = some ntf)
    (hblank : Blank tramp ntf npt.leaf) (hsz : np.sz = 0) (hhas : np.hasMmap = false)
    (hmmap : np.mmap = 0) (hB : k.Books V (R + np.refs)) (hnodup' : np.refs.Nodup)
    (hfresh : ∀ x ∈ R, x ∉ np.refs) :
    ∃ b k' np', forkMemory k p np = .ok (b, k', np') ∧
      if b then ∃ npt', Child V R floor tramp k p old tf k' np' npt' ntf ∧
        np' = { np with pagetable := some npt', sz := p.sz, mmap := if p.hasMmap then p.mmap else 0, hasMmap := p.hasMmap }
      else k'.Books V R ∧ np' = { np with mmap := np'.mmap }.cleared := by
  rw [Proc.refs_some hpt hntf] at hB hnodup' hfresh
  have hntfR : ntf ∉ R := fun hx =>
    hfresh ntf hx (Multiset.mem_add.mpr (Or.inl (Multiset.mem_singleton_self ntf)))
  rw [Multiset.singleton_add, Multiset.nodup_cons] at hnodup'
  rw [← add_assoc] at hB
  have hfresh' : ∀ x ∈ R + {ntf}, x ∉ npt.refs := by
    intro x hx hmem
    rcases Multiset.mem_add.mp hx with hx | hx
    · exact hfresh x hx (Multiset.mem_add.mpr (Or.inr hmem))
    · rw [Multiset.mem_singleton] at hx
      exact hnodup'.1 (hx ▸ hmem)
  have hleaves : ∀ m q, m < tfPage → old.leaf m = some q → q.pa ∈ R + {ntf} := by
    intro m q hm hq
    refine Multiset.mem_add.mpr (Or.inl (hknown _ ?_))
    rw [hp.refs]
    exact Multiset.mem_add.mpr (Or.inr (mem_refs hm hq))
  obtain ⟨b, k1, npt1, hcopy, hB1, -, -, -, hb⟩ :=
    uvmcopy_ok hp.size hblank hleaves hB hnodup'.2 hfresh'
  unfold forkMemory
  rw [hp.pagetable, hpt]
  change ∃ b k' np', (uvmcopy k old npt p.sz >>= _) = _ ∧ _
  rw [hcopy, ok_bind]
  cases b with
  | false =>
    rw [if_neg (by simp)] at hb
    have hfree : Freeable tramp { np with pagetable := some npt1 } npt1 ntf :=
      Blank.freeable (hb ▸ hblank) rfl hntf hsz hhas
    rw [add_assoc, ← Proc.refs_some (p := { np with pagetable := some npt1 }) rfl hntf] at hB1
    obtain ⟨k2, hok, hB2, -⟩ := freeproc_books hfree.reclaimable hB1
    refine ⟨false, k2, { np with pagetable := some npt1 }.cleared, ?_, hB2, rfl⟩
    change (freeproc k1 { np with pagetable := some npt1 } >>= fun r => pure (false, r.1, r.2)) = _
    rw [hok]
    rfl
  | true =>
    rw [if_pos rfl] at hb
    have hstart := hb.forking hp hknown hblank hntfR
    dsimp only
    rw [if_neg (by simp), hp.trapframe, hntf]
    change ∃ b k' np', (if p.hasMmap = true then _ else _) = _ ∧ _
    by_cases hhasp : p.hasMmap = true
    · obtain ⟨b, k2, npt2, j, hloop, hbj, hforking⟩ := hstart.share hhasp
      rw [if_pos hhasp]
      rw [hloop, ok_bind]
      cases b with
      | false =>
        have hfree := hforking.freeable ({ np with sz := p.sz, mmap := p.mmap, hasMmap := true, pagetable := some npt2, trapframe := some ntf }) rfl rfl rfl hhasp.symm rfl
        have hB2 := hforking.sharing.books
        rw [add_assoc, ← Proc.refs_some hfree.pagetable hfree.trapframe] at hB2
        obtain ⟨k3, hok, hB3, -⟩ := freeproc_books hfree.reclaimable hB2
        refine ⟨false, k3, { np with sz := p.sz, mmap := p.mmap, hasMmap := true, pagetable := some npt2, trapframe := some ntf }.cleared, ?_, hB3, rfl⟩
        change (freeproc k2 _ >>= fun r => pure (false, r.1, r.2)) = _
        rw [hok]
        rfl
      | true =>
        refine ⟨true, k2, _, rfl, npt2, hforking.child hnodup ?_ rfl rfl rfl hhasp.symm ?_, ?_⟩
        · rw [if_pos hhasp, hbj rfl]
        · rw [if_pos hhasp]
        · rw [if_pos hhasp, hhasp]
    · rw [if_neg hhasp]
      rw [Bool.not_eq_true] at hhasp
      refine ⟨true, _, _, rfl, npt1, hstart.child hnodup ?_ rfl rfl rfl ?_ ?_, ?_⟩
      · rw [hhasp]
        rfl
      · rw [hhasp]
        exact hhas
      · rw [hhasp]
        exact hmmap
      · rw [hhasp, hhas, hmmap]
        rfl

end FogOS.Kernel
