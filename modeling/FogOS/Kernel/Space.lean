import FogOS.Kernel.Vm

/-!
# What an address space owns

A user page table refers to the pages it consists of and to the user pages mapped below
`TRAPFRAME`; the trampoline and trapframe pages above belong to others. Every function of
`kernel/vm.c` exchanges the references of the tables it is given for those of the tables it
returns, and changes the map of page numbers to leaves as described here.
-/

namespace FogOS.Kernel

open ByteMem Ledger

/-- The page number of `TRAPFRAME`. -/
@[irreducible] def tfPage : Nat := 2 ^ 26 - 2

lemma tfPage_eq : tfPage = 67108862 := by
  unfold tfPage
  norm_num

/-- The reference an entry holds. -/
def cell (v : Option Pte) : Multiset Nat := v.elim 0 fun q => {q.pa}

@[simp] lemma cell_none : cell none = 0 := rfl
@[simp] lemma cell_some (q : Pte) : cell (some q) = {q.pa} := rfl

/-- The references of the user pages of a map. -/
@[irreducible] noncomputable def userPages (f : Nat → Option Pte) : Multiset Nat := ∑ n ∈ Finset.range tfPage, cell (f n)

/-- The references a page table holds. -/
@[irreducible] noncomputable def Pagetable.refs (pt : Pagetable) : Multiset Nat := pt.nodes + userPages pt.leaf

section UserPages

variable {f : Nat → Option Pte} {n : Nat}

/-- The pages of a map are that of one entry and others. -/
lemma exists_userPages (f : Nat → Option Pte) (hn : n < tfPage) :
    ∃ rest, ∀ v, userPages (Function.update f n v) = cell v + rest := by
  refine ⟨∑ m ∈ (Finset.range tfPage).erase n, cell (f m), fun v => ?_⟩
  have hothers : ∑ m ∈ (Finset.range tfPage).erase n, cell (Function.update f n v m) =
      ∑ m ∈ (Finset.range tfPage).erase n, cell (f m) := by
    refine Finset.sum_congr rfl fun m hm => ?_
    rw [Function.update_of_ne (Finset.ne_of_mem_erase hm)]
  rw [userPages, ← Finset.add_sum_erase _ _ (Finset.mem_range.mpr hn), hothers,
    Function.update_self]

/-- An entry that was empty is set. -/
lemma userPages_set (hn : n < tfPage) (hf : f n = none) (v : Option Pte) :
    userPages (Function.update f n v) = cell v + userPages f := by
  obtain ⟨rest, hrest⟩ := exists_userPages f hn
  have hold := hrest none
  rw [← hf, Function.update_eq_self, hf, cell_none, zero_add] at hold
  rw [hrest, hold]

/-- An entry is cleared. -/
lemma userPages_clear (hn : n < tfPage) :
    userPages f = cell (f n) + userPages (Function.update f n none) := by
  obtain ⟨rest, hrest⟩ := exists_userPages f hn
  have hold := hrest (f n)
  rw [Function.update_eq_self] at hold
  rw [hrest none, cell_none, zero_add, hold]

/-- The entries from `TRAPFRAME` on do not count. -/
lemma userPages_above (hn : tfPage ≤ n) (v : Option Pte) :
    userPages (Function.update f n v) = userPages f := by
  unfold userPages
  refine Finset.sum_congr rfl fun m hm => ?_
  have hlt := Finset.mem_range.mp hm
  rw [Function.update_of_ne (by omega)]

lemma mem_userPages {q : Pte} (hn : n < tfPage) (h : f n = some q) : q.pa ∈ userPages f := by
  rw [userPages_clear hn, h, cell_some]
  exact Multiset.mem_add.mpr (Or.inl (Multiset.mem_singleton_self q.pa))

lemma exists_of_mem_userPages {x : Nat} (h : x ∈ userPages f) :
    ∃ m q, m < tfPage ∧ f m = some q ∧ q.pa = x := by
  rw [userPages, Multiset.mem_sum] at h
  obtain ⟨m, hm, hx⟩ := h
  cases hq : f m with
  | none =>
    rw [hq, cell_none] at hx
    exact absurd hx (Multiset.notMem_zero x)
  | some q =>
    rw [hq, cell_some, Multiset.mem_singleton] at hx
    exact ⟨m, q, Finset.mem_range.mp hm, hq, hx.symm⟩

/-- No page is mapped twice. -/
lemma userPages_inj {m : Nat} {q q' : Pte} (h : (userPages f).Nodup) (hn : n < tfPage)
    (hm : m < tfPage) (hq : f n = some q) (hq' : f m = some q') (heq : q.pa = q'.pa) : n = m := by
  by_contra hne
  rw [userPages_clear hn, hq, cell_some, Multiset.singleton_add, Multiset.nodup_cons] at h
  have hother : Function.update f n none m = some q' := by
    rw [Function.update_of_ne (Ne.symm hne), hq']
  refine h.1 ?_
  rw [heq]
  exact mem_userPages hm hother

end UserPages

section

variable {V : Arena} {k k' : Kmem} {pt pt' : Pagetable} {n pa : Nat} {perm : Perm} {b : Bool}

/-! ### Looking up -/

lemma page_lt_maxva (hn : n < 2 ^ 26) : n * pgsize < maxva := by
  simp only [pgsize, maxva]
  omega

lemma page_lt_of_maxva (h : n * pgsize < maxva) : n < 2 ^ 26 := by
  simp only [pgsize, maxva] at h
  omega

lemma pte_page (pt : Pagetable) (hn : n < 2 ^ 26) : pt.pte (n * pgsize) = pt.leaf n := by
  rw [Pagetable.pte_of_va pt (page_lt_maxva hn), Nat.mul_div_cancel _ (by decide)]

/-- What `walkaddr` finds. -/
lemma walkaddr_page (k : Kmem) (pt : Pagetable) (hn : n < 2 ^ 26) :
    walkaddr k pt (n * pgsize) =
      .ok ((pt.leaf n).elim 0 fun q => if q.perm.u then q.pa else 0) := by
  have hva := page_lt_maxva hn
  unfold walkaddr
  rw [if_neg (by omega)]
  rcases walk_false k pt hva with ⟨-, hw⟩ | ⟨hnone, hw⟩
  · rw [hw, ← pte_page pt hn, ok_bind]
    dsimp only
    rw [if_neg (by simp)]
    cases pt.pte (n * pgsize) with
    | none => rfl
    | some q => cases hu : q.perm.u <;> simp [hu, pure, Except.pure]
  · rw [hw, ← pte_page pt hn, hnone]
    rfl

lemma ismapped_page (k : Kmem) (pt : Pagetable) (hn : n < 2 ^ 26) :
    ismapped k pt (n * pgsize) = .ok (pt.leaf n).isSome := by
  unfold ismapped
  rcases walk_false k pt (page_lt_maxva hn) with ⟨-, hw⟩ | ⟨hnone, hw⟩
  · rw [hw, ← pte_page pt hn]
    rfl
  · rw [hw, ← pte_page pt hn, hnone]
    rfl

/-! ### Mapping one page -/

/-- `mappages` of one page is one round of its loop. -/
lemma mappages_page (k : Kmem) (pt : Pagetable) (n pa : Nat) (perm : Perm) :
    mappages k pt (n * pgsize) pgsize pa perm = (do
      let (found, k, pt) ← walk k pt (n * pgsize) true
      if !found then pure (false, k, pt)
      else if (pt.pte (n * pgsize)).isSome then throw (.panic .mappagesRemap)
      else pure (true, k, pt.setPte (n * pgsize) (some (pa2pte pa perm)))) := by
  have h1 : ¬ n * pgsize % pgsize ≠ 0 := by simp [Nat.mul_mod_left]
  rw [mappages, if_neg h1, if_neg (by decide), if_neg (by decide)]
  rfl

/-- What `mappages` does to the map: on success the page was not mapped and is mapped now. -/
structure MappedPage (V : Arena) (k : Kmem) (pt : Pagetable) (n : Nat) (q : Pte) (b : Bool)
    (k' : Kmem) (pt' : Pagetable) : Prop where
  trades : k.Trades V k' pt.nodes pt'.nodes
  fresh : b = true → pt.leaf n = none
  leaf : pt'.leaf = if b then Function.update pt.leaf n (some q) else pt.leaf
  free : k'.freelist.length ≤ k.freelist.length

lemma mappages_ok (h : mappages k pt (n * pgsize) pgsize pa perm = .ok (b, k', pt')) :
    n < 2 ^ 26 ∧ MappedPage V k pt n (pa2pte pa perm) b k' pt' := by
  rw [mappages_page] at h
  obtain ⟨⟨found, k1, pt1⟩, hw, h⟩ := bind_ok h
  obtain ⟨hva, hwalk⟩ := walked_walk (V := V) hw
  have hn := page_lt_of_maxva hva
  refine ⟨hn, ?_⟩
  cases found with
  | false =>
    cases h
    exact ⟨hwalk.trades, by simp, by simp [hwalk.leaf], hwalk.free⟩
  | true =>
    obtain ⟨hnone, h⟩ := guard_ok h
    cases h
    have hleaf : pt1.leaf n = none := by
      rw [pte_page pt1 hn] at hnone
      simpa using hnone
    rw [hwalk.leaf] at hleaf
    refine ⟨?_, fun _ => hleaf, ?_, hwalk.free⟩
    · rw [Pagetable.nodes_setPte]
      exact hwalk.trades
    · rw [Pagetable.leaf_setPte (hwalk.reaches rfl) (by omega), hwalk.leaf, if_pos rfl]

lemma mappages_total (hn : n < 2 ^ 26) (hfree : pt.leaf n = none) (k : Kmem) (pa : Nat)
    (perm : Perm) : ∃ b k' pt', mappages k pt (n * pgsize) pgsize pa perm = .ok (b, k', pt') := by
  rw [mappages_page]
  obtain ⟨found, k1, pt1, hw⟩ := walk_total (page_lt_maxva hn) k pt true
  obtain ⟨-, hwalk⟩ := walked_walk (V := ⟨∅, by simp⟩) hw
  rw [hw]
  cases found with
  | false => exact ⟨_, _, _, rfl⟩
  | true =>
    refine ⟨true, k1, pt1.setPte (n * pgsize) (some (pa2pte pa perm)), ?_⟩
    have hnone : pt1.pte (n * pgsize) = none := by
      rw [pte_page pt1 hn, hwalk.leaf, hfree]
    change (if (pt1.pte (n * pgsize)).isSome then _ else _) = _
    rw [hnone]
    rfl

/-- A page that is mapped cannot be mapped again. -/
lemma mappages_remap {q : Pte} (hn : n < 2 ^ 26) (hq : pt.leaf n = some q) (k : Kmem) (pa : Nat)
    (perm : Perm) :
    mappages k pt (n * pgsize) pgsize pa perm = .error (.panic .mappagesRemap) := by
  have hpte : pt.pte (n * pgsize) = some q := (pte_page pt hn).trans hq
  rw [mappages_page, walk_of_reaches k (page_lt_maxva hn) (Pagetable.reaches_of_leaf hpte), ok_bind]
  dsimp only
  rw [if_neg (by simp), hpte]
  rfl

/-- A page the code holds is mapped: the page table holds it from now on. -/
lemma MappedPage.trades_refs (h : MappedPage V k pt n (pa2pte pa perm) true k' pt')
    (hn : n < tfPage) : k.Trades V k' ({pa} + pt.refs) pt'.refs := by
  intro R hR
  have hpa : pgsize ∣ pa := (V.page_addr pa (hR.subset pa (by simp))).aligned
  have href : pt'.refs = pt'.nodes + ({pa} + userPages pt.leaf) := by
    rw [Pagetable.refs, h.leaf, if_pos rfl, userPages_set hn (h.fresh rfl), cell_some,
      pa_pa2pte hpa]
  have ht := h.trades.frame ({pa} + userPages pt.leaf)
  rw [← href, ← add_left_comm, ← Pagetable.refs] at ht
  exact ht R hR

lemma MappedPage.trades_of_not (h : MappedPage V k pt n (pa2pte pa perm) false k' pt') :
    k.Trades V k' pt.refs pt'.refs := by
  rw [Pagetable.refs, Pagetable.refs, h.leaf, if_neg (by simp)]
  exact h.trades.frame _

/-- The page-table pages are the only pages that `mappages` writes to. -/
lemma MappedPage.page_eq {q : Pte} {R : Multiset Nat} {x : Nat} (h : MappedPage V k pt n q b k' pt')
    (hB : k.Books V (R + pt.refs)) (hx : x ∈ R + pt.refs) (hnode : x ∉ pt.nodes) :
    k'.page x = k.page x := by
  have hB' : k.Books V (R + userPages pt.leaf + pt.nodes) := by
    rw [add_assoc, add_comm (userPages pt.leaf), ← Pagetable.refs]
    exact hB
  refine h.trades.data_eq hB' ?_ hnode
  rw [Pagetable.refs, Multiset.mem_add, Multiset.mem_add] at hx
  rw [Multiset.mem_add]
  exact hx.imp_right fun hx => hx.resolve_left hnode

/-! ### Unmapping -/

/-- The map without the `c` pages from `a` on. -/
def cut (f : Nat → Option Pte) (a c : Nat) : Nat → Option Pte :=
  fun m => if a ≤ m ∧ m < a + c then none else f m

lemma cut_zero (f : Nat → Option Pte) (a : Nat) : cut f a 0 = f := by
  funext m
  rw [cut, if_neg (by omega)]

lemma cut_succ (f : Nat → Option Pte) (a c : Nat) :
    cut f a (c + 1) = cut (Function.update f a none) (a + 1) c := by
  funext m
  unfold cut
  by_cases hm : m = a
  · rw [if_pos (by omega), if_neg (by omega), hm, Function.update_self]
  · rw [Function.update_of_ne hm]
    by_cases hc : a + 1 ≤ m ∧ m < a + 1 + c
    · rw [if_pos (by omega), if_pos hc]
    · rw [if_neg (by omega), if_neg hc]

lemma cut_succ_of_none {f : Nat → Option Pte} {a : Nat} (h : f a = none) (c : Nat) :
    cut f a (c + 1) = cut f (a + 1) c := by
  rw [cut_succ, ← h, Function.update_eq_self]

/-- What unmapping does. Pages from `TRAPFRAME` on must not be freed. -/
structure Unmapped (V : Arena) (k : Kmem) (pt : Pagetable) (a c : Nat) (doFree : Bool) (k' : Kmem)
    (pt' : Pagetable) : Prop where
  nodes : pt'.nodes = pt.nodes
  leaf : pt'.leaf = cut pt.leaf a c
  kept : doFree = false → k' = k
  trades : doFree = true → (∀ m, tfPage ≤ m → m < a + c → pt.leaf m = none) →
    k.Trades V k' pt.refs pt'.refs

/-- One page is unmapped. -/
lemma trades_unmap {a : Nat} {q : Pte} (hq : pt.leaf a = some q) (ha : a < tfPage)
    (hleaf : pt'.leaf = Function.update pt.leaf a none) (hnodes : pt'.nodes = pt.nodes) :
    k.Trades V (k.kfree q.pa) pt.refs pt'.refs := by
  rw [Pagetable.refs, Pagetable.refs, hleaf, hnodes, userPages_clear (f := pt.leaf) ha, hq,
    cell_some, add_left_comm]
  exact Kmem.trades_drop V k q.pa _

lemma next_page (a : Nat) : a * pgsize + pgsize = (a + 1) * pgsize := (Nat.succ_mul a pgsize).symm

/-- One round of the loop of `uvmunmap`. -/
lemma uvmunmapLoop_succ {doFree : Bool} {c a : Nat} (ha : a < 2 ^ 26) (k : Kmem) (pt : Pagetable) :
    uvmunmapLoop doFree (c + 1) k pt (a * pgsize) =
      match pt.leaf a with
      | none => uvmunmapLoop doFree c k pt ((a + 1) * pgsize)
      | some q => uvmunmapLoop doFree c (if doFree then k.kfree q.pa else k)
          (pt.setPte (a * pgsize) none) ((a + 1) * pgsize) := by
  rw [uvmunmapLoop, next_page, ← pte_page pt ha]
  rcases walk_false k pt (page_lt_maxva ha) with ⟨-, hw⟩ | ⟨hnone, hw⟩
  · rw [hw]
    rfl
  · rw [hw, hnone]
    rfl

lemma uvmunmapLoop_lt {doFree : Bool} {c a : Nat}
    (h : uvmunmapLoop doFree (c + 1) k pt (a * pgsize) = .ok (k', pt')) : a < 2 ^ 26 := by
  rw [uvmunmapLoop] at h
  obtain ⟨r, hw, -⟩ := bind_ok h
  exact page_lt_of_maxva (walked_walk (V := ⟨∅, by simp⟩) hw).1

lemma uvmunmapLoop_ok {doFree : Bool} {c a : Nat}
    (h : uvmunmapLoop doFree c k pt (a * pgsize) = .ok (k', pt')) :
    Unmapped V k pt a c doFree k' pt' := by
  induction c generalizing k pt a with
  | zero =>
    cases h
    exact ⟨rfl, (cut_zero _ _).symm, fun _ => rfl, fun _ _ => Trade.refl _ _ _⟩
  | succ c ih =>
    have ha := uvmunmapLoop_lt h
    rw [uvmunmapLoop_succ ha] at h
    cases hq : pt.leaf a with
    | none =>
      rw [hq] at h
      have hu := ih h
      refine ⟨hu.nodes, ?_, hu.kept, fun hd habove => hu.trades hd fun m hm hlt => ?_⟩
      · rw [cut_succ_of_none hq, hu.leaf]
      · exact habove m hm (by omega)
    | some q =>
      rw [hq] at h
      have hreach : pt.Reaches (a * pgsize) :=
        Pagetable.reaches_of_leaf ((pte_page pt ha).trans hq)
      have hleaf := Pagetable.leaf_setPte hreach (by omega) none
      have hnodes := Pagetable.nodes_setPte pt (a * pgsize) none
      have hu := ih h
      refine ⟨hu.nodes.trans hnodes, ?_, fun hd => ?_, fun hd habove => ?_⟩
      · rw [hu.leaf, hleaf, cut_succ]
      · rw [hu.kept hd, hd]
        rfl
      · have hlt : a < tfPage := by
          by_contra hge
          have hnone := habove a (by omega) (by omega)
          rw [hq] at hnone
          cases hnone
        subst hd
        refine (trades_unmap hq hlt hleaf hnodes).trans (hu.trades rfl fun m hm hlt' => ?_)
        rw [hleaf, Function.update_of_ne (by omega)]
        exact habove m hm (by omega)

lemma uvmunmapLoop_total {d : Bool} {c a : Nat} (hac : a + c ≤ 2 ^ 26) (k : Kmem)
    (pt : Pagetable) : ∃ k' pt', uvmunmapLoop d c k pt (a * pgsize) = .ok (k', pt') := by
  induction c generalizing k pt a with
  | zero => exact ⟨k, pt, rfl⟩
  | succ c ih =>
    rw [uvmunmapLoop_succ (by omega)]
    cases pt.leaf a with
    | none => exact ih (by omega) k pt
    | some q => exact ih (by omega) _ _

/-- The number of pages that `sz` bytes take. -/
def pages (sz : Nat) : Nat := (sz + (pgsize - 1)) / pgsize

lemma pages_page (a : Nat) : pages (a * pgsize) = a := by
  simp only [pages, pgsize]
  omega

lemma pages_mono {a b : Nat} (h : a ≤ b) : pages a ≤ pages b :=
  Nat.div_le_div_right (Nat.add_le_add_right h _)

lemma pgRoundUp_eq {sz : Nat} (h : pages sz ≤ 2 ^ 26) : pgRoundUp sz = pages sz * pgsize := by
  have hlt : sz + pgsize - 1 < 2 ^ 64 := by
    simp only [pages, pgsize] at *
    omega
  rw [pgRoundUp, u64, Nat.mod_eq_of_lt hlt]
  rfl

lemma rounds_pages {a c : Nat} (h : a + c ≤ 2 ^ 26) :
    rounds (a * pgsize) (u64 (a * pgsize + u64 (c * pgsize))) = c := by
  simp only [rounds, u64, pgsize]
  omega

lemma uvmunmap_page {a c : Nat} (h : a + c ≤ 2 ^ 26) (k : Kmem) (pt : Pagetable) (doFree : Bool) :
    uvmunmap k pt (a * pgsize) c doFree = uvmunmapLoop doFree c k pt (a * pgsize) := by
  have h1 : ¬ a * pgsize % pgsize ≠ 0 := by simp [Nat.mul_mod_left]
  rw [uvmunmap, if_neg h1, rounds_pages h]

/-- `uvmdealloc` unmaps the pages between the two sizes. -/
lemma uvmdealloc_eq {oldsz newsz : Nat} (h : pages oldsz ≤ 2 ^ 26) (hlt : newsz < oldsz)
    (k : Kmem) (pt : Pagetable) :
    uvmdealloc k pt oldsz newsz = (do
      let (k, pt) ← uvmunmapLoop true (pages oldsz - pages newsz) k pt (pages newsz * pgsize)
      pure (newsz, k, pt)) := by
  have hle := pages_mono hlt.le
  rw [uvmdealloc, if_neg (by omega), pgRoundUp_eq h, pgRoundUp_eq (hle.trans h),
    ← Nat.sub_mul, Nat.mul_div_cancel _ (by decide)]
  by_cases heq : pages newsz * pgsize < pages oldsz * pgsize
  · have hint : int32 (pages oldsz - pages newsz) = pages oldsz - pages newsz := by
      unfold int32
      rw [if_pos (by omega)]
      omega
    rw [if_pos heq, hint]
    dsimp only
    rw [uvmunmap_page (by omega)]
  · have hsame : pages oldsz - pages newsz = 0 := by
      simp only [pgsize] at heq
      omega
    rw [if_neg heq, hsame]
    rfl

/-! ### The top of an address space -/

/-- The trampoline and the trapframe are mapped, for the kernel only, and nothing lies above. -/
structure Top (tramp tf : Nat) (f : Nat → Option Pte) : Prop where
  trapframe : f tfPage = some (pa2pte tf (Perm.R.or .W))
  trampoline : f (tfPage + 1) = some (pa2pte tramp (Perm.R.or .X))
  above : ∀ m, tfPage + 2 ≤ m → f m = none

namespace Top

variable {tramp tf : Nat} {f g : Nat → Option Pte}

/-- Only entries below `TRAPFRAME` change. -/
lemma congr (h : Top tramp tf f) (hg : ∀ m, tfPage ≤ m → g m = f m) : Top tramp tf g := by
  refine ⟨?_, ?_, fun m hm => ?_⟩
  · rw [hg _ le_rfl, h.trapframe]
  · rw [hg _ (by omega), h.trampoline]
  · rw [hg m (by omega), h.above m hm]

/-- A leaf that user code may use lies below `TRAPFRAME`. -/
lemma lt_of_user (h : Top tramp tf f) {m : Nat} {q : Pte} (hq : f m = some q)
    (hu : q.perm.u = true) : m < tfPage := by
  by_contra hge
  rcases lt_trichotomy m (tfPage + 1) with hm | hm | hm
  · obtain rfl : m = tfPage := by omega
    rw [h.trapframe] at hq
    cases hq
    cases hu
  · subst hm
    rw [h.trampoline] at hq
    cases hq
    cases hu
  · rw [h.above m (by omega)] at hq
    cases hq

end Top

/-! ### Growing -/

variable {tramp tf : Nat}

/-- The pages `[a, a + c)` were not mapped and are mapped now, with permissions `perm`. -/
structure Grown (f : Nat → Option Pte) (a c : Nat) (perm : Perm) (f' : Nat → Option Pte) :
    Prop where
  fresh : ∀ m, a ≤ m → m < a + c → f m = none
  mapped : ∀ m, a ≤ m → m < a + c → ∃ pa, f' m = some (pa2pte pa perm)
  same : ∀ m, m < a ∨ a + c ≤ m → f' m = f m

lemma Grown.refl (f : Nat → Option Pte) (a : Nat) (perm : Perm) : Grown f a 0 perm f :=
  ⟨fun _ _ _ => by omega, fun _ _ _ => by omega, fun _ _ => rfl⟩

lemma Grown.cons {f f' : Nat → Option Pte} {a c pa : Nat} {perm : Perm} (hfree : f a = none)
    (h : Grown (Function.update f a (some (pa2pte pa perm))) (a + 1) c perm f') :
    Grown f a (c + 1) perm f' := by
  refine ⟨fun m hm hlt => ?_, fun m hm hlt => ?_, fun m hm => ?_⟩
  · by_cases hma : m = a
    · rw [hma, hfree]
    · rw [← h.fresh m (by omega) (by omega), Function.update_of_ne hma]
  · by_cases hma : m = a
    · exact ⟨pa, by rw [hma, h.same a (by omega), Function.update_self]⟩
    · exact h.mapped m (by omega) (by omega)
  · rw [h.same m (by omega), Function.update_of_ne (by omega)]

lemma Grown.top {f f' : Nat → Option Pte} {a c : Nat} {perm : Perm} (h : Grown f a c perm f')
    (hac : a + c ≤ tfPage) (ht : Top tramp tf f) : Top tramp tf f' :=
  ht.congr fun m hm => h.same m (by omega)

/-- What `uvmalloc` does to the pages from `a` on, given that those from `s` to `a` are its own:
it maps all of them, or gives up and unmaps what it has mapped. -/
structure Allocated (V : Arena) (k : Kmem) (pt : Pagetable) (s a c : Nat) (perm : Perm) (b : Bool)
    (k' : Kmem) (pt' : Pagetable) : Prop where
  trades : k.Trades V k' pt.refs pt'.refs
  done : b = true → a + c ≤ tfPage ∧ Grown pt.leaf a c perm pt'.leaf
  undone : b = false → pt'.leaf = cut pt.leaf s (a - s)

/-- The pages from `s` to `a` are given up. -/
lemma allocated_undo {s a c r : Nat} {k1 : Kmem} {pt1 : Pagetable} (hsa : s ≤ a) (ha : a ≤ tfPage)
    (ht : k.Trades V k1 pt.refs pt1.refs) (hleaf : pt1.leaf = pt.leaf)
    (h : uvmdealloc k1 pt1 (a * pgsize) (s * pgsize) = .ok (r, k', pt')) :
    Allocated V k pt s a c perm false k' pt' := by
  rcases hsa.eq_or_lt with rfl | hlt
  · rw [uvmdealloc, if_pos le_rfl] at h
    cases h
    refine ⟨ht, by simp, fun _ => ?_⟩
    rw [Nat.sub_self, cut_zero, hleaf]
  · rw [uvmdealloc_eq (by rw [pages_page]; rw [tfPage_eq] at ha; omega)
      (by simp only [pgsize]; omega), pages_page, pages_page] at h
    obtain ⟨⟨k2, pt2⟩, hu, h⟩ := bind_ok h
    cases h
    have hun := uvmunmapLoop_ok (V := V) hu
    refine ⟨ht.trans (hun.trades rfl fun m hm hlt' => by omega), by simp, fun _ => ?_⟩
    rw [hun.leaf, hleaf]

lemma uvmallocLoop_ok {s a c : Nat} {xperm : Perm} (hsa : s ≤ a) (ha : a ≤ tfPage)
    (ht : Top tramp tf pt.leaf)
    (h : uvmallocLoop (s * pgsize) xperm c k pt (a * pgsize) = .ok (b, k', pt')) :
    Allocated V k pt s a c ((Perm.R.or .U).or xperm) b k' pt' := by
  induction c generalizing k pt a with
  | zero =>
    cases h
    exact ⟨Trade.refl _ _ _, fun _ => ⟨ha, Grown.refl _ _ _⟩, by simp⟩
  | succ c ih =>
    rw [uvmallocLoop] at h
    split at h
    · next k1 hk =>
      obtain rfl := Kmem.kalloc_none hk
      obtain ⟨⟨r, k2, pt2⟩, hd, h⟩ := bind_ok h
      cases h
      exact allocated_undo hsa ha (Trade.refl _ _ _) rfl hd
    · next mem k1 hk =>
      obtain ⟨⟨mapped, k2, pt2⟩, hm, h⟩ := bind_ok h
      obtain ⟨-, hmap⟩ := mappages_ok (V := V) hm
      have htake : k.Trades V (k1.fill mem 0) pt.refs ({mem} + pt.refs) :=
        Kmem.trades_take hk _ _
      cases mapped with
      | false =>
        obtain ⟨⟨r, k3, pt3⟩, hd, h⟩ := bind_ok h
        cases h
        have hback : k.Trades V (k2.kfree mem) pt.refs pt2.refs :=
          (htake.trans (hmap.trades_of_not.frame_left {mem})).trans (Kmem.trades_drop V k2 mem _)
        exact allocated_undo hsa ha hback hmap.leaf hd
      | true =>
        have hfree := hmap.fresh rfl
        have hleaf : pt2.leaf = Function.update pt.leaf a (some _) := hmap.leaf
        have hlt : a < tfPage := by
          refine lt_of_le_of_ne ha fun heq => ?_
          rw [heq, ht.trapframe] at hfree
          cases hfree
        rw [next_page] at h
        have ht2 : Top tramp tf pt2.leaf := by
          refine ht.congr fun m hm => ?_
          rw [hleaf, Function.update_of_ne (by omega)]
        obtain ⟨htr, hdone, hundone⟩ := ih (by omega) (by omega) ht2 h
        refine ⟨(htake.trans (hmap.trades_refs hlt)).trans htr, fun hb => ?_, fun hb => ?_⟩
        · obtain ⟨hle, hgrown⟩ := hdone hb
          rw [hleaf] at hgrown
          exact ⟨by omega, hgrown.cons hfree⟩
        · rw [hundone hb, hleaf]
          funext m
          unfold cut
          by_cases hma : m = a
          · rw [if_pos (by omega), if_neg (by omega), hma, hfree]
          · rw [Function.update_of_ne hma]
            by_cases hm : s ≤ m ∧ m < s + (a - s)
            · rw [if_pos (by omega), if_pos hm]
            · rw [if_neg (by omega), if_neg hm]

lemma rounds_sizes {oldsz newsz : Nat} (h : oldsz ≤ newsz) :
    rounds (pages oldsz * pgsize) newsz = pages newsz - pages oldsz := by
  simp only [rounds, pages, pgsize]
  omega

/-- `uvmalloc` maps every page between the two sizes, or none. -/
lemma uvmalloc_ok {oldsz newsz r : Nat} {xperm : Perm} (hle : oldsz ≤ newsz)
    (hold : pages oldsz ≤ tfPage) (ht : Top tramp tf pt.leaf)
    (h : uvmalloc k pt oldsz newsz xperm = .ok (r, k', pt')) :
    k.Trades V k' pt.refs pt'.refs ∧
      ((r = newsz ∧ pages newsz ≤ tfPage ∧ Grown pt.leaf (pages oldsz)
          (pages newsz - pages oldsz) ((Perm.R.or .U).or xperm) pt'.leaf) ∨
        (r = 0 ∧ pt'.leaf = pt.leaf)) := by
  have hround : pgRoundUp oldsz = pages oldsz * pgsize := by
    refine pgRoundUp_eq ?_
    rw [tfPage_eq] at hold
    omega
  rw [uvmalloc, if_neg (by omega), hround] at h
  obtain ⟨⟨b, k1, pt1⟩, hl, h⟩ := bind_ok h
  rw [rounds_sizes hle] at hl
  have hall := uvmallocLoop_ok (V := V) le_rfl hold ht hl
  cases h
  refine ⟨hall.trades, ?_⟩
  cases b with
  | true =>
    obtain ⟨hac, hgrown⟩ := hall.done rfl
    have := pages_mono hle
    exact Or.inl ⟨rfl, by omega, hgrown⟩
  | false =>
    refine Or.inr ⟨rfl, ?_⟩
    rw [hall.undone rfl, Nat.sub_self, cut_zero]

/-! ### Freeing an address space -/

lemma userPages_none {f : Nat → Option Pte} (h : ∀ n, f n = none) : userPages f = 0 := by
  unfold userPages
  refine Finset.sum_eq_zero fun n _ => ?_
  rw [h n, cell_none]

lemma uvmfree_eq {sz : Nat} (hsz : pages sz ≤ 2 ^ 26) (k : Kmem) (pt : Pagetable) :
    uvmfree k pt sz =
      uvmunmapLoop true (pages sz) k pt (0 * pgsize) >>= fun r => freewalk r.1 r.2 := by
  rcases Nat.eq_zero_or_pos sz with rfl | hpos
  · rfl
  · have hzero : uvmunmap k pt 0 (pages sz) true = uvmunmap k pt (0 * pgsize) (pages sz) true := by
      rw [Nat.zero_mul]
    unfold uvmfree
    dsimp only
    rw [if_pos hpos, pgRoundUp_eq hsz, Nat.mul_div_cancel _ (by decide : 0 < pgsize), hzero,
      uvmunmap_page (by omega)]

/-- `uvmfree` gives back everything the page table refers to. -/
lemma trades_uvmfree {sz : Nat} (hsz : pages sz ≤ 2 ^ 26)
    (habove : ∀ m, tfPage ≤ m → pt.leaf m = none) (h : uvmfree k pt sz = .ok k') :
    k.Trades V k' pt.refs 0 := by
  rw [uvmfree_eq hsz] at h
  obtain ⟨⟨k1, pt1⟩, hu, hf⟩ := bind_ok h
  have hleft : pt1.refs = pt1.nodes := by
    rw [Pagetable.refs, userPages_none (leaf_of_freewalk hf), add_zero]
  have hfree : k1.Trades V k' pt1.refs 0 := hleft ▸ trades_freewalk hf
  exact ((uvmunmapLoop_ok (V := V) hu).trades rfl fun m hm _ => habove m hm).trans hfree

/-- `uvmfree` returns exactly when nothing is mapped from `sz` on. -/
lemma uvmfree_iff {sz : Nat} (hsz : pages sz ≤ 2 ^ 26) (k : Kmem) (pt : Pagetable) :
    (∃ k', uvmfree k pt sz = .ok k') ↔ ∀ m, pages sz ≤ m → pt.leaf m = none := by
  rw [uvmfree_eq hsz]
  constructor
  · rintro ⟨k', h⟩ m hm
    obtain ⟨⟨k1, pt1⟩, hu, hf⟩ := bind_ok h
    have hleaf := leaf_of_freewalk hf m
    rw [(uvmunmapLoop_ok (V := ⟨∅, by simp⟩) hu).leaf, cut, if_neg (by omega)] at hleaf
    exact hleaf
  · intro habove
    have htotal : ∃ k1 pt1, uvmunmapLoop true (pages sz) k pt (0 * pgsize) = .ok (k1, pt1) :=
      uvmunmapLoop_total (by omega) k pt
    obtain ⟨k1, pt1, hu⟩ := htotal
    have hnone : ∀ n, pt1.leaf n = none := by
      intro n
      rw [(uvmunmapLoop_ok (V := ⟨∅, by simp⟩) hu).leaf, cut]
      split
      · rfl
      · exact habove n (by omega)
    obtain ⟨k2, hf⟩ := freewalk_total hnone k1
    refine ⟨k2, ?_⟩
    rw [hu, ok_bind]
    exact hf

/-! ### Single entries -/

/-- `uvmclear` takes the user permission of one page away. -/
lemma uvmclear_ok (h : uvmclear k pt (n * pgsize) = .ok pt') :
    pt'.refs = pt.refs ∧ (∀ m, m ≠ n → pt'.leaf m = pt.leaf m) ∧
      (∀ q, pt.leaf n = some q →
        pt'.leaf n = some { q with perm := { q.perm with u := false } }) ∧
      (pt.leaf n = none → pt'.leaf n = none) := by
  obtain ⟨⟨found, k1, pt1⟩, hw, h⟩ := bind_ok h
  obtain ⟨hva, -⟩ := walked_walk (V := ⟨∅, by simp⟩) hw
  have hn := page_lt_of_maxva hva
  rcases walk_false k pt hva with ⟨hreach, hw'⟩ | ⟨-, hw'⟩
  · rw [hw'] at hw
    cases hw
    cases h
    have hleaf := Pagetable.leaf_setPte hreach (by omega)
      ((pt.leaf n).map fun q => { q with perm := { q.perm with u := false } })
    rw [pte_page pt hn]
    refine ⟨?_, fun m hm => ?_, fun q hq => ?_, fun hq => ?_⟩
    · rw [Pagetable.refs, Pagetable.refs, Pagetable.nodes_setPte, hleaf]
      congr 1
      by_cases hlt : n < tfPage
      · rw [userPages_clear (f := pt.leaf) hlt, userPages_clear hlt, Function.update_self,
          Function.update_idem]
        cases pt.leaf n <;> rfl
      · exact userPages_above (by omega) _
    · rw [hleaf, Function.update_of_ne hm]
    · rw [hleaf, Function.update_self, hq]
      rfl
    · rw [hleaf, Function.update_self, hq]
      rfl
  · rw [hw'] at hw
    cases hw
    cases h

/-! ### Copying to user memory -/

lemma mem_refs {m : Nat} {q : Pte} (hm : m < tfPage) (hq : pt.leaf m = some q) :
    q.pa ∈ pt.refs := by
  rw [Pagetable.refs, Multiset.mem_add]
  exact Or.inr (mem_userPages hm hq)

/-- The references of a page table are to pages of the allocator. -/
lemma pageAddr_of_leaf {R : Multiset Nat} {m : Nat} {q : Pte} (hB : k.Books V (R + pt.refs))
    (hm : m < tfPage) (hq : pt.leaf m = some q) : PageAddr q.pa := by
  have hmem : q.pa ∈ pt.refs := mem_refs hm hq
  have hall : q.pa ∈ R + pt.refs := Multiset.mem_add.mpr (Or.inr hmem)
  exact V.page_addr q.pa (hB.subset q.pa hall)

/-- Pages below `psz` that were not mapped may have been mapped by `vmfault`. -/
def Faulted (psz : Nat) (f f' : Nat → Option Pte) : Prop :=
  ∀ m, f' m = f m ∨
    (f m = none ∧ m < pages psz ∧ ∃ pa, f' m = some (pa2pte pa ((Perm.W.or .U).or .R)))

lemma Faulted.refl (psz : Nat) (f : Nat → Option Pte) : Faulted psz f f := fun _ => Or.inl rfl

lemma Faulted.trans {psz : Nat} {f g h : Nat → Option Pte} (hfg : Faulted psz f g)
    (hgh : Faulted psz g h) : Faulted psz f h := by
  intro m
  rcases hgh m with heq | ⟨hnone, hlt, hmap⟩
  · rw [heq]
    exact hfg m
  · rcases hfg m with heq | ⟨-, -, pa, hpa⟩
    · exact Or.inr ⟨heq ▸ hnone, hlt, hmap⟩
    · rw [hpa] at hnone
      cases hnone

lemma Faulted.top {psz : Nat} {f f' : Nat → Option Pte} (h : Faulted psz f f')
    (hsz : pages psz ≤ tfPage) (ht : Top tramp tf f) : Top tramp tf f' := by
  refine ht.congr fun m hm => ?_
  rcases h m with heq | ⟨-, hlt, -⟩
  · exact heq
  · omega

lemma lt_pages {m sz : Nat} (h : m * pgsize < sz) : m < pages sz := by
  simp only [pages, pgsize] at *
  omega

/-- `vmfault` of the process on its own page table. -/
lemma vmfault_ok {psz r : Nat} (hn : n < 2 ^ 26) (hsz : pages psz ≤ tfPage)
    (h : vmfault k psz pt pt (n * pgsize) = .ok (r, k', pt')) :
    k.Trades V k' pt.refs pt'.refs ∧ Faulted psz pt.leaf pt'.leaf ∧
      (r ≠ 0 → ∃ perm, n < tfPage ∧ pt'.leaf n = some (pa2pte r perm) ∧
        ∀ R, k.Books V (R + pt.refs) → PageAddr r) := by
  have hdown : pgRoundDown (n * pgsize) = n * pgsize := by
    rw [pgRoundDown, Nat.mul_div_cancel _ (by decide : 0 < pgsize)]
  unfold vmfault at h
  split at h
  · cases h
    exact ⟨Trade.refl _ _ _, Faulted.refl _ _, by simp⟩
  · next hva =>
    have hlt : n < pages psz := lt_pages (by omega)
    rw [hdown] at h
    dsimp only at h
    rw [ismapped_page k pt hn, ok_bind] at h
    split at h
    · cases h
      exact ⟨Trade.refl _ _ _, Faulted.refl _ _, by simp⟩
    · split at h
      · next k1 hk =>
        obtain rfl := Kmem.kalloc_none hk
        cases h
        exact ⟨Trade.refl _ _ _, Faulted.refl _ _, by simp⟩
      · next mem k1 hk =>
        obtain ⟨⟨mapped, k2, pt2⟩, hm, h⟩ := bind_ok h
        obtain ⟨-, hmap⟩ := mappages_ok (V := V) hm
        have htake : k.Trades V (k1.fill mem 0) pt.refs ({mem} + pt.refs) :=
          Kmem.trades_take hk _ _
        cases mapped with
        | false =>
          cases h
          refine ⟨(htake.trans (hmap.trades_of_not.frame_left {mem})).trans
            (Kmem.trades_drop V k2 mem _), ?_, by simp⟩
          rw [hmap.leaf]
          exact Faulted.refl _ _
        | true =>
          obtain ⟨rfl, rfl, rfl⟩ : mem = r ∧ k2 = k' ∧ pt2 = pt' := by
            cases h
            exact ⟨rfl, rfl, rfl⟩
          have hleaf : pt2.leaf = Function.update pt.leaf n (some _) := hmap.leaf
          refine ⟨htake.trans (hmap.trades_refs (by omega)), fun m => ?_, fun _ => ?_⟩
          · by_cases hmn : m = n
            · subst hmn
              refine Or.inr ⟨hmap.fresh rfl, hlt, mem, ?_⟩
              rw [hleaf, Function.update_self]
            · exact Or.inl (by rw [hleaf, Function.update_of_ne hmn])
          · refine ⟨_, by omega, by rw [hleaf, Function.update_self], fun R hR => ?_⟩
            refine V.page_addr mem ((htake.accounts hR).subset mem ?_)
            simp only [Multiset.mem_add, Multiset.mem_singleton, true_or, or_true]

lemma pgRoundDown_eq (va : Nat) : pgRoundDown va = va / pgsize * pgsize := rfl

lemma page_of_va {va : Nat} (h : ¬ maxva ≤ pgRoundDown va) : va / pgsize < 2 ^ 26 := by
  rw [pgRoundDown_eq] at h
  exact page_lt_of_maxva (by omega)

/-- The page that is faulted in is one of the page table's. -/
lemma faultIn_ok {psz pa0 : Nat} (hn : n < 2 ^ 26) (hsz : pages psz ≤ tfPage)
    (ht : Top tramp tf pt.leaf)
    (h : faultIn k psz pt pt (n * pgsize) = .ok (pa0, k', pt')) :
    k.Trades V k' pt.refs pt'.refs ∧ Faulted psz pt.leaf pt'.leaf ∧
      (pa0 ≠ 0 → ∀ R, k.Books V (R + pt.refs) → pa0 ∈ pt'.refs) := by
  rw [faultIn, walkaddr_page k pt hn, ok_bind] at h
  split at h
  · obtain ⟨htr, hf, hr⟩ := vmfault_ok (V := V) hn hsz h
    refine ⟨htr, hf, fun h0 R hR => ?_⟩
    obtain ⟨perm, hlt, hq, hpa⟩ := hr h0
    have hmem := mem_refs hlt hq
    rwa [pa_pa2pte (hpa R hR).aligned] at hmem
  · next hne =>
    cases h
    refine ⟨Trade.refl _ _ _, Faulted.refl _ _, fun _ _ _ => ?_⟩
    cases hq : pt.leaf n with
    | none =>
      rw [hq] at hne
      exact absurd rfl hne
    | some q =>
      rw [hq] at hne
      cases hu : q.perm.u with
      | false => simp [hu] at hne
      | true =>
        simp only [Option.elim_some, hu, if_true]
        exact mem_refs (ht.lt_of_user hq hu) hq

/-- `copyout` to the memory of the process itself. -/
lemma copyoutLoop_own {psz fuel dstva : Nat} {src : List UInt8} (hsz : pages psz ≤ tfPage)
    (ht : Top tramp tf pt.leaf)
    (h : copyoutLoop psz none fuel k pt dstva src = .ok (b, k', pt')) :
    k.Trades V k' pt.refs pt'.refs ∧ Faulted psz pt.leaf pt'.leaf := by
  induction fuel generalizing k pt dstva src with
  | zero =>
    cases h
    exact ⟨Trade.refl _ _ _, Faulted.refl _ _⟩
  | succ fuel ih =>
    rw [copyoutLoop] at h
    split at h
    · cases h
      exact ⟨Trade.refl _ _ _, Faulted.refl _ _⟩
    dsimp only at h
    split at h
    · cases h
      exact ⟨Trade.refl _ _ _, Faulted.refl _ _⟩
    next hva =>
    have hn := page_of_va hva
    rw [pgRoundDown_eq] at h
    obtain ⟨⟨pa0, k1, pt1⟩, hfault, h⟩ := bind_ok h
    obtain ⟨htr, hf, hpa⟩ := faultIn_ok (V := V) hn hsz ht hfault
    dsimp only at h
    split at h
    · cases h
      exact ⟨htr, hf⟩
    next h0 =>
    obtain ⟨⟨found, k2, pt2⟩, hw, h⟩ := bind_ok h
    dsimp only at h
    obtain ⟨-, h⟩ := guard_ok h
    split at h
    · cases h
      exact ⟨htr, hf⟩
    · obtain ⟨htr', hf'⟩ := ih (hf.top hsz ht) h
      refine ⟨Trade.of_accounts fun R hR => htr.trans (Trade.trans ?_ htr'), hf.trans hf'⟩
      exact Kmem.trades_setPage _ (hpa h0 R hR)

lemma copyout_own {psz dstva : Nat} {src : List UInt8} (hsz : pages psz ≤ tfPage)
    (ht : Top tramp tf pt.leaf) (h : copyout k psz pt none dstva src = .ok (b, k', pt')) :
    k.Trades V k' pt.refs pt'.refs ∧ Faulted psz pt.leaf pt'.leaf :=
  copyoutLoop_own hsz ht h

/-- `copyout` to a page of another page table that is mapped for writing. -/
lemma copyout_page {psz off : Nat} {ppt : Pagetable} {src : List UInt8} {q : Pte}
    (hn : n < 2 ^ 26) (hq : pt.leaf n = some q) (hu : q.perm.u = true) (hw : q.perm.w = true)
    (h0 : q.pa ≠ 0) (hoff : off + src.length ≤ pgsize) (hsrc : src ≠ []) :
    copyout k psz ppt (some pt) (n * pgsize + off) src =
      .ok (true, k.setPage q.pa (blit (k.page q.pa) off src), ppt) := by
  have hlen : 0 < src.length := List.length_pos_iff.mpr hsrc
  have hdown : pgRoundDown (n * pgsize + off) = n * pgsize := by
    rw [pgRoundDown_eq]
    simp only [pgsize] at *
    omega
  obtain ⟨len, hfuel⟩ : ∃ len, src.length = len + 1 := ⟨src.length - 1, by omega⟩
  have hfault : faultIn k psz ppt pt (n * pgsize) = .ok (q.pa, k, ppt) := by
    rw [faultIn, walkaddr_page k pt hn, hq, ok_bind]
    simp only [Option.elim_some, hu, if_true, if_neg h0]
    rfl
  have hwalk : walk k pt (n * pgsize) false = .ok (true, k, pt) := by
    rcases walk_false k pt (page_lt_maxva hn) with ⟨-, hw'⟩ | ⟨hnone, -⟩
    · exact hw'
    · rw [pte_page pt hn, hq] at hnone
      cases hnone
  have hmin : min (pgsize - (n * pgsize + off - n * pgsize)) src.length = src.length := by
    omega
  rw [copyout, hfuel, copyoutLoop, if_neg hsrc]
  dsimp only
  rw [hdown, if_neg (by have := page_lt_maxva hn; omega), Option.getD_some, hfault, ok_bind]
  dsimp only
  rw [if_neg h0, Option.getD_some, hwalk, ok_bind, hmin, List.take_length, List.drop_length]
  simp only [Bool.not_true, Bool.false_eq_true, if_false, pte_page pt hn, hq, Option.any_some, hw,
    Nat.add_sub_cancel_left]
  cases len with
  | zero => rfl
  | succ len => rw [copyoutLoop, if_pos rfl]; rfl

end

end FogOS.Kernel
