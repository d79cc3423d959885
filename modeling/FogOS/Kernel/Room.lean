import FogOS.Kernel.UserSpace

/-!
# Room in the address space

Physical memory has `npages` pages. What is mapped and what is free are different pages, so an
address space whose heap is mapped from `floor` on has room for all the memory there is between
its heap and its mmap region, provided that `floor` leaves as much. Growing it and faulting pages
in then never meet a page that is mapped.
-/

namespace FogOS.Kernel

open ByteMem Ledger

variable {V : Arena} {R : Multiset Nat} {k k' : Kmem} {pt pt' : Pagetable} {tramp tf floor : Nat}
  {p : Proc}

/-- The number of pages from `KERNBASE` to `PHYSTOP`. -/
@[irreducible] def npages : Nat := (phystop - kernbase) / pgsize

lemma npages_eq : npages = 32768 := by
  unfold npages
  decide

/-! ### Counting pages -/

/-- Different pages of the allocator are at most `npages`. -/
lemma card_le_npages {M : Multiset Nat} (hnodup : M.Nodup) (haddr : ∀ x ∈ M, PageAddr x) :
    M.card ≤ npages := by
  have hsub : M.toFinset ⊆ (Finset.range npages).image fun i => kernbase + i * pgsize := by
    intro x hx
    obtain ⟨⟨c, hc⟩, habove, hbelow⟩ := haddr x (Multiset.mem_toFinset.mp hx)
    have hlt := npages_eq
    unfold kernbase at habove
    unfold phystop kernbase at hbelow
    unfold pgsize at hc
    refine Finset.mem_image.mpr ⟨c - 524288, Finset.mem_range.mpr (by omega), ?_⟩
    unfold kernbase pgsize
    omega
  rw [← Multiset.toFinset_card_of_nodup hnodup]
  refine (Finset.card_le_card hsub).trans (Finset.card_image_le.trans ?_)
  rw [Finset.card_range]

lemma card_cell (v : Option Pte) : (cell v).card = if v = none then 0 else 1 := by
  cases v <;> rfl

lemma card_le_userPages {f : Nat → Option Pte} {S : Finset Nat}
    (hS : ∀ m ∈ S, m < tfPage ∧ f m ≠ none) : S.card ≤ (userPages f).card := by
  have hsub : S ⊆ Finset.range tfPage := fun m hm => Finset.mem_range.mpr (hS m hm).1
  have hone : ∀ m ∈ S, 1 ≤ (cell (f m)).card := by
    intro m hm
    rw [card_cell, if_neg (hS m hm).2]
  rw [userPages, Multiset.card_sum]
  calc S.card = ∑ m ∈ S, 1 := by simp
    _ ≤ ∑ m ∈ S, (cell (f m)).card := Finset.sum_le_sum hone
    _ ≤ ∑ m ∈ Finset.range tfPage, (cell (f m)).card :=
      Finset.sum_le_sum_of_subset hsub

/-- Pages that are mapped and pages that are free are different pages. -/
lemma card_mapped {S : Finset Nat} (hB : k.Books V (R + pt.refs)) (hnodup : pt.refs.Nodup)
    (hS : ∀ m ∈ S, m < tfPage ∧ pt.leaf m ≠ none) : S.card + k.freelist.length ≤ npages := by
  have hmapped := card_le_userPages hS
  have hfree : k.freelist.Nodup := hB.nodup
  have hpages : (userPages pt.leaf).Nodup := by
    rw [Pagetable.refs] at hnodup
    exact (Multiset.nodup_add.mp hnodup).2.1
  have hmem : ∀ x ∈ userPages pt.leaf, x ∈ R + pt.refs := by
    intro x hx
    rw [Pagetable.refs]
    simp only [Multiset.mem_add]
    exact Or.inr (Or.inr hx)
  have hall : (userPages pt.leaf + (k.freelist : Multiset Nat)).card ≤ npages := by
    refine card_le_npages (Multiset.nodup_add.mpr ⟨hpages, Multiset.coe_nodup.mpr hfree, ?_⟩) ?_
    · refine Multiset.disjoint_left.mpr fun {x} hx hx' => ?_
      exact hB.notMem_of_free (Multiset.mem_coe.mp hx') (hmem x hx)
    · intro x hx
      refine V.page_addr x ?_
      rcases Multiset.mem_add.mp hx with hx | hx
      · exact hB.subset x (hmem x hx)
      · exact ((hB.mem_free x).mp (Multiset.mem_coe.mp hx)).1
  rw [Multiset.card_add, Multiset.coe_card] at hall
  omega

/-- The lowest page above the heap that is in use. -/
def Proc.ceiling (p : Proc) : Nat := if p.hasMmap then p.low + 1 else tfPage

/-- All free memory fits between the heap and what lies above it. -/
lemma Space.slack (h : Space floor tramp p pt tf) (hB : k.Books V (R + p.refs))
    (hnodup : p.refs.Nodup) (hfloor : floor + npages + 2 ≤ tfPage) :
    max (pages p.sz) floor + k.freelist.length + 2 ≤ p.ceiling := by
  rw [h.refs, ← add_assoc] at hB
  rw [h.refs, Multiset.singleton_add, Multiset.nodup_cons] at hnodup
  have hceil : p.ceiling ≤ tfPage ∧ (p.hasMmap = true → p.ceiling = p.low + 1) := by
    unfold Proc.ceiling
    split
    · next hhas =>
      have := h.apart hhas
      exact ⟨by omega, fun _ => rfl⟩
    · next hhas => exact ⟨le_rfl, fun hhas' => absurd hhas' hhas⟩
  have hmapped : ∀ m ∈ Finset.Ico floor (pages p.sz) ∪ Finset.Ico p.ceiling tfPage,
      m < tfPage ∧ pt.leaf m ≠ none := by
    intro m hm
    have hsz := h.size
    rcases Finset.mem_union.mp hm with hm | hm
    · rw [Finset.mem_Ico] at hm
      exact ⟨by omega, h.heap m hm.1 hm.2⟩
    · rw [Finset.mem_Ico] at hm
      refine ⟨hm.2, ?_⟩
      by_cases hhas : p.hasMmap = true
      · obtain ⟨pa, hpa⟩ := h.region hhas m (by have := hceil.2 hhas; omega) hm.2
        simp [hpa]
      · rw [Proc.ceiling, if_neg hhas] at hm
        omega
  have hdisjoint : Disjoint (Finset.Ico floor (pages p.sz)) (Finset.Ico p.ceiling tfPage) := by
    refine Finset.disjoint_left.mpr fun m hm hm' => ?_
    rw [Finset.mem_Ico] at hm hm'
    by_cases hhas : p.hasMmap = true
    · have := h.apart hhas
      have := hceil.2 hhas
      omega
    · have := h.size
      rw [Proc.ceiling, if_neg hhas] at hm'
      omega
  have hcard := card_mapped hB hnodup.2 hmapped
  rw [Finset.card_union_of_disjoint hdisjoint, Nat.card_Ico, Nat.card_Ico] at hcard
  omega

/-! ### Growing and faulting -/

lemma uvmdealloc_total {oldsz : Nat} (h : pages oldsz ≤ 2 ^ 26) (newsz : Nat) (k : Kmem)
    (pt : Pagetable) : ∃ r k' pt', uvmdealloc k pt oldsz newsz = .ok (r, k', pt') := by
  by_cases hlt : newsz < oldsz
  · have hle := pages_mono hlt.le
    obtain ⟨k', pt', hun⟩ := uvmunmapLoop_total (d := true) (a := pages newsz)
      (c := pages oldsz - pages newsz) (by omega) k pt
    refine ⟨newsz, k', pt', ?_⟩
    rw [uvmdealloc_eq h hlt, hun]
    rfl
  · refine ⟨oldsz, k, pt, ?_⟩
    rw [uvmdealloc, if_pos (by omega)]
    rfl

/-- `uvmalloc` has got all its pages, or memory has run out, before it meets a page that is mapped. -/
lemma uvmallocLoop_total {s a c room : Nat} {xperm : Perm} (ha : a ≤ tfPage) (hroom : room ≤ tfPage)
    (hfit : a + min c k.freelist.length ≤ room) (hempty : ∀ m, a ≤ m → m < room → pt.leaf m = none) :
    ∃ b k' pt', uvmallocLoop s xperm c k pt (a * pgsize) = .ok (b, k', pt') := by
  have htf := tfPage_eq
  have hback : ∀ k pt, ∃ r k' pt', uvmdealloc k pt (a * pgsize) s = .ok (r, k', pt') := by
    refine uvmdealloc_total ?_ s
    rw [pages_page]
    omega
  induction c generalizing k pt a with
  | zero => exact ⟨true, k, pt, rfl⟩
  | succ c ih =>
    rw [uvmallocLoop]
    split
    · next k1 hk =>
      obtain ⟨r, k', pt', hd⟩ := hback k1 pt
      rw [hd]
      exact ⟨false, k', pt', rfl⟩
    · next mem k1 hk =>
      have hlen : k.freelist.length = k1.freelist.length + 1 := by
        rw [(Kmem.kalloc_some hk).1, List.length_cons]
      have hnone := hempty a le_rfl (by omega)
      obtain ⟨b, k2, pt2, hmap⟩ := mappages_total (by omega) hnone (k1.fill mem 0) mem ((Perm.R.or .U).or xperm)
      obtain ⟨-, hmapped⟩ := mappages_ok (V := ⟨∅, by simp⟩) hmap
      have hfree : k2.freelist.length ≤ k1.freelist.length := hmapped.free
      dsimp only
      rw [hmap, ok_bind]
      cases b with
      | false =>
        obtain ⟨r, k', pt', hd⟩ := hback (k2.kfree mem) pt2
        refine ⟨false, k', pt', ?_⟩
        change (uvmdealloc (k2.kfree mem) pt2 (a * pgsize) s >>= fun r => pure (false, r.2.1, r.2.2)) = _
        rw [hd]
        rfl
      | true =>
        have hleaf : pt2.leaf = Function.update pt.leaf a (some (pa2pte mem ((Perm.R.or .U).or xperm))) :=
          hmapped.leaf
        have hempty' : ∀ m, a + 1 ≤ m → m < room → pt2.leaf m = none := by
          intro m hm hlt
          rw [hleaf, Function.update_of_ne (by omega)]
          exact hempty m (by omega) hlt
        have hback' : ∀ k pt, ∃ r k' pt', uvmdealloc k pt ((a + 1) * pgsize) s = .ok (r, k', pt') := by
          refine uvmdealloc_total ?_ s
          rw [pages_page]
          omega
        have hfit' : a + 1 + min c k2.freelist.length ≤ room := by omega
        rw [next_page]
        exact ih (by omega) hfit' hempty' hback'

lemma uvmalloc_total {oldsz room : Nat} (newsz : Nat) (xperm : Perm) (hroom : room ≤ tfPage)
    (hfit : pages oldsz + min (pages newsz - pages oldsz) k.freelist.length ≤ room)
    (hempty : ∀ m, pages oldsz ≤ m → m < room → pt.leaf m = none) :
    ∃ r k' pt', uvmalloc k pt oldsz newsz xperm = .ok (r, k', pt') := by
  have htf := tfPage_eq
  unfold uvmalloc
  split
  · exact ⟨_, _, _, rfl⟩
  · next hle =>
    rw [pgRoundUp_eq (by omega)]
    have htotal : ∃ b k' pt', uvmallocLoop (pages oldsz * pgsize) xperm
        (pages newsz - pages oldsz) k pt (pages oldsz * pgsize) = .ok (b, k', pt') :=
      uvmallocLoop_total (by omega) hroom hfit hempty
    obtain ⟨b, k', pt', hloop⟩ := htotal
    refine ⟨if b then newsz else 0, k', pt', ?_⟩
    dsimp only
    rw [rounds_sizes (not_lt.mp hle), hloop]
    rfl

lemma vmfault_round {psz va : Nat} {ppt : Pagetable} (hva : va < psz) :
    vmfault k psz ppt pt va = vmfault k psz ppt pt (va / pgsize * pgsize) := by
  have hle : va / pgsize * pgsize ≤ va := Nat.div_mul_le_self va pgsize
  have hround : pgRoundDown (va / pgsize * pgsize) = pgRoundDown va := by
    rw [pgRoundDown, pgRoundDown, Nat.mul_div_cancel _ (by decide : 0 < pgsize)]
  unfold vmfault
  rw [if_neg (by omega), if_neg (by omega), hround]

/-- A page fault below the top never meets a page that is mapped. -/
lemma vmfault_total {psz : Nat} (hsz : pages psz ≤ tfPage) (va : Nat) (k : Kmem) (pt : Pagetable) :
    ∃ r k' pt', vmfault k psz pt pt va = .ok (r, k', pt') := by
  have htf := tfPage_eq
  by_cases hva : va < psz
  · rw [vmfault_round hva]
    have hn : va / pgsize < pages psz := lt_pages ((Nat.div_mul_le_self va pgsize).trans_lt hva)
    have hdown : pgRoundDown (va / pgsize * pgsize) = va / pgsize * pgsize := by
      rw [pgRoundDown, Nat.mul_div_cancel _ (by decide : 0 < pgsize)]
    unfold vmfault
    split
    · exact ⟨_, _, _, rfl⟩
    · dsimp only
      rw [hdown, ismapped_page k pt (by omega), ok_bind]
      split
      · exact ⟨_, _, _, rfl⟩
      · next hnone =>
        split
        · exact ⟨_, _, _, rfl⟩
        · next mem k1 hk =>
          have hfree : pt.leaf (va / pgsize) = none := by simpa using hnone
          obtain ⟨b, k2, pt2, hmap⟩ :=
            mappages_total (by omega) hfree (k1.fill mem 0) mem ((Perm.W.or .U).or .R)
          rw [hmap, ok_bind]
          cases b <;> exact ⟨_, _, _, rfl⟩
  · refine ⟨0, k, pt, ?_⟩
    rw [vmfault, if_pos (by omega)]
    rfl

end FogOS.Kernel
