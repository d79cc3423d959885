import FogOS.Kernel.ExecMmap

/-!
# Running out of memory

What `kfork` of `kernel/proc.c` and `growproc` leave behind when they return -1, whichever call of
`kalloc` has failed. The size of the caller may be anything: lazy growth asks neither for memory nor
for room, so the heap may reach into the mmap region and beyond `TRAPFRAME`.
-/

namespace FogOS.Kernel

open ByteMem Ledger

variable {V : Arena} {held R : Multiset Nat} {s t : State} {i j : Fin nproc} {k k' k₀ : Kmem}
  {pt pt' : Pagetable} {tramp tf : Nat}

/-! ### Code that only frees -/

/-- From `k` to `k'` references are dropped and none is taken: a page that does not come to the free
list holds what it held. -/
structure OnlyFrees (k k' : Kmem) : Prop where
  free : ∀ x ∈ k.freelist, x ∈ k'.freelist
  page : ∀ x, x ∉ k'.freelist → k'.page x = k.page x

namespace OnlyFrees

lemma refl (k : Kmem) : OnlyFrees k k := ⟨fun _ hx => hx, fun _ _ => rfl⟩

lemma trans {k'' : Kmem} (h : OnlyFrees k k') (h' : OnlyFrees k' k'') : OnlyFrees k k'' := by
  refine ⟨fun x hx => h'.free x (h.free x hx), fun x hx => ?_⟩
  rw [h'.page x hx, h.page x fun hx' => hx (h'.free x hx')]

lemma kfree (k : Kmem) (pa : Nat) : OnlyFrees k (k.kfree pa) := by
  by_cases hle : k.refCount (pa2idx pa) ≤ 1
  · rw [Kmem.kfree_last hle]
    refine ⟨fun x hx => List.mem_cons_of_mem pa hx, fun x hx => ?_⟩
    have hne : x ≠ pa := fun he => hx (he ▸ List.mem_cons_self)
    exact Function.update_of_ne hne _ _
  · rw [Kmem.kfree_shared (by omega)]
    exact ⟨fun x hx => hx, fun x _ => rfl⟩

end OnlyFrees

lemma walk_kmem {va : Nat} {b : Bool} (h : walk k pt va false = .ok (b, k', pt')) : k' = k := by
  obtain ⟨hva, -⟩ := walked_walk (V := ⟨∅, by simp⟩) h
  rcases walk_false k pt hva with ⟨-, hw⟩ | ⟨-, hw⟩
  · rw [hw] at h
    cases h
    rfl
  · rw [hw] at h
    cases h
    rfl

lemma frees_uvmunmapLoop {d : Bool} {c a : Nat} (h : uvmunmapLoop d c k pt a = .ok (k', pt')) :
    OnlyFrees k k' := by
  induction c generalizing k pt a with
  | zero =>
    cases h
    exact OnlyFrees.refl _
  | succ c ih =>
    obtain ⟨⟨found, k1, pt1⟩, hw, h⟩ := bind_ok h
    obtain rfl := walk_kmem hw
    cases found with
    | false => exact ih h
    | true =>
      dsimp only at h
      rw [if_neg (by simp)] at h
      split at h
      · exact ih h
      · next q hq =>
        cases d with
        | false => exact ih h
        | true => exact (OnlyFrees.kfree k1 q.pa).trans (ih h)

lemma frees_uvmunmap {va n : Nat} {d : Bool} (h : uvmunmap k pt va n d = .ok (k', pt')) : OnlyFrees k k' :=
  frees_uvmunmapLoop (guard_ok h).2

/-- Freeing a table only frees if freeing what its entries point to does. -/
lemma Table.frees_free {α : Type} {f : Kmem → α → Except Stop Kmem} {t : Table α}
    (hf : ∀ c k k', f k c = .ok k' → OnlyFrees k k') (h : Table.free f k t = .ok k') : OnlyFrees k k' := by
  have hentries : ∀ l : List (Fin 512), ∀ {k k' : Kmem},
      l.foldlM (fun k i => (t.entry i).elim (pure k) (f k)) k = .ok k' → OnlyFrees k k' := by
    intro l
    induction l with
    | nil =>
      intro k k' h
      cases h
      exact OnlyFrees.refl k
    | cons i l ih =>
      intro k k' h
      rw [List.foldlM_cons] at h
      obtain ⟨k1, h1, h2⟩ := bind_ok h
      cases hi : t.entry i with
      | none =>
        rw [hi] at h1
        obtain rfl := pure_ok h1
        exact ih h2
      | some c =>
        rw [hi] at h1
        exact (hf c k k1 h1).trans (ih h2)
  obtain ⟨k1, h1, h2⟩ := bind_ok h
  obtain rfl := pure_ok h2
  exact (hentries _ h1).trans (OnlyFrees.kfree k1 t.addr)

lemma frees_freewalk (h : freewalk k pt = .ok k') : OnlyFrees k k' := by
  have hleaf : ∀ t0 k k', Table.free freewalkLeaf k t0 = .ok k' → OnlyFrees k k' := fun t0 k k' h0 =>
    Table.frees_free (fun q k k' hq => absurd hq (freewalkLeaf_ne_ok k k' q)) h0
  unfold freewalk at h
  exact Table.frees_free (fun t1 k k' h1 => Table.frees_free hleaf h1) h

lemma frees_uvmfree {sz : Nat} (h : uvmfree k pt sz = .ok k') : OnlyFrees k k' := by
  unfold uvmfree at h
  dsimp only at h
  split at h
  · obtain ⟨⟨k1, pt1⟩, hun, h⟩ := bind_ok h
    exact (frees_uvmunmap hun).trans (frees_freewalk h)
  · exact frees_freewalk h

lemma frees_procFreepagetable {sz : Nat} (h : procFreepagetable k pt sz = .ok k') : OnlyFrees k k' := by
  obtain ⟨⟨k1, pt1⟩, h1, h⟩ := bind_ok h
  obtain ⟨⟨k2, pt2⟩, h2, h⟩ := bind_ok h
  exact ((frees_uvmunmap h1).trans (frees_uvmunmap h2)).trans (frees_uvmfree h)

lemma frees_freeMmapLoop {c va : Nat} (h : freeMmapLoop c k pt va = .ok (k', pt')) : OnlyFrees k k' := by
  induction c generalizing k pt va with
  | zero =>
    cases h
    exact OnlyFrees.refl _
  | succ c ih =>
    obtain ⟨pa, -, h⟩ := bind_ok h
    split at h
    · obtain ⟨⟨k1, pt1⟩, hun, h⟩ := bind_ok h
      exact (frees_uvmunmap hun).trans (ih h)
    · exact ih h

lemma frees_freeproc {p q : Proc} (h : freeproc k p = .ok (k', q)) : OnlyFrees k k' := by
  unfold freeproc at h
  obtain ⟨⟨k1, o⟩, hmmap, h⟩ := bind_ok h
  obtain ⟨k2, hpt, h⟩ := bind_ok h
  cases h
  have htf : OnlyFrees k (freeTrapframe k p.trapframe) := by
    cases p.trapframe with
    | none => exact OnlyFrees.refl k
    | some tf => exact OnlyFrees.kfree k tf
  have hregion : OnlyFrees (freeTrapframe k p.trapframe) k1 := by
    unfold freeMmap at hmmap
    split at hmmap
    · obtain ⟨pt, -, hmmap⟩ := bind_ok hmmap
      obtain ⟨⟨k3, pt3⟩, hloop, hmmap⟩ := bind_ok hmmap
      cases hmmap
      exact frees_freeMmapLoop hloop
    · cases hmmap
      exact OnlyFrees.refl _
  refine (htf.trans hregion).trans ?_
  cases o with
  | none =>
    cases hpt
    exact OnlyFrees.refl _
  | some pt => exact frees_procFreepagetable hpt

lemma frees_uvmdealloc {oldsz newsz r : Nat} (h : uvmdealloc k pt oldsz newsz = .ok (r, k', pt')) :
    OnlyFrees k k' := by
  unfold uvmdealloc at h
  split at h
  · cases h
    exact OnlyFrees.refl _
  · split at h
    · obtain ⟨⟨k1, pt1⟩, hun, h⟩ := bind_ok h
      cases h
      exact frees_uvmunmap hun
    · cases h
      exact OnlyFrees.refl _

/-! ### Copying a heap of any size -/

section

variable {old new new' npt : Pagetable} {ntf a : Nat} {f : Nat → Option Pte} {b : Bool}

/-- The loop of `uvmcopy` may be run in two parts. -/
lemma uvmcopyLoop_add {c c' : Nat} (hac : a + c ≤ 2 ^ 26) (k : Kmem) (new : Pagetable) :
    uvmcopyLoop old (c + c') k new (a * pgsize) = uvmcopyLoop old c k new (a * pgsize) >>= fun r =>
      if r.1 then uvmcopyLoop old c' r.2.1 r.2.2 ((a + c) * pgsize) else pure r := by
  induction c generalizing k new a with
  | zero =>
    rw [Nat.zero_add]
    rfl
  | succ c ih =>
    have hsum : a + (c + 1) = a + 1 + c := by omega
    rw [Nat.add_right_comm, uvmcopyLoop_succ (by omega), uvmcopyLoop_succ (by omega), hsum]
    cases hq : old.leaf a with
    | none => exact ih (by omega) k new
    | some q =>
      dsimp only
      split
      · next k1 hk =>
        cases uvmunmap k1 new 0 a true <;> rfl
      · next mem k1 hk =>
        cases hm : mappages (k1.setPage mem (k1.page q.pa)) new (a * pgsize) pgsize mem q.perm with
        | error e => rfl
        | ok r =>
          obtain ⟨b, k2, new2⟩ := r
          cases b with
          | true => exact ih (by omega) k2 new2
          | false =>
            rw [ok_bind, ok_bind]
            dsimp only
            cases uvmunmap (k2.kfree mem) new2 0 a true <;> rfl

/-- `uvmcopy` of a heap of any size. The trapframe of the child is in the way of a heap that reaches
`TRAPFRAME`. -/
lemma uvmcopy_any {sz : Nat} (hblank : Blank tramp ntf new.leaf) (ht : Top tramp tf old.leaf)
    (hR : ∀ m q, m < tfPage → old.leaf m = some q → q.pa ∈ R) (hB : k.Books V (R + new.refs))
    (hnodup : new.refs.Nodup) (hfresh : ∀ x ∈ R, x ∉ new.refs)
    (h : uvmcopy k old new sz = .ok (b, k', new')) :
    k'.Books V (R + new'.refs) ∧ (∀ x ∈ R, x ∉ new'.refs) ∧ (∀ x ∈ R, k'.page x = k.page x) ∧
      (if b then pages sz ≤ tfPage ∧ Copying V R old new.leaf k (pages sz) k' new'
        else new'.leaf = new.leaf) := by
  have htf := tfPage_eq
  by_cases hsz : pages sz ≤ tfPage
  · obtain ⟨b', k1, new1, hcopy, hB1, -, hfresh1, hdata1, hb⟩ := uvmcopy_ok hsz hblank hR hB hnodup hfresh
    rw [h] at hcopy
    cases hcopy
    refine ⟨hB1, hfresh1, hdata1, ?_⟩
    cases b with
    | true => exact ⟨hsz, hb⟩
    | false => exact hb
  · obtain ⟨c, hc⟩ : ∃ c, pages sz = tfPage + (c + 1) := ⟨pages sz - tfPage - 1, by omega⟩
    have hrounds : rounds 0 sz = tfPage + (c + 1) := hc
    have hstart : Copying V R old new.leaf k 0 k new :=
      ⟨fun m q hm => absurd hm (Nat.not_lt_zero m), fun m _ => rfl, hB, hnodup, hfresh, fun x _ => rfl⟩
    obtain ⟨b1, k1, new1, hloop, hB1, -, hfresh1, hdata1, hb⟩ :=
      uvmcopyLoop_ok (c := tfPage) (by omega) hblank.user hR hstart
    unfold uvmcopy at h
    rw [hrounds, ← Nat.zero_mul pgsize, uvmcopyLoop_add (by omega), hloop, ok_bind] at h
    cases b1 with
    | false =>
      cases h
      exact ⟨hB1, hfresh1, hdata1, hb⟩
    | true =>
      rw [if_pos rfl, Nat.zero_add] at hb
      rw [if_pos rfl, Nat.zero_add, uvmcopyLoop_succ (by omega), ht.trapframe] at h
      dsimp only at h
      split at h
      · next k2 hk =>
        obtain rfl := Kmem.kalloc_none hk
        obtain ⟨k3, new3, hun, hB3, -, hfresh3, hdata3, hleaf⟩ := hb.undo le_rfl (Trade.refl _ _ _) rfl
        rw [hun] at h
        cases h
        refine ⟨hB3, hfresh3, hdata3, ?_⟩
        rw [if_neg (by simp)]
        funext m
        rw [hleaf m]
        split
        · next hm => rw [hblank.user m hm]
        · exact hb.same m (Or.inl (by omega))
      · next mem k2 hk =>
        have hmapped : new1.leaf tfPage = some (pa2pte ntf (Perm.R.or .W)) := by
          rw [hb.same tfPage (Or.inl le_rfl), hblank.top.trapframe]
        rw [mappages_remap (by omega) hmapped] at h
        cases h

/-! ### Sharing an mmap region that may overlap the heap -/

/-- Above page `l` pages of the parent may have been mapped for the child, which had the entries `f`
and whose page-table pages are its own. -/
structure Borrowing (V : Arena) (R : Multiset Nat) (f : Nat → Option Pte) (l : Nat) (k₀ k : Kmem)
    (npt : Pagetable) : Prop where
  leaf : ∀ m q, npt.leaf m = some q → f m = some q ∨ l < m ∧ q.perm.u = true ∧ q.pa ≠ 0
  top : ∀ m, tfPage ≤ m → npt.leaf m = f m
  books : k.Books V (R + npt.refs)
  fresh : ∀ x ∈ R, x ∉ npt.nodes
  data : ∀ x ∈ R, k.page x = k₀.page x

namespace Borrowing

variable {l n : Nat} {q : Pte}

/-- `mappages` allocates page-table pages for the child. -/
lemma walked {p : Pte} (h : Borrowing V R f l k₀ k npt) (hmap : MappedPage V k npt n p b k' pt') :
    (∀ x ∈ R, x ∉ pt'.nodes) ∧ ∀ x ∈ R, k'.page x = k₀.page x := by
  have hB := h.books
  rw [Pagetable.refs, add_comm npt.nodes, ← add_assoc] at hB
  refine ⟨fun x hx => ?_, fun x hx => ?_⟩
  · exact hmap.trades.notMem hB (Multiset.mem_add.mpr (Or.inl hx)) (h.fresh x hx)
  · refine Eq.trans ?_ (h.data x hx)
    exact hmap.trades.data_eq hB (Multiset.mem_add.mpr (Or.inl hx)) (h.fresh x hx)

lemma failed {p : Pte} (h : Borrowing V R f l k₀ k npt) (hmap : MappedPage V k npt n p false k' pt') :
    Borrowing V R f l k₀ k' pt' := by
  have hleaf : pt'.leaf = npt.leaf := hmap.leaf
  obtain ⟨hfresh, hdata⟩ := h.walked hmap
  refine ⟨hleaf ▸ h.leaf, hleaf ▸ h.top, ?_, hfresh, hdata⟩
  have htr : k.Trades V k' npt.refs pt'.refs := by
    rw [Pagetable.refs, Pagetable.refs, hleaf]
    exact hmap.trades.frame _
  exact htr.accounts h.books

/-- One page of the parent is shared. -/
lemma cons (h : Borrowing V R f l k₀ k npt) (hln : l < n) (hn : n < tfPage) (hqR : q.pa ∈ R) (hpa : q.pa ≠ 0)
    (hmap : MappedPage V k npt n (pa2pte q.pa .rwu) true k' pt') :
    Borrowing V R f l k₀ (k'.krefpage q.pa) pt' := by
  have hleaf : pt'.leaf = Function.update npt.leaf n (some (pa2pte q.pa .rwu)) := hmap.leaf
  have haligned : (pa2pte q.pa .rwu).pa = q.pa := pa_pa2pte ⟨q.ppn, Nat.mul_comm _ _⟩ _
  obtain ⟨hfresh, hdata⟩ := h.walked hmap
  refine ⟨fun m p hp => ?_, fun m hm => ?_, ?_, hfresh, hdata⟩
  · by_cases hm : m = n
    · rw [hleaf, hm, Function.update_self] at hp
      obtain rfl := Option.some.inj hp
      refine Or.inr ⟨by omega, rfl, ?_⟩
      rwa [haligned]
    · rw [hleaf, Function.update_of_ne hm] at hp
      exact h.leaf m p hp
  · rw [hleaf, Function.update_of_ne (by omega)]
    exact h.top m hm
  · have htr := hmap.trades.frame (userPages npt.leaf)
    rw [← Pagetable.refs] at htr
    have hB := htr.accounts h.books
    have href := Kmem.books_krefpage hB (show q.pa ∈ _ from Multiset.mem_add.mpr (Or.inl hqR))
    rw [Pagetable.refs, hleaf, userPages_set hn (hmap.fresh rfl), cell_some, haligned]
    rw [add_left_comm] at href
    rwa [add_left_comm pt'.nodes]

/-- The loop of `kfork` over the mmap region, from page `l + c` down. -/
lemma loop {ppt : Pagetable} {c : Nat} (hc : l + c < tfPage)
    (hR : ∀ m q, m < tfPage → ppt.leaf m = some q → q.pa ∈ R) (h : Borrowing V R f l k₀ k npt)
    (hloop : shareMmapLoop ppt c k npt ((l + c + 1) * pgsize - pgsize) = .ok (b, k', pt')) :
    Borrowing V R f l k₀ k' pt' := by
  have htf := tfPage_eq
  induction c generalizing k npt with
  | zero =>
    cases hloop
    exact h
  | succ c ih =>
    rw [prev_page, shareMmapLoop, walkaddr_page k ppt (by omega), ok_bind] at hloop
    split at hloop
    · next hpa =>
      cases hq : ppt.leaf (l + (c + 1)) with
      | none =>
        rw [hq] at hpa
        exact absurd rfl hpa
      | some q =>
        have hu : q.perm.u = true := by
          by_contra hu
          rw [hq, Option.elim_some, if_neg hu] at hpa
          exact hpa rfl
        have hfound : (some q).elim 0 (fun q => if q.perm.u = true then q.pa else 0) = q.pa := if_pos hu
        rw [hq, hfound] at hpa hloop
        obtain ⟨⟨b1, k1, npt1⟩, hm, hloop⟩ := bind_ok hloop
        obtain ⟨-, hmap⟩ := mappages_ok (V := V) hm
        cases b1 with
        | false =>
          cases hloop
          exact h.failed hmap
        | true =>
          exact ih (by omega) (h.cons (by omega) (by omega) (hR _ q (by omega) hq) hpa hmap) hloop
    · exact ih (by omega) h hloop

end Borrowing

/-! ### A child that is not finished -/

/-- What a call that frees the slot `np` leaves of the pages that others refer to. -/
lemma freeproc_spares {np np' : Proc} (h : Reclaimable tramp np npt ntf) (hB : k.Books V (R + np.refs))
    (hfree : freeproc k np = .ok (k', np')) :
    k'.Books V R ∧ (∀ x ∈ R, k'.page x = k.page x) ∧ np' = np.cleared := by
  obtain ⟨k1, hok, hB1, -⟩ := freeproc_books h hB
  have hfrees := frees_freeproc hfree
  rw [hok] at hfree
  cases hfree
  exact ⟨hB1, fun x hx => hfrees.page x (hB1.notMem_free hx), rfl⟩

/-- The registers are copied to a page that nobody else refers to. -/
lemma copyTrapframe_spares {X : Multiset Nat} (tf : Nat) (hB : k.Books V (R + {ntf} + X)) (hfresh : ntf ∉ R) :
    (copyTrapframe k tf ntf).Books V (R + {ntf} + X) ∧
      ∀ x ∈ R, (copyTrapframe k tf ntf).page x = k.page x := by
  refine ⟨hB.congr rfl fun _ _ => rfl, fun x hx => ?_⟩
  have hne : x ≠ ntf := by
    rintro rfl
    exact hfresh hx
  exact Function.update_of_ne hne _ _

/-- The memory part of `kfork` fails: the slot is given up, and what others refer to is as it was. -/
lemma forkMemory_failed {p np np' : Proc} (hold : p.pagetable = some old) (htf : p.trapframe = some tf)
    (ht : Top tramp tf old.leaf) (hknown : ∀ x ∈ p.refs, x ∈ R) (hpt : np.pagetable = some npt)
    (hntf : np.trapframe = some ntf) (hblank : Blank tramp ntf npt.leaf) (hsz : np.sz = 0)
    (hhas : np.hasMmap = false) (hB : k.Books V (R + np.refs)) (hnodup : np.refs.Nodup)
    (hfresh : ∀ x ∈ R, x ∉ np.refs) (h : forkMemory k p np = .ok (false, k', np')) :
    k'.Books V R ∧ (∀ x ∈ R, k'.page x = k.page x) ∧ ∃ mmap, np' = { np with mmap := mmap }.cleared := by
  rw [Proc.refs_some hpt hntf] at hB hnodup hfresh
  have hntfR : ntf ∉ R := fun hx =>
    hfresh ntf hx (Multiset.mem_add.mpr (Or.inl (Multiset.mem_singleton_self ntf)))
  rw [Multiset.singleton_add, Multiset.nodup_cons] at hnodup
  rw [← add_assoc] at hB
  have hfresh' : ∀ x ∈ R + {ntf}, x ∉ npt.refs := by
    intro x hx hmem
    rcases Multiset.mem_add.mp hx with hx | hx
    · exact hfresh x hx (Multiset.mem_add.mpr (Or.inr hmem))
    · rw [Multiset.mem_singleton] at hx
      exact hnodup.1 (hx ▸ hmem)
  have hleaves : ∀ m q, m < tfPage → old.leaf m = some q → q.pa ∈ R + {ntf} := by
    intro m q hm hq
    refine Multiset.mem_add.mpr (Or.inl (hknown _ ?_))
    rw [Proc.refs_some hold htf]
    exact Multiset.mem_add.mpr (Or.inr (mem_refs hm hq))
  unfold forkMemory at h
  rw [hold, hpt] at h
  obtain ⟨_, hd, h⟩ := bind_ok h
  cases hd
  obtain ⟨_, hd, h⟩ := bind_ok h
  cases hd
  obtain ⟨⟨b, k1, npt1⟩, hcopy, h⟩ := bind_ok h
  obtain ⟨hB1, hfresh1, hdata1, hb⟩ := uvmcopy_any hblank ht hleaves hB hnodup.2 hfresh' hcopy
  have hin : ∀ x ∈ R, x ∈ R + {ntf} := fun x hx => Multiset.mem_add.mpr (Or.inl hx)
  dsimp only at h
  cases b with
  | false =>
    rw [if_neg (by simp)] at hb
    rw [Bool.not_false, if_pos rfl] at h
    have hgive : Freeable tramp { np with pagetable := some npt1 } npt1 ntf :=
      Blank.freeable (hb ▸ hblank) rfl hntf hsz hhas
    rw [add_assoc, ← Proc.refs_some (p := { np with pagetable := some npt1 }) rfl hntf] at hB1
    obtain ⟨⟨k2, q⟩, hfree, h⟩ := bind_ok h
    cases h
    obtain ⟨hB2, hdata2, rfl⟩ := freeproc_spares hgive.reclaimable hB1 hfree
    exact ⟨hB2, fun x hx => (hdata2 x hx).trans (hdata1 x (hin x hx)), np.mmap, rfl⟩
  | true =>
    obtain ⟨hsize, hb⟩ := hb
    rw [Bool.not_true, if_neg (by simp), htf, hntf] at h
    obtain ⟨_, hd, h⟩ := bind_ok h
    cases hd
    obtain ⟨_, hd, h⟩ := bind_ok h
    cases hd
    obtain ⟨hB2, hdata2⟩ := copyTrapframe_spares tf hB1 hntfR
    split at h
    · next hhasp =>
      obtain ⟨⟨shared, k3, npt3⟩, hloop, h⟩ := bind_ok h
      cases shared with
      | true => cases h
      | false =>
        obtain ⟨⟨k4, q⟩, hfree, h⟩ := bind_ok h
        cases h
        have hstart : Borrowing V (R + {ntf}) npt1.leaf p.low (copyTrapframe k1 tf ntf)
            (copyTrapframe k1 tf ntf) npt1 := by
          refine ⟨fun m q hq => Or.inl hq, fun m _ => rfl, hB2, fun x hx hmem => ?_, fun x _ => rfl⟩
          refine hfresh1 x hx ?_
          rw [Pagetable.refs]
          exact Multiset.mem_add.mpr (Or.inl hmem)
        rw [mmapRounds_eq, trapframeVa_eq] at hloop
        by_cases hlow : p.low < tfPage
        · have hsum : p.low + (tfPage - 1 - p.low) + 1 = tfPage := by omega
          have hsh := hstart.loop (c := tfPage - 1 - p.low) (by omega) hleaves (by rw [hsum]; exact hloop)
          have htop : Top tramp ntf npt3.leaf := hblank.top.congr fun m hm =>
            (hsh.top m hm).trans (hb.same m (Or.inl (by omega)))
          have hrec : Reclaimable tramp
              { np with sz := p.sz, mmap := p.mmap, hasMmap := true, pagetable := some npt3, trapframe := some ntf }
              npt3 ntf := by
            refine ⟨rfl, rfl, htop, hsize, fun m q hm hq => ?_⟩
            by_cases hheap : m < pages p.sz
            · exact Or.inl hheap
            · rcases hsh.leaf m q hq with hcopied | hshared
              · rw [hb.same m (Or.inl (by omega)), hblank.user m hm] at hcopied
                cases hcopied
              · exact Or.inr ⟨rfl, hshared⟩
          have hB3 := hsh.books
          rw [add_assoc, ← Proc.refs_some hrec.pagetable hrec.trapframe] at hB3
          obtain ⟨hB4, hdata4, rfl⟩ := freeproc_spares hrec hB3 hfree
          refine ⟨hB4, fun x hx => ?_, p.mmap, rfl⟩
          rw [hdata4 x hx, hsh.data x (hin x hx), hdata2 x hx, hdata1 x (hin x hx)]
        · -- the loop goes round no time
          rw [show tfPage - 1 - p.low = 0 by omega] at hloop
          cases hloop
    · cases h

end

/-! ### Growing a heap of any size -/

/-- The loop of `uvmalloc` writes to no page that was there before and still is. -/
lemma uvmallocLoop_page {s₀ a c x : Nat} {xperm : Perm} {b : Bool} (ha : a ≤ tfPage)
    (ht : Top tramp tf pt.leaf) (hB : k.Books V (R + pt.refs)) (hx : x ∈ R + userPages pt.leaf)
    (hnode : x ∉ pt.nodes) (hkept : x ∉ k'.freelist)
    (h : uvmallocLoop s₀ xperm c k pt (a * pgsize) = .ok (b, k', pt')) : k'.page x = k.page x := by
  have htf := tfPage_eq
  induction c generalizing k pt a with
  | zero =>
    cases h
    rfl
  | succ c ih =>
    have hall : x ∈ R + pt.refs := by
      rw [Pagetable.refs, Multiset.mem_add, Multiset.mem_add]
      exact (Multiset.mem_add.mp hx).imp_right Or.inr
    rw [uvmallocLoop] at h
    split at h
    · next k1 hk =>
      obtain rfl := Kmem.kalloc_none hk
      obtain ⟨⟨r, k2, pt2⟩, hd, h⟩ := bind_ok h
      cases h
      exact (frees_uvmdealloc hd).page x hkept
    · next mem k1 hk =>
      obtain ⟨⟨mapped, k2, pt2⟩, hm, h⟩ := bind_ok h
      obtain ⟨-, hmap⟩ := mappages_ok (V := V) hm
      have htake : k.Trades V (k1.fill mem 0) pt.refs ({mem} + pt.refs) := Kmem.trades_take hk _ _
      have hB1 := htake.accounts hB
      have hfresh : mem ∉ R + pt.refs := by
        refine hB.notMem_of_free ?_
        rw [show k.pool.free = mem :: k1.freelist from (Kmem.kalloc_some hk).1]
        exact List.mem_cons_self
      have hne : x ≠ mem := by
        rintro rfl
        exact hfresh hall
      have hfill : (k1.fill mem 0).page x = k.page x := by
        have hset : (k1.fill mem 0).page x = k1.page x := Function.update_of_ne hne _ _
        rw [hset, (Kmem.kalloc_some hk).2.1]
        exact Function.update_of_ne hne _ _
      rw [← add_assoc] at hB1
      have hpage : k2.page x = k.page x := by
        refine (hmap.page_eq hB1 ?_ hnode).trans hfill
        rw [add_right_comm]
        exact Multiset.mem_add.mpr (Or.inl hall)
      cases mapped with
      | false =>
        obtain ⟨⟨r, k3, pt3⟩, hd, h⟩ := bind_ok h
        cases h
        exact (((OnlyFrees.kfree k2 mem).trans (frees_uvmdealloc hd)).page x hkept).trans hpage
      | true =>
        have hfree := hmap.fresh rfl
        have hleaf : pt2.leaf = Function.update pt.leaf a (some _) := hmap.leaf
        have hlt : a < tfPage := by
          refine lt_of_le_of_ne ha fun heq => ?_
          rw [heq, ht.trapframe] at hfree
          cases hfree
        have ht2 : Top tramp tf pt2.leaf := by
          refine ht.congr fun m hm => ?_
          rw [hleaf, Function.update_of_ne (by omega)]
        have hB2 : k2.Books V (R + pt2.refs) := by
          rw [add_assoc] at hB1
          exact (hmap.trades_refs hlt).accounts hB1
        have hx2 : x ∈ R + userPages pt2.leaf := by
          rw [hleaf, userPages_set hlt hfree, add_left_comm]
          exact Multiset.mem_add.mpr (Or.inr hx)
        have hnode2 : x ∉ pt2.nodes := by
          rw [Pagetable.refs, add_comm pt.nodes, ← add_assoc] at hB1
          refine hmap.trades.notMem hB1 ?_ hnode
          rw [add_right_comm]
          exact Multiset.mem_add.mpr (Or.inl hx)
        rw [next_page] at h
        exact (ih hlt ht2 hB2 hx2 hnode2 h).trans hpage

/-- A failure of `uvmalloc`, for a heap of any size. -/
lemma uvmalloc_failed {oldsz newsz : Nat} {xperm : Perm} (ht : Top tramp tf pt.leaf)
    (hB : k.Books V (R + pt.refs)) (hnodup : pt.refs.Nodup)
    (h : uvmalloc k pt oldsz newsz xperm = .ok (0, k', pt')) :
    k.Trades V k' pt.refs pt'.refs ∧ pt'.leaf = pt.leaf ∧
      ∀ x ∈ R + userPages pt.leaf, x ∉ pt.nodes → k'.page x = k.page x := by
  have htf := tfPage_eq
  have hsame : k' = k → pt' = pt → k.Trades V k' pt.refs pt'.refs ∧ pt'.leaf = pt.leaf ∧
      ∀ x ∈ R + userPages pt.leaf, x ∉ pt.nodes → k'.page x = k.page x := by
    rintro rfl rfl
    exact ⟨Trade.refl _ _ _, rfl, fun _ _ _ => rfl⟩
  unfold uvmalloc at h
  split at h
  · next hlt =>
    cases h
    exact hsame rfl rfl
  next hle =>
  obtain ⟨m, hm⟩ : ∃ m, pgRoundUp oldsz = m * pgsize := ⟨_, rfl⟩
  rw [hm] at h
  obtain ⟨⟨b, k1, pt1⟩, hloop, h⟩ := bind_ok h
  obtain ⟨hret, h⟩ := Prod.mk.inj (pure_ok h)
  obtain ⟨rfl, rfl⟩ := Prod.mk.inj h
  cases b with
  | true =>
    -- only nothing can have grown to nothing
    have hnone : rounds (m * pgsize) newsz = 0 := by
      rw [show newsz = 0 from hret.symm]
      simp [rounds, pgsize]
    rw [hnone] at hloop
    cases hloop
    exact hsame rfl rfl
  | false =>
    by_cases hma : m ≤ tfPage
    · have hall := uvmallocLoop_ok (V := V) le_rfl hma ht hloop
      have hleaf : pt'.leaf = pt.leaf := by
        rw [hall.undone rfl, Nat.sub_self, cut_zero]
      refine ⟨hall.trades, hleaf, fun x hx hnode => ?_⟩
      refine uvmallocLoop_page hma ht hB hx hnode ?_ hloop
      refine (hall.trades.accounts hB).notMem_free ?_
      rw [Pagetable.refs, hleaf, Multiset.mem_add, Multiset.mem_add]
      exact (Multiset.mem_add.mp hx).imp_right Or.inr
    · -- no page can be mapped from `TRAPFRAME` on
      cases hc : rounds (m * pgsize) newsz with
      | zero =>
        rw [hc] at hloop
        cases hloop
      | succ c =>
        rw [hc, uvmallocLoop] at hloop
        split at hloop
        · next k2 hk =>
          obtain rfl := Kmem.kalloc_none hk
          obtain ⟨⟨r, k3, pt3⟩, hd, hloop⟩ := bind_ok hloop
          rw [uvmdealloc, if_pos le_rfl] at hd
          cases hd
          cases hloop
          exact hsame rfl rfl
        · next mem k2 hk =>
          obtain ⟨⟨mapped, k3, pt3⟩, hmap, -⟩ := bind_ok hloop
          obtain ⟨hlt, -⟩ := mappages_ok (V := V) hmap
          obtain rfl : m = tfPage + 1 := by omega
          rw [mappages_remap (by omega) ht.trampoline] at hmap
          cases hmap

/-! ### Nothing is lost -/

/-- The books of the allocator are right for what the kernel itself and the processes hold, and slots
that are not in use hold nothing. -/
structure Booked (V : Arena) (held : Multiset Nat) (s : State) : Prop where
  books : s.kmem.Books V (held + ∑ i, (s.proc i).refs)
  unused : ∀ i, (s.proc i).state = .UNUSED → (s.proc i).Vacant
  nextpid : 0 < s.nextpid

/-- Process `i` has a page table and a trapframe, and nothing else above its user pages. -/
structure Equipped (s : State) (i : Fin nproc) (pt : Pagetable) (tf : Nat) : Prop where
  used : (s.proc i).state ≠ .UNUSED
  pagetable : (s.proc i).pagetable = some pt
  trapframe : (s.proc i).trapframe = some tf
  top : Top s.trampoline tf pt.leaf
  nodup : (s.proc i).refs.Nodup

lemma Good.booked {floor : Nat} (h : Good floor V held s) (hpid : 0 < s.nextpid) : Booked V held s :=
  ⟨h.books, h.unused, hpid⟩

lemma Good.equipped {floor : Nat} (h : Good floor V held s) (hi : (s.proc i).state ≠ .UNUSED) :
    ∃ pt tf, Equipped s i pt tf := by
  obtain ⟨pt, tf, hsp⟩ := h.used i hi
  exact ⟨pt, tf, hi, hsp.pagetable, hsp.trapframe, hsp.top, h.nodup i⟩

lemma Booked.others_eq (h : Booked V held s) (hj : (s.proc j).state = .UNUSED) :
    others held s j = held + ∑ l, (s.proc l).refs := by
  rw [← others_add held s j, (h.unused j hj).refs, add_zero]

/-- What a process that is refused memory finds as it was: its size, which pages it maps and where, and
their contents and reference counts. Every page is free, or a process or the kernel itself holds it. -/
structure Spared (V : Arena) (held : Multiset Nat) (s : State) (i : Fin nproc) (pt : Pagetable) (tf : Nat)
    (t : State) : Prop where
  sz : (t.proc i).sz = (s.proc i).sz
  trapframe : (t.proc i).trapframe = some tf
  mapped : ∃ pt', (t.proc i).pagetable = some pt' ∧ pt'.leaf = pt.leaf
  page : ∀ x ∈ {tf} + userPages pt.leaf, t.kmem.page x = s.kmem.page x
  refCount : ∀ x ∈ {tf} + userPages pt.leaf, t.kmem.refCount (pa2idx x) = s.kmem.refCount (pa2idx x)
  booked : Booked V held t

/-- The first critical section of `kfork` fails. -/
lemma forkSlot_failed {pt : Pagetable} {tf : Nat} (h : Booked V held s) (he : Equipped s i pt tf)
    (hj : (s.proc j).state = .UNUSED) (hf : forkSlot s i j = .ok (false, t)) :
    t.kmem.Books V (others held s j) ∧ (∀ x ∈ others held s j, t.kmem.page x = s.kmem.page x) ∧
      (t.proc j).Vacant := by
  have hij : i ≠ j := fun heq => he.used (heq ▸ hj)
  have hvacant := h.unused j hj
  have hBs : s.kmem.Books V (others held s j + 0) := by
    rw [add_zero, h.others_eq hj]
    exact h.books
  unfold forkSlot at hf
  obtain ⟨⟨ready, u⟩, hinit, hf⟩ := bind_ok hf
  obtain ⟨q, hu, htr, hq⟩ := initSlot_slot (V := V) hvacant hinit
  have hself : u.proc j = q := by
    rw [hu]
    exact s.setProc_self j q
  have hother : u.proc i = s.proc i := by
    rw [hu]
    exact s.setProc_of_ne hij q
  have hB := htr.accounts hBs
  have hpage : ∀ x ∈ others held s j, u.kmem.page x = s.kmem.page x := fun x hx =>
    htr.data_eq hBs hx (Multiset.notMem_zero x)
  cases ready with
  | false =>
    obtain ⟨-, rfl⟩ := Prod.mk.inj (pure_ok hf)
    obtain rfl : q = ((s.proc j).started s.nextpid).cleared := hq
    have hcleared : ((s.proc j).started s.nextpid).cleared.Vacant := ⟨rfl, rfl, rfl⟩
    rw [hcleared.refs, add_zero] at hB
    exact ⟨hB, hpage, hself ▸ hcleared⟩
  | true =>
    obtain ⟨npt, ntf, hblank, hq⟩ := hq
    change forkCopy u (s.proc i) j = .ok (false, t) at hf
    unfold forkCopy at hf
    obtain ⟨⟨b, k, np⟩, hmem, hf⟩ := bind_ok hf
    cases b with
    | true =>
      obtain ⟨fileRef, -, hf⟩ := bind_ok hf
      obtain ⟨cwd, -, hf⟩ := bind_ok hf
      cases hf
    | false =>
      obtain ⟨-, rfl⟩ := Prod.mk.inj (pure_ok hf)
      rw [hself] at hmem
      have hknown : ∀ x ∈ (s.proc i).refs, x ∈ others held s j := fun x hx =>
        mem_others.mpr (Or.inr ⟨i, hij, hx⟩)
      obtain ⟨hB', hdata, mmap, rfl⟩ := forkMemory_failed he.pagetable he.trapframe he.top hknown
        (by rw [hq]) (by rw [hq]) hblank (by rw [hq]; exact hvacant.sz) (by rw [hq]; rfl) hB
        (htr.nodup hBs Multiset.nodup_zero) (fun x hx => htr.notMem hBs hx (Multiset.notMem_zero x)) hmem
      refine ⟨hB', fun x hx => (hdata x hx).trans (hpage x hx), ?_⟩
      change ((u.setProc j _).proc j).Vacant
      rw [State.setProc_self]
      exact ⟨rfl, rfl, rfl⟩

/-- Every page is free, or the kernel itself or a process that is in use holds it. -/
lemma Booked.owned (h : Booked V held s) {x : Nat} (hx : x ∈ V.pages) :
    x ∈ s.kmem.freelist ∨ x ∈ held ∨ ∃ j, (s.proc j).state ≠ .UNUSED ∧ x ∈ (s.proc j).refs := by
  by_cases hmem : x ∈ held + ∑ j, (s.proc j).refs
  · rw [Multiset.mem_add, Multiset.mem_sum] at hmem
    rcases hmem with hheld | ⟨j, -, hj⟩
    · exact Or.inr (Or.inl hheld)
    · refine Or.inr (Or.inr ⟨j, fun hunused => ?_, hj⟩)
      rw [(h.unused j hunused).refs] at hj
      exact absurd hj (Multiset.notMem_zero x)
  · exact Or.inl ((h.books.mem_free x).mpr ⟨hx, hmem⟩)

section

variable {pt : Pagetable} {tf : Nat}

lemma Equipped.refs (h : Equipped s i pt tf) : (s.proc i).refs = {tf} + pt.refs :=
  Proc.refs_some h.pagetable h.trapframe

lemma Equipped.mem_refs {x : Nat} (h : Equipped s i pt tf) (hx : x ∈ {tf} + userPages pt.leaf) :
    x ∈ (s.proc i).refs := by
  rw [h.refs, Pagetable.refs, Multiset.mem_add, Multiset.mem_add]
  exact (Multiset.mem_add.mp hx).imp_right Or.inr

lemma Equipped.spared_self (h : Equipped s i pt tf) (hs : Booked V held s) : Spared V held s i pt tf s :=
  ⟨rfl, h.trapframe, ⟨pt, h.pagetable, rfl⟩, fun _ _ => rfl, fun _ _ => rfl, hs⟩

/-- `kfork` gives up. -/
lemma kfork_spared (h : Booked V held s) (he : Equipped s i pt tf) (hf : kfork s i = .ok (-1, t)) :
    Spared V held s i pt tf t ∧ t.kmem.freelist.length = s.kmem.freelist.length := by
  rcases kfork_cases hf with ⟨-, rfl⟩ | ⟨j, done, u, hj, hslot, hdone⟩
  · exact ⟨he.spared_self h, rfl⟩
  · obtain ⟨hothers, -, hnext, -, hlife⟩ := forkSlot_ok hslot
    cases done with
    | true =>
      -- the child has a positive pid
      have hpos := h.nextpid
      obtain ⟨-, -, hpid⟩ := hlife
      obtain ⟨hret, -⟩ := hdone
      omega
    | false =>
      obtain ⟨-, rfl⟩ := hdone
      have hij : i ≠ j := fun heq => he.used (heq ▸ hj)
      obtain ⟨hB, hpage, hvacant⟩ := forkSlot_failed h he hj hslot
      have hself := hothers i hij
      have hknown : ∀ x ∈ {tf} + userPages pt.leaf, x ∈ others held s j := fun x hx =>
        mem_others.mpr (Or.inr ⟨i, hij, he.mem_refs hx⟩)
      have hBs := h.books
      rw [← h.others_eq hj] at hBs
      refine ⟨⟨by rw [hself], by rw [hself]; exact he.trapframe, ⟨pt, by rw [hself]; exact he.pagetable, rfl⟩,
        fun x hx => hpage x (hknown x hx), fun x hx => ?_, ?_, fun l hl => ?_, ?_⟩, (hBs.free_perm hB).length_eq⟩
      · exact (hB.count_eq x (hknown x hx)).trans (hBs.count_eq x (hknown x hx)).symm
      · rw [← others_add held t j, hvacant.refs, add_zero, others_congr hothers]
        exact hB
      · by_cases hlj : l = j
        · exact hlj ▸ hvacant
        · rw [hothers l hlj] at hl ⊢
          exact h.unused l hl
      · have hpid := h.nextpid
        omega

/-- Trapframe and user pages are no page-table pages. -/
lemma notMem_nodes {x : Nat} (htf : tf ∉ pt.refs) (hnodup : pt.refs.Nodup)
    (hx : x ∈ {tf} + userPages pt.leaf) : x ∉ pt.nodes := by
  intro hnode
  rw [Pagetable.refs] at htf hnodup
  rcases Multiset.mem_add.mp hx with hx | hx
  · rw [Multiset.mem_singleton] at hx
    exact htf (Multiset.mem_add.mpr (Or.inl (hx ▸ hnode)))
  · exact Multiset.disjoint_left.mp (Multiset.nodup_add.mp hnodup).2.2 hnode hx

/-- The page table as a failure of `uvmalloc` leaves it. -/
lemma Equipped.spared_repaged {pt' : Pagetable} {k : Kmem} {newsz : Nat} {xperm : Perm} (h : Booked V held s)
    (he : Equipped s i pt tf) (halloc : uvmalloc s.kmem pt (s.proc i).sz newsz xperm = .ok (0, k, pt')) :
    Spared V held s i pt tf (s.repaged i pt' k) := by
  have hnodup := he.nodup
  rw [he.refs, Multiset.singleton_add, Multiset.nodup_cons] at hnodup
  obtain ⟨htf, hnodup⟩ := hnodup
  have hB : s.kmem.Books V (others held s i + {tf} + pt.refs) := by
    rw [add_assoc, ← he.refs, others_add]
    exact h.books
  obtain ⟨htr, hleaf, hpage⟩ := uvmalloc_failed he.top hB hnodup halloc
  have hB' := htr.accounts hB
  have hnodup' := htr.nodup hB hnodup
  have htf' : tf ∉ pt'.refs := htr.notMem hB (by simp) htf
  have hself : (s.repaged i pt' k).proc i = { s.proc i with pagetable := some pt' } := s.repaged_self i pt' k
  have hother : ∀ l, l ≠ i → (s.repaged i pt' k).proc l = s.proc l := fun l hl => s.setProc_of_ne hl _
  have hrefs : ((s.repaged i pt' k).proc i).refs = {tf} + pt'.refs := by
    rw [hself]
    exact Proc.refs_some rfl he.trapframe
  have hknown : ∀ x ∈ {tf} + userPages pt.leaf, x ∈ others held s i + {tf} + userPages pt.leaf := by
    intro x hx
    rw [add_assoc]
    exact Multiset.mem_add.mpr (Or.inr hx)
  refine ⟨by rw [hself], by rw [hself]; exact he.trapframe, ⟨pt', by rw [hself], hleaf⟩, fun x hx => ?_,
    fun x hx => ?_, ?_, fun l hl => ?_, h.nextpid⟩
  · exact hpage x (hknown x hx) (notMem_nodes htf hnodup hx)
  · have hnode := notMem_nodes htf hnodup hx
    have hnode' : x ∉ pt'.nodes := notMem_nodes htf' hnodup' (hleaf ▸ hx)
    have hmem : x ∈ others held s i + {tf} + pt.refs := by
      rw [add_assoc, ← he.refs]
      exact Multiset.mem_add.mpr (Or.inr (he.mem_refs hx))
    have hmem' : x ∈ others held s i + {tf} + pt'.refs := by
      rw [Pagetable.refs, hleaf, add_left_comm]
      exact Multiset.mem_add.mpr (Or.inr (hknown x hx))
    refine (hB'.count_eq x hmem').trans (Eq.trans ?_ (hB.count_eq x hmem).symm)
    have hcount : ∀ {q : Pagetable}, x ∉ q.nodes → Multiset.count x (others held s i + {tf} + q.refs) =
        Multiset.count x (others held s i + {tf} + userPages q.leaf) := by
      intro q hq
      rw [Pagetable.refs, add_left_comm, Multiset.count_add, Multiset.count_eq_zero.mpr hq, zero_add]
    rw [hcount hnode', hcount hnode, hleaf]
  · rw [← others_add held (s.repaged i pt' k) i, hrefs, others_congr hother, ← add_assoc]
    exact hB'
  · have hli : l ≠ i := by
      rintro rfl
      rw [hself] at hl
      exact he.used hl
    rw [hother l hli] at hl ⊢
    exact h.unused l hl

/-- `growproc` gives up. -/
lemma growproc_spared {n : Int} (h : Booked V held s) (he : Equipped s i pt tf)
    (hg : growproc s i n = .ok (-1, t)) : Spared V held s i pt tf t := by
  unfold growproc at hg
  dsimp only at hg
  rw [he.pagetable] at hg
  split at hg
  · obtain ⟨_, hd, hg⟩ := bind_ok hg
    cases hd
    obtain ⟨⟨sz, k, pt'⟩, halloc, hg⟩ := bind_ok hg
    dsimp only at hg
    split at hg
    · next hzero =>
      subst hzero
      obtain ⟨-, rfl⟩ := Prod.mk.inj (pure_ok hg)
      exact he.spared_repaged h halloc
    · cases hg
  · split at hg
    · obtain ⟨_, -, hg⟩ := bind_ok hg
      obtain ⟨⟨sz, k, pt'⟩, -, hg⟩ := bind_ok hg
      cases hg
    · cases hg

end

/-- When `kfork` or `growproc` returns -1, the caller has its memory as before, and every page is free or
has an owner; `kfork` leaves as many free pages as there were. -/
theorem shortage_loses_nothing {pt : Pagetable} {tf : Nat} (h : Booked V held s) (he : Equipped s i pt tf) :
    (∀ t, kfork s i = .ok (-1, t) ∨ (∃ n, growproc s i n = .ok (-1, t)) →
      Spared V held s i pt tf t ∧ ∀ x ∈ V.pages,
        x ∈ t.kmem.freelist ∨ x ∈ held ∨ ∃ j, (t.proc j).state ≠ .UNUSED ∧ x ∈ (t.proc j).refs) ∧
    ∀ t, kfork s i = .ok (-1, t) → t.kmem.freelist.length = s.kmem.freelist.length := by
  constructor
  · rintro t (hf | ⟨n, hg⟩)
    · have hspared := (kfork_spared h he hf).1
      exact ⟨hspared, fun x hx => hspared.booked.owned hx⟩
    · have hspared := growproc_spared h he hg
      exact ⟨hspared, fun x hx => hspared.booked.owned hx⟩
  · intro t hf
    exact (kfork_spared h he hf).2

/-- The theorem where seven pages are left, for a fork and for a growth by 100 pages. -/
theorem shortage_loses_nothing_scarce : ∃ t u, kfork scarceMaps 0 = .ok (-1, t) ∧
    growproc scarceMaps 0 409600 = .ok (-1, u) ∧ t.kmem.freelist.length = 7 ∧
    (t.proc 0).sz = 12288 ∧ (u.proc 0).sz = 12288 ∧
    ∀ x ∈ (freshArena 17).pages, x ∈ u.kmem.freelist ∨ ∃ j, (u.proc j).state ≠ .UNUSED ∧ x ∈ (u.proc j).refs := by
  have hfacts : (scarceMaps.proc 0).state ≠ .UNUSED ∧ 0 < scarceMaps.nextpid ∧ (scarceMaps.proc 0).sz = 12288 ∧
      scarceMaps.kmem.freelist.length = 7 ∧ (kfork scarceMaps 0).isOk = true ∧
      (returned (kfork scarceMaps 0)).1 = -1 ∧ (growproc scarceMaps 0 409600).isOk = true ∧
      (returned (growproc scarceMaps 0 409600)).1 = -1 := by
    decide +kernel
  obtain ⟨hused, hpid, hsz, hfree, hforkOk, hforkRet, hgrowOk, hgrowRet⟩ := hfacts
  obtain ⟨pt, tf, he⟩ := good_scarceMaps.equipped hused
  have hfork : kfork scarceMaps 0 = .ok (-1, _) := eq_ok_pair hforkOk hforkRet
  have hgrow : growproc scarceMaps 0 409600 = .ok (-1, _) := eq_ok_pair hgrowOk hgrowRet
  obtain ⟨hall, hlen⟩ := shortage_loses_nothing (good_scarceMaps.booked hpid) he
  have hforked := (hall _ (Or.inl hfork)).1
  obtain ⟨hgrown, howned⟩ := hall _ (Or.inr ⟨_, hgrow⟩)
  refine ⟨_, _, hfork, hgrow, (hlen _ hfork).trans hfree, hforked.sz.trans hsz, hgrown.sz.trans hsz,
    fun x hx => (howned x hx).imp_right fun hheld => hheld.resolve_left (Multiset.notMem_zero x)⟩

end FogOS.Kernel
