import FogOS.Kernel.Space
import FogOS.Kernel.Proc

/-!
# Page tables of processes

What `proc_pagetable` and `proc_freepagetable` of `kernel/proc.c` and the loops of `freeproc` and
`kfork` over the mmap region do to an address space and to the references it holds.
-/

namespace FogOS.Kernel

open ByteMem Ledger

variable {V : Arena} {k k' : Kmem} {pt pt' : Pagetable} {tramp tf : Nat}

lemma trapframeVa_eq : trapframeVa = tfPage * pgsize := by
  rw [tfPage_eq]
  decide

lemma trampolineVa_eq : trampolineVa = (tfPage + 1) * pgsize := by
  rw [tfPage_eq]
  decide

/-! ### A new page table -/

lemma leaf_zero (addr n : Nat) : Pagetable.leaf (Table.zero addr) n = none := by
  unfold Pagetable.leaf
  split <;> rfl

lemma refs_zero (addr : Nat) : Pagetable.refs (Table.zero addr) = {addr} := by
  rw [Pagetable.refs, userPages_none (leaf_zero addr), add_zero, Pagetable.nodes, Table.nodes_zero]

lemma uvmcreate_ok {r : Option Pagetable} (h : uvmcreate k = (r, k')) :
    (r = none ∧ k' = k) ∨ ∃ pt, r = some pt ∧ (∀ n, pt.leaf n = none) ∧ k.Trades V k' 0 pt.refs := by
  unfold uvmcreate at h
  split at h
  · next hk =>
    obtain ⟨rfl, rfl⟩ := Prod.mk.inj h
    exact Or.inl ⟨rfl, Kmem.kalloc_none hk⟩
  · next pa k1 hk =>
    obtain ⟨rfl, rfl⟩ := Prod.mk.inj h
    refine Or.inr ⟨_, rfl, leaf_zero pa, ?_⟩
    have htake := Kmem.trades_take (V := V) hk (fun _ => 0) 0
    rwa [add_zero, ← refs_zero pa] at htake

/-- A page from `TRAPFRAME` on is mapped: the page table does not hold it. -/
lemma MappedPage.trades_above {n : Nat} {q : Pte} {b : Bool} (h : MappedPage V k pt n q b k' pt')
    (hn : tfPage ≤ n) : k.Trades V k' pt.refs pt'.refs := by
  have hpages : userPages pt'.leaf = userPages pt.leaf := by
    rw [h.leaf]
    split
    · exact userPages_above hn _
    · rfl
  rw [Pagetable.refs, Pagetable.refs, hpages]
  exact h.trades.frame _

/-- One page is unmapped. -/
lemma uvmunmap_one {n : Nat} (hn : n < 2 ^ 26) (k : Kmem) (pt : Pagetable) (doFree : Bool) :
    ∃ k' pt', uvmunmap k pt (n * pgsize) 1 doFree = .ok (k', pt') ∧
      ∀ V, Unmapped V k pt n 1 doFree k' pt' := by
  rw [uvmunmap_page (by omega)]
  obtain ⟨k', pt', h⟩ := uvmunmapLoop_total (d := doFree) (a := n) (c := 1) (by omega) k pt
  exact ⟨k', pt', h, fun V => uvmunmapLoop_ok h⟩

/-- A page from `TRAPFRAME` on is unmapped, and not freed. -/
lemma uvmunmap_above {n : Nat} (hn : tfPage ≤ n) (hlt : n < 2 ^ 26) (k : Kmem) (pt : Pagetable) :
    ∃ pt', uvmunmap k pt (n * pgsize) 1 false = .ok (k, pt') ∧ pt'.refs = pt.refs ∧
      pt'.leaf = cut pt.leaf n 1 := by
  obtain ⟨k', pt', h, hun⟩ := uvmunmap_one hlt k pt false
  have hun := hun ⟨∅, by simp⟩
  obtain rfl := hun.kept rfl
  refine ⟨pt', h, ?_, hun.leaf⟩
  rw [Pagetable.refs, Pagetable.refs, hun.nodes, hun.leaf, cut_succ, cut_zero, userPages_above hn]

/-- The map without its top. -/
def below (f : Nat → Option Pte) : Nat → Option Pte := fun m => if m < tfPage then f m else none

/-- The first steps of `proc_freepagetable` take the top away. -/
lemma procFreepagetable_eq (ht : Top tramp tf pt.leaf) (k : Kmem) (sz : Nat) :
    ∃ pt', procFreepagetable k pt sz = uvmfree k pt' sz ∧ pt'.refs = pt.refs ∧
      pt'.leaf = below pt.leaf := by
  have htf := tfPage_eq
  obtain ⟨pt1, h1, hrefs1, hleaf1⟩ := uvmunmap_above (n := tfPage + 1) (by omega) (by omega) k pt
  obtain ⟨pt2, h2, hrefs2, hleaf2⟩ := uvmunmap_above (n := tfPage) (by omega) (by omega) k pt1
  refine ⟨pt2, ?_, hrefs2.trans hrefs1, ?_⟩
  · unfold procFreepagetable
    rw [trampolineVa_eq, h1, ok_bind]
    dsimp only
    rw [trapframeVa_eq, h2, ok_bind]
  · rw [hleaf2, hleaf1]
    funext m
    have habove := ht.above m
    unfold cut below
    grind

/-- `proc_freepagetable` gives back everything the page table refers to. -/
lemma trades_procFreepagetable {sz : Nat} (ht : Top tramp tf pt.leaf) (hsz : pages sz ≤ 2 ^ 26)
    (h : procFreepagetable k pt sz = .ok k') : k.Trades V k' pt.refs 0 := by
  obtain ⟨pt', heq, hrefs, hleaf⟩ := procFreepagetable_eq ht k sz
  rw [heq] at h
  rw [← hrefs]
  refine trades_uvmfree hsz (fun m hm => ?_) h
  rw [hleaf, below, if_neg (by omega)]

/-- `proc_freepagetable` returns exactly when no user page is mapped from `sz` on. -/
lemma procFreepagetable_iff {sz : Nat} (ht : Top tramp tf pt.leaf) (hsz : pages sz ≤ 2 ^ 26)
    (k : Kmem) : (∃ k', procFreepagetable k pt sz = .ok k') ↔
      ∀ m, pages sz ≤ m → m < tfPage → pt.leaf m = none := by
  obtain ⟨pt', heq, -, hleaf⟩ := procFreepagetable_eq ht k sz
  rw [heq, uvmfree_iff hsz, hleaf]
  unfold below
  constructor
  · intro h m hm hlt
    have := h m hm
    rwa [if_pos hlt] at this
  · intro h m hm
    split
    · next hlt => exact h m hm hlt
    · rfl

/-- What `proc_pagetable` returns: no user memory, but trampoline and trapframe pages. -/
structure Blank (tramp tf : Nat) (f : Nat → Option Pte) : Prop where
  top : Top tramp tf f
  user : ∀ m < tfPage, f m = none

lemma procPagetable_ok {r : Option Pagetable} (h : procPagetable k tramp tf = .ok (r, k')) :
    match r with
    | none => k.Trades V k' 0 0
    | some pt => k.Trades V k' 0 pt.refs ∧ Blank tramp tf pt.leaf := by
  have htf := tfPage_eq
  unfold procPagetable at h
  split at h
  · next k1 hk =>
    obtain ⟨rfl, rfl⟩ := Prod.mk.inj (pure_ok h)
    rcases uvmcreate_ok (V := V) hk with ⟨-, rfl⟩ | ⟨pt, hpt, -⟩
    · exact Trade.refl _ _ _
    · cases hpt
  · next pt0 k1 hk =>
    obtain ⟨pt, hpt, hnone, htake⟩ := (uvmcreate_ok (V := V) hk).resolve_left (by simp)
    cases hpt
    rw [trampolineVa_eq, trapframeVa_eq] at h
    obtain ⟨⟨b1, k2, pt1⟩, hmap1, h⟩ := bind_ok h
    obtain ⟨-, hm1⟩ := mappages_ok (V := V) hmap1
    have htr1 := htake.trans (hm1.trades_above (by omega))
    have hleaf1 := hm1.leaf
    cases b1 with
    | false =>
      obtain ⟨k3, hfree, h⟩ := bind_ok h
      obtain ⟨rfl, rfl⟩ := Prod.mk.inj (pure_ok h)
      refine htr1.trans (trades_uvmfree (by decide) (fun m _ => ?_) hfree)
      rw [hleaf1]
      exact hnone m
    | true =>
      obtain ⟨⟨b2, k3, pt2⟩, hmap2, h⟩ := bind_ok h
      obtain ⟨-, hm2⟩ := mappages_ok (V := V) hmap2
      have htr2 := htr1.trans (hm2.trades_above le_rfl)
      have hleaf2 := hm2.leaf
      rw [if_pos rfl] at hleaf1
      cases b2 with
      | false =>
        obtain ⟨pt3, hun, hrefs3, hleaf3⟩ := uvmunmap_above (n := tfPage + 1) (by omega) (by omega) k3 pt2
        obtain ⟨⟨k4, pt4⟩, hun', h⟩ := bind_ok h
        rw [hun] at hun'
        cases hun'
        obtain ⟨k5, hfree, h⟩ := bind_ok h
        obtain ⟨rfl, rfl⟩ := Prod.mk.inj (pure_ok h)
        rw [← hrefs3] at htr2
        refine htr2.trans (trades_uvmfree (by decide) (fun m hm => ?_) hfree)
        simp only [hleaf3, hleaf2, hleaf1, cut]
        split
        · rfl
        · rw [if_neg (by simp), Function.update_of_ne (by omega)]
          exact hnone m
      | true =>
        obtain ⟨rfl, rfl⟩ := Prod.mk.inj (pure_ok h)
        refine ⟨htr2, ⟨⟨?_, ?_, fun m hm => ?_⟩, fun m hm => ?_⟩⟩ <;>
          rw [hleaf2, if_pos rfl, hleaf1]
        · rw [Function.update_self]
        · rw [Function.update_of_ne (by omega), Function.update_self]
        · rw [Function.update_of_ne (by omega), Function.update_of_ne (by omega)]
          exact hnone m
        · rw [Function.update_of_ne (by omega), Function.update_of_ne (by omega)]
          exact hnone m

/-! ### The mmap region -/

/-- The entries of the mmap region can be found by `walkaddr`. -/
def Seen (f : Nat → Option Pte) (a c : Nat) : Prop :=
  ∀ m q, a ≤ m → m < a + c → f m = some q → q.perm.u = true ∧ q.pa ≠ 0

lemma prev_page {a : Nat} : (a + 1) * pgsize - pgsize = a * pgsize := by
  rw [Nat.succ_mul, Nat.add_sub_cancel]

/-- The loop of `freeproc` over the mmap region, from page `a + c - 1` down to page `a`: it unmaps the
pages that it sees. -/
lemma freeMmapLoop_ok {a c : Nat} (hac : a + c ≤ tfPage) (k : Kmem) (pt : Pagetable) :
    ∃ k' pt', freeMmapLoop c k pt ((a + c) * pgsize - pgsize) = .ok (k', pt') ∧
      (∀ m, pt'.leaf m = pt.leaf m ∨ pt'.leaf m = none) ∧
      (∀ m, m < a ∨ a + c ≤ m → pt'.leaf m = pt.leaf m) ∧
      (∀ m q, a ≤ m → m < a + c → pt'.leaf m = some q → ¬ (q.perm.u = true ∧ q.pa ≠ 0)) ∧
      ∀ V, k.Trades V k' pt.refs pt'.refs := by
  have htf := tfPage_eq
  induction c generalizing k pt with
  | zero =>
    exact ⟨k, pt, rfl, fun m => Or.inl rfl, fun m _ => rfl, fun m q ham hmc => by omega,
      fun V => Trade.refl _ _ _⟩
  | succ c ih =>
    rw [← add_assoc, prev_page, freeMmapLoop, walkaddr_page k pt (by omega), ok_bind]
    by_cases hpa : (pt.leaf (a + c)).elim 0 (fun q => if q.perm.u = true then q.pa else 0) = 0
    · -- the page is passed over
      rw [if_neg (not_not.mpr hpa)]
      obtain ⟨k', pt', hloop, hsome, hout, hin, htr⟩ := ih (by omega) k pt
      refine ⟨k', pt', hloop, hsome, fun m hm => hout m (by omega), fun m q ham hmc hq => ?_, htr⟩
      by_cases hm : m = a + c
      · rw [hm, hout (a + c) (Or.inr le_rfl)] at hq
        rw [hq, Option.elim_some] at hpa
        rintro ⟨hu, hne⟩
        rw [if_pos hu] at hpa
        exact hne hpa
      · exact hin m q ham (by omega) hq
    · rw [if_pos hpa]
      obtain ⟨k1, pt1, hun, hone⟩ := uvmunmap_one (n := a + c) (by omega) k pt true
      have hleaf1 := (hone ⟨∅, by simp⟩).leaf
      obtain ⟨k', pt', hloop, hsome, hout, hin, htr⟩ := ih (by omega) k1 pt1
      refine ⟨k', pt', ?_, fun m => ?_, fun m hm => ?_, fun m q ham hmc hq => ?_, fun V => ?_⟩
      · rw [hun, ok_bind]
        exact hloop
      · rcases hsome m with heq | hnone
        · rw [heq, hleaf1, cut]
          split
          · exact Or.inr rfl
          · exact Or.inl rfl
        · exact Or.inr hnone
      · rw [hout m (by omega), hleaf1, cut, if_neg (by omega)]
      · by_cases hm : m = a + c
        · rw [hm, hout (a + c) (Or.inr le_rfl), hleaf1, cut, if_pos (by omega)] at hq
          cases hq
        · exact hin m q ham (by omega) hq
      · exact ((hone V).trades rfl fun m hm hlt => by omega).trans (htr V)

/-! ### Freeing a process -/

/-- The page number of `p->mmap`. -/
def Proc.low (p : Proc) : Nat := p.mmap / pgsize

/-- The references a process holds. -/
noncomputable def Proc.refs (p : Proc) : Multiset Nat :=
  (p.trapframe.elim 0 fun tf => {tf}) + p.pagetable.elim 0 Pagetable.refs

lemma Proc.refs_some {p : Proc} (hpt : p.pagetable = some pt) (htf : p.trapframe = some tf) :
    p.refs = {tf} + pt.refs := by
  rw [Proc.refs, hpt, htf]
  rfl

lemma mmapRounds_eq (p : Proc) : mmapRounds p.mmap = tfPage - 1 - p.low := by
  rw [mmapRounds, trapframeVa_eq, Nat.mul_div_cancel _ (by decide)]
  rfl

/-- An address space that `freeproc` can take down: user pages are in the heap or, where
`freeproc` sees them, in the mmap region. -/
structure Freeable (tramp : Nat) (p : Proc) (pt : Pagetable) (tf : Nat) : Prop where
  pagetable : p.pagetable = some pt
  trapframe : p.trapframe = some tf
  top : Top tramp tf pt.leaf
  size : pages p.sz ≤ tfPage
  apart : p.hasMmap = true → pages p.sz ≤ p.low + 1 ∧ p.low < tfPage
  user : ∀ m q, m < tfPage → pt.leaf m = some q →
    m < pages p.sz ∨ p.hasMmap = true ∧ p.low < m ∧ q.perm.u = true ∧ q.pa ≠ 0

/-- The same when heap and mmap region overlap. -/
structure Reclaimable (tramp : Nat) (p : Proc) (pt : Pagetable) (tf : Nat) : Prop where
  pagetable : p.pagetable = some pt
  trapframe : p.trapframe = some tf
  top : Top tramp tf pt.leaf
  size : pages p.sz ≤ tfPage
  user : ∀ m q, m < tfPage → pt.leaf m = some q →
    m < pages p.sz ∨ p.hasMmap = true ∧ p.low < m ∧ q.perm.u = true ∧ q.pa ≠ 0

lemma Freeable.reclaimable {p : Proc} (h : Freeable tramp p pt tf) : Reclaimable tramp p pt tf :=
  ⟨h.pagetable, h.trapframe, h.top, h.size, h.user⟩

lemma freeMmap_ok {p : Proc} (h : Reclaimable tramp p pt tf) (k : Kmem) :
    ∃ k' pt', freeMmap k p = .ok (k', some pt') ∧ Top tramp tf pt'.leaf ∧
      (∀ m, pages p.sz ≤ m → m < tfPage → pt'.leaf m = none) ∧
      ∀ V, k.Trades V k' pt.refs pt'.refs := by
  unfold freeMmap
  by_cases hlow : p.hasMmap = true ∧ p.low < tfPage
  · obtain ⟨hhas, hlow⟩ := hlow
    have hsum : p.low + 1 + (tfPage - 1 - p.low) = tfPage := by omega
    obtain ⟨k', pt', hloop, hsome, hout, hin, htr⟩ :=
      freeMmapLoop_ok (a := p.low + 1) (c := tfPage - 1 - p.low) (by omega) k pt
    refine ⟨k', pt', ?_, h.top.congr fun m hm => hout m (by omega), fun m hm hlt => ?_, htr⟩
    · rw [hsum] at hloop
      rw [if_pos hhas, h.pagetable, mmapRounds_eq, trapframeVa_eq]
      change (freeMmapLoop _ k pt _ >>= fun r => pure (r.1, some r.2)) = _
      rw [hloop]
      rfl
    · cases hq : pt'.leaf m with
      | none => rfl
      | some q =>
        rcases hsome m with heq | hnone
        · rcases h.user m q hlt (heq ▸ hq) with hlt' | ⟨-, hlow', hseen⟩
          · omega
          · exact absurd hseen (hin m q (by omega) (by omega) hq)
        · rw [hnone] at hq
          cases hq
  · -- there is no region to look at
    have hnone : ∀ m, pages p.sz ≤ m → m < tfPage → pt.leaf m = none := by
      intro m hm hlt
      by_contra hne
      obtain ⟨q, hq⟩ := Option.ne_none_iff_exists'.mp hne
      rcases h.user m q hlt hq with hlt' | ⟨hhas, hlow', -⟩
      · omega
      · exact hlow ⟨hhas, by omega⟩
    refine ⟨k, pt, ?_, h.top, hnone, fun V => Trade.refl _ _ _⟩
    by_cases hhas : p.hasMmap = true
    · have hzero : mmapRounds p.mmap = 0 := by
        rw [mmapRounds_eq]
        have : ¬ p.low < tfPage := fun hlt => hlow ⟨hhas, hlt⟩
        omega
      rw [if_pos hhas, h.pagetable, hzero]
      rfl
    · rw [if_neg hhas, h.pagetable]
      rfl

/-- `freeproc` gives back everything the process refers to. -/
lemma freeproc_total {p : Proc} (h : Reclaimable tramp p pt tf) (k : Kmem) :
    ∃ k', freeproc k p = .ok (k', p.cleared) ∧ ∀ V, k.Trades V k' p.refs 0 := by
  have htf := tfPage_eq
  have hsz := h.size
  obtain ⟨k1, pt1, hmmap, htop, hnone, htr1⟩ := freeMmap_ok h (freeTrapframe k p.trapframe)
  obtain ⟨k2, hfree⟩ := (procFreepagetable_iff htop (by omega) k1).mpr hnone
  refine ⟨k2, ?_, fun V => ?_⟩
  · unfold freeproc
    dsimp only
    rw [hmmap, ok_bind]
    change (procFreepagetable k1 pt1 p.sz >>= fun k => pure (k, p.cleared)) = _
    rw [hfree]
    rfl
  · rw [Proc.refs_some h.pagetable h.trapframe]
    have hdrop := Kmem.trades_drop V k tf pt.refs
    have htr := htr1 V
    rw [h.trapframe] at htr
    exact (hdrop.trans htr).trans (trades_procFreepagetable htop (by omega) hfree)

/-! ### Address spaces -/

/-- `PTE_R | PTE_W | PTE_U`. -/
def Perm.rwu : Perm := (Perm.R.or .W).or .U

/-- An address space as the system calls leave it: heap pages from `floor` on are there, the mmap
region is full, and no other user page is mapped. -/
structure Space (floor tramp : Nat) (p : Proc) (pt : Pagetable) (tf : Nat) : Prop where
  pagetable : p.pagetable = some pt
  trapframe : p.trapframe = some tf
  top : Top tramp tf pt.leaf
  size : pages p.sz ≤ tfPage
  heap : ∀ m, floor ≤ m → m < pages p.sz → pt.leaf m ≠ none
  aligned : p.mmap = p.low * pgsize
  apart : p.hasMmap = true → pages p.sz ≤ p.low + 1 ∧ p.low + 1 < tfPage
  region : p.hasMmap = true → ∀ m, p.low < m → m < tfPage → ∃ pa, pt.leaf m = some (pa2pte pa .rwu)
  user : ∀ m, m < tfPage → pt.leaf m ≠ none → m < pages p.sz ∨ p.hasMmap = true ∧ p.low < m
  idle : p.hasMmap = false → p.mmap = 0 ∨ p.mmap = trapframeVa - pgsize

/-- The process maps the page at `x` at page `n` of its mmap region. -/
def Proc.Shares (p : Proc) (n x : Nat) : Prop :=
  p.hasMmap = true ∧ p.low < n ∧ n < tfPage ∧
    ∃ pt, p.pagetable = some pt ∧ pt.leaf n = some (pa2pte x .rwu)

lemma pa2pte_pa (q : Pte) : pa2pte q.pa q.perm = q := by
  rw [pa2pte, Pte.pa, Nat.mul_div_cancel _ (by decide)]

section

variable {floor : Nat} {p : Proc} {R : Multiset Nat}

lemma Space.refs (h : Space floor tramp p pt tf) : p.refs = {tf} + pt.refs :=
  Proc.refs_some h.pagetable h.trapframe

/-- A user page of the process is a page of the allocator. -/
lemma Space.pageAddr (h : Space floor tramp p pt tf) (hB : k.Books V (R + p.refs)) {m : Nat}
    {q : Pte} (hm : m < tfPage) (hq : pt.leaf m = some q) : PageAddr q.pa := by
  rw [h.refs, ← add_assoc] at hB
  exact pageAddr_of_leaf hB hm hq

lemma PageAddr.ne_zero {pa : Nat} (h : PageAddr pa) : pa ≠ 0 := by
  rintro rfl
  exact absurd h.above (by decide)

lemma Space.freeable (h : Space floor tramp p pt tf) (hB : k.Books V (R + p.refs)) :
    Freeable tramp p pt tf := by
  refine ⟨h.pagetable, h.trapframe, h.top, h.size, fun hhas => ?_, fun m q hm hq => ?_⟩
  · obtain ⟨hsz, hlow⟩ := h.apart hhas
    exact ⟨hsz, by omega⟩
  · have hne : pt.leaf m ≠ none := by simp [hq]
    refine (h.user m hm hne).imp_right fun ⟨hhas, hlow⟩ => ⟨hhas, hlow, ?_, ?_⟩
    · obtain ⟨pa, hpa⟩ := h.region hhas m hlow hm
      obtain rfl : q = pa2pte pa .rwu := Option.some.inj (hq.symm.trans hpa)
      rfl
    · exact (h.pageAddr hB hm hq).ne_zero

end

/-! ### Sharing the mmap region -/

/-- The entries that `kfork` makes for those of the parent from page `j` up to page `e`. -/
def window (f : Nat → Option Pte) (e j : Nat) : Nat → Option Pte :=
  fun m => if j ≤ m ∧ m < e then (f m).map fun q => pa2pte q.pa .rwu else none

/-- Entries of the child, and the shared ones. -/
def overlay (f g : Nat → Option Pte) : Nat → Option Pte := fun m => (g m).or (f m)

lemma userPages_overlay {f g : Nat → Option Pte} (h : ∀ m, f m = none ∨ g m = none) :
    userPages (overlay f g) = userPages f + userPages g := by
  rw [userPages, userPages, userPages, ← Finset.sum_add_distrib]
  refine Finset.sum_congr rfl fun m _ => ?_
  unfold overlay
  rcases h m with hf | hg
  · rw [hf, Option.or_none, cell_none, zero_add]
  · rw [hg, Option.none_or, cell_none, add_zero]

variable {R : Multiset Nat} {ppt npt : Pagetable} {f : Nat → Option Pte} {k₀ : Kmem} {e j : Nat}

lemma window_succ (hj : j < e) (f : Nat → Option Pte) :
    window f e j =
      Function.update (window f e (j + 1)) j ((f j).map fun q => pa2pte q.pa .rwu) := by
  funext m
  unfold window
  by_cases hm : m = j
  · subst hm
    rw [if_pos ⟨le_rfl, hj⟩, Function.update_self]
  · rw [Function.update_of_ne hm]
    have hiff : (j ≤ m ∧ m < e) ↔ (j + 1 ≤ m ∧ m < e) := by omega
    simp only [hiff]

/-- The pages from `j` up to `e` are shared: the child holds them beside what it owns alone, which
are its page-table pages and the entries `f`. -/
structure Sharing (V : Arena) (R : Multiset Nat) (ppt : Pagetable) (f : Nat → Option Pte)
    (k₀ : Kmem) (e j : Nat) (k : Kmem) (npt : Pagetable) : Prop where
  leaf : npt.leaf = overlay f (window ppt.leaf e j)
  books : k.Books V (R + npt.refs)
  nodup : (npt.nodes + userPages f).Nodup
  fresh : ∀ x ∈ R, x ∉ npt.nodes + userPages f
  data : ∀ x, x ∈ R ∨ x ∈ userPages f → k.page x = k₀.page x

namespace Sharing

lemma refs (h : Sharing V R ppt f k₀ e j k npt) (hf : ∀ m, j ≤ m → m < e → f m = none) :
    npt.refs = npt.nodes + userPages f + userPages (window ppt.leaf e j) := by
  rw [Pagetable.refs, h.leaf, userPages_overlay, add_assoc]
  intro m
  by_cases hm : j ≤ m ∧ m < e
  · exact Or.inl (hf m hm.1 hm.2)
  · exact Or.inr (if_neg hm)

/-- Page-table pages are allocated for the child. -/
lemma walked {k' : Kmem} {npt' : Pagetable} (h : Sharing V R ppt f k₀ e j k npt)
    (hf : ∀ m, j ≤ m → m < e → f m = none) (htr : k.Trades V k' npt.nodes npt'.nodes) :
    k'.Books V (R + (npt'.nodes + userPages f + userPages (window ppt.leaf e j))) ∧
      (npt'.nodes + userPages f).Nodup ∧ (∀ x ∈ R, x ∉ npt'.nodes + userPages f) ∧
      ∀ x, x ∈ R ∨ x ∈ userPages f → k'.page x = k₀.page x := by
  have hB := h.books
  rw [h.refs hf, add_comm (npt.nodes + userPages f), ← add_assoc] at hB
  have hown := htr.frame (userPages f)
  refine ⟨?_, hown.nodup hB h.nodup, fun x hx => ?_, fun x hx => ?_⟩
  · have hB' := hown.accounts hB
    rwa [add_assoc, add_comm (userPages (window ppt.leaf e j))] at hB'
  · exact hown.notMem hB (Multiset.mem_add.mpr (Or.inl hx)) (h.fresh x hx)
  · have hnode : x ∉ npt.nodes := by
      rcases hx with hx | hx
      · exact fun hn => h.fresh x hx (Multiset.mem_add.mpr (Or.inl hn))
      · exact fun hn => Multiset.disjoint_left.mp (Multiset.nodup_add.mp h.nodup).2.2 hn hx
    refine Eq.trans ?_ (h.data x hx)
    rw [add_comm npt.nodes, ← add_assoc] at hB
    refine htr.data_eq hB ?_ hnode
    simp only [Multiset.mem_add]
    tauto

/-- A page could not be mapped. -/
lemma failed {k' : Kmem} {npt' : Pagetable} {n : Nat} {q : Pte}
    (h : Sharing V R ppt f k₀ e j k npt) (hf : ∀ m, j ≤ m → m < e → f m = none)
    (hmap : MappedPage V k npt n q false k' npt') : Sharing V R ppt f k₀ e j k' npt' := by
  have hleaf : npt'.leaf = npt.leaf := hmap.leaf
  obtain ⟨-, hnodup, hfresh, hdata⟩ := h.walked hf hmap.trades
  refine ⟨hleaf.trans h.leaf, ?_, hnodup, hfresh, hdata⟩
  have hrefs : k.Trades V k' npt.refs npt'.refs := by
    rw [Pagetable.refs, Pagetable.refs, hleaf]
    exact hmap.trades.frame _
  exact hrefs.accounts h.books

/-- One more page of the parent is shared. -/
lemma cons {k' : Kmem} {npt' : Pagetable} {q : Pte} (h : Sharing V R ppt f k₀ e (j + 1) k npt)
    (hf : ∀ m, j ≤ m → m < e → f m = none) (hj : j < e) (he : e ≤ tfPage)
    (hq : ppt.leaf j = some q) (hqR : q.pa ∈ R)
    (hmap : MappedPage V k npt j (pa2pte q.pa .rwu) true k' npt') :
    Sharing V R ppt f k₀ e j (k'.krefpage q.pa) npt' := by
  have hf' : ∀ m, j + 1 ≤ m → m < e → f m = none := fun m hm => hf m (by omega)
  obtain ⟨hB, hnodup, hfresh, hdata⟩ := h.walked hf' hmap.trades
  have hwin := window_succ hj ppt.leaf
  rw [hq, Option.map_some] at hwin
  have hleaf : npt'.leaf = overlay f (window ppt.leaf e j) := by
    rw [hmap.leaf, if_pos rfl, h.leaf, hwin]
    funext m
    by_cases hm : m = j
    · subst hm
      simp [overlay]
    · simp [overlay, hm]
  have hpa : pgsize ∣ q.pa := ⟨q.ppn, Nat.mul_comm _ _⟩
  have hnone : window ppt.leaf e (j + 1) j = none := if_neg (by omega)
  have hpages : userPages (window ppt.leaf e j) = {q.pa} + userPages (window ppt.leaf e (j + 1)) := by
    rw [hwin, userPages_set (by omega) hnone, cell_some, pa_pa2pte hpa]
  refine ⟨hleaf, ?_, hnodup, hfresh, hdata⟩
  have href := Kmem.books_krefpage hB (show q.pa ∈ _ from Multiset.mem_add.mpr (Or.inl hqR))
  rw [Pagetable.refs, hleaf, userPages_overlay, hpages]
  · rw [add_left_comm] at href
    rwa [← add_assoc (npt'.nodes), add_left_comm (npt'.nodes + userPages f)]
  · intro m
    by_cases hm : j ≤ m ∧ m < e
    · exact Or.inl (hf m hm.1 hm.2)
    · exact Or.inr (if_neg hm)

end Sharing

/-- One round of the loop of `kfork`, for a page that the parent has. -/
lemma shareMmapLoop_some {n c : Nat} {q : Pte} {b : Bool} (hn : n < 2 ^ 26)
    (hq : ppt.leaf n = some q) (hu : q.perm.u = true) (hpa : q.pa ≠ 0)
    (hmap : mappages k npt (n * pgsize) pgsize q.pa ((Perm.R.or .W).or .U) = .ok (b, k', pt')) :
    shareMmapLoop ppt (c + 1) k npt (n * pgsize) =
      if b then shareMmapLoop ppt c (k'.krefpage q.pa) pt' (n * pgsize - pgsize)
      else .ok (false, k', pt') := by
  have hfound : (some q).elim 0 (fun q => if q.perm.u = true then q.pa else 0) = q.pa := by
    simp [hu]
  rw [shareMmapLoop, walkaddr_page k ppt hn, hq, hfound, ok_bind, if_pos hpa, hmap, ok_bind]
  cases b <;> rfl

/-- The loop of `kfork` over the mmap region, from page `a + c - 1` down to page `a`. -/
lemma shareMmapLoop_ok {a c : Nat} (hac : a + c ≤ e) (he : e ≤ tfPage)
    (hseen : Seen ppt.leaf a c) (hf : ∀ m, a ≤ m → m < e → f m = none)
    (hR : ∀ m q, a ≤ m → m < a + c → ppt.leaf m = some q → q.pa ∈ R)
    (h : Sharing V R ppt f k₀ e (a + c) k npt) :
    ∃ b k' npt' j, shareMmapLoop ppt c k npt ((a + c) * pgsize - pgsize) = .ok (b, k', npt') ∧
      a ≤ j ∧ j ≤ a + c ∧ (b = true → j = a) ∧ Sharing V R ppt f k₀ e j k' npt' := by
  have htf := tfPage_eq
  induction c generalizing k npt with
  | zero => exact ⟨true, k, npt, a, rfl, le_rfl, le_rfl, fun _ => rfl, h⟩
  | succ c ih =>
    rw [← add_assoc, prev_page]
    cases hq : ppt.leaf (a + c) with
    | none =>
      have hsame : Sharing V R ppt f k₀ e (a + c) k npt := by
        refine ⟨?_, h.books, h.nodup, h.fresh, h.data⟩
        rw [h.leaf, ← add_assoc, window_succ (j := a + c) (by omega), hq, Option.map_none,
          Function.update_eq_self_iff.mpr]
        exact (if_neg (by omega)).symm
      obtain ⟨b, k', npt', j, hloop, haj, hjc, hb, hsh⟩ := ih (by omega)
        (fun m q ham hmc => hseen m q ham (by omega)) (fun m q ham hmc => hR m q ham (by omega)) hsame
      refine ⟨b, k', npt', j, ?_, haj, by omega, hb, hsh⟩
      rw [shareMmapLoop, walkaddr_page k ppt (by omega), hq]
      exact hloop
    | some q =>
      obtain ⟨hu, hpa⟩ := hseen (a + c) q (by omega) (by omega) hq
      have hwin : window ppt.leaf e (a + (c + 1)) (a + c) = none := if_neg (by omega)
      have hfree : npt.leaf (a + c) = none := by
        rw [h.leaf, overlay, hf (a + c) (by omega) (by omega), hwin]
        rfl
      obtain ⟨b1, k1, npt1, hmap⟩ := mappages_total (by omega) hfree k q.pa ((Perm.R.or .W).or .U)
      obtain ⟨-, hmapped⟩ := mappages_ok (V := V) hmap
      rw [shareMmapLoop_some (by omega) hq hu hpa hmap]
      cases b1 with
      | false =>
        refine ⟨false, k1, npt1, a + c + 1, rfl, by omega, le_rfl, by simp, ?_⟩
        exact Sharing.failed h (fun m hm => hf m (by omega)) hmapped
      | true =>
        have hqR := hR (a + c) q (by omega) (by omega) hq
        have hsh := Sharing.cons (j := a + c) h (fun m hm => hf m (by omega)) (by omega) he hq hqR hmapped
        obtain ⟨b, k', npt', j, hloop, haj, hjc, hb, hsh'⟩ := ih (by omega)
          (fun m q ham hmc => hseen m q ham (by omega)) (fun m q ham hmc => hR m q ham (by omega)) hsh
        exact ⟨b, k', npt', j, hloop, haj, by omega, hb, hsh'⟩

end FogOS.Kernel
