import FogOS.Kernel.Shortage

/-!
# Growing and shrinking the heap

`sbrk` and `sbrklazy` of a process without mmap pages: what is mapped, and what is in it, over a sequence
of calls, with page faults between them.
-/

namespace FogOS.Kernel

open ByteMem Ledger

namespace Sbrk

variable {V : Arena} {R : Multiset Nat} {k k' : Kmem} {pt pt' : Pagetable} {tramp tf : Nat} {s t u : State} {i : Fin nproc}

/-! ### Contents -/

/-- A user page is no page-table page. -/
lemma leaf_notMem_nodes {m : Nat} {q : Pte} (hnodup : pt.refs.Nodup) (hm : m < tfPage) (hq : pt.leaf m = some q) :
    q.pa ∉ pt.nodes := by
  intro hnode
  rw [Pagetable.refs] at hnodup
  exact Multiset.disjoint_left.mp (Multiset.nodup_add.mp hnodup).2.2 hnode (mem_userPages hm hq)

/-- What is mapped is not free. -/
lemma leaf_notMem_free {m : Nat} {q : Pte} (hB : k.Books V (R + pt.refs)) (hm : m < tfPage) (hq : pt.leaf m = some q) :
    q.pa ∉ k.freelist :=
  hB.notMem_free (Multiset.mem_add.mpr (Or.inr (mem_refs hm hq)))

/-- The pages that the loop of `uvmalloc` has mapped are filled with zeros. -/
lemma uvmallocLoop_zero {s₀ a c : Nat} {xperm : Perm} (ha : a ≤ tfPage) (ht : Top tramp tf pt.leaf)
    (hB : k.Books V (R + pt.refs)) (hnodup : pt.refs.Nodup) (hs : s₀ ≤ a)
    (h : uvmallocLoop (s₀ * pgsize) xperm c k pt (a * pgsize) = .ok (true, k', pt')) :
    ∀ m q, a ≤ m → m < a + c → pt'.leaf m = some q → k'.page q.pa = fun _ => 0 := by
  induction c generalizing k pt a with
  | zero =>
    intro m q hm hlt
    omega
  | succ c ih =>
    have hall := uvmallocLoop_ok (V := V) hs ha ht h
    have hB' := hall.trades.accounts hB
    obtain ⟨hac, hgrown⟩ := hall.done rfl
    rw [uvmallocLoop] at h
    split at h
    · next k1 hk =>
      obtain ⟨⟨r, k2, pt2⟩, hd, h⟩ := bind_ok h
      cases h
    · next mem k1 hk =>
      obtain ⟨⟨mapped, k2, pt2⟩, hm, h⟩ := bind_ok h
      obtain ⟨-, hmap⟩ := mappages_ok (V := V) hm
      have htake : k.Trades V (k1.fill mem 0) pt.refs ({mem} + pt.refs) := Kmem.trades_take hk _ _
      have hB1 := htake.accounts hB
      cases mapped with
      | false =>
        obtain ⟨⟨r, k3, pt3⟩, hd, h⟩ := bind_ok h
        cases h
      | true =>
        have hlt : a < tfPage := by omega
        have hleaf : pt2.leaf = Function.update pt.leaf a (some (pa2pte mem ((Perm.R.or .U).or xperm))) := hmap.leaf
        have htr2 := htake.trans (hmap.trades_refs hlt)
        have hB2 := htr2.accounts hB
        have hnodup2 := htr2.nodup hB hnodup
        have ht2 : Top tramp tf pt2.leaf := by
          refine ht.congr fun m hm => ?_
          rw [hleaf, Function.update_of_ne (by omega)]
        have hself : pt2.leaf a = some (pa2pte mem ((Perm.R.or .U).or xperm)) := by rw [hleaf, Function.update_self]
        have hpa : (pa2pte mem ((Perm.R.or .U).or xperm)).pa = mem := by
          have hmem : PageAddr mem := V.page_addr mem (hB1.subset mem (by simp))
          exact pa_pa2pte hmem.aligned _
        rw [next_page] at h
        intro m q hm hlt' hq
        by_cases hma : m = a
        · have hrest := uvmallocLoop_ok (V := V) (by omega) hlt ht2 h
          have hstay : pt'.leaf a = pt2.leaf a := (hrest.done rfl).2.same a (by omega)
          obtain rfl : q = pa2pte mem ((Perm.R.or .U).or xperm) := by
            rw [hma, hstay, hself] at hq
            exact (Option.some.inj hq).symm
          -- the page is zeroed, and what follows writes neither to it nor to what maps it
          have hnode := leaf_notMem_nodes hnodup2 hlt hself
          have hkeep := uvmallocLoop_page hlt ht2 hB2 (Multiset.mem_add.mpr (Or.inr (mem_userPages hlt hself))) hnode
            (leaf_notMem_free hB' (hma ▸ hlt) hq) h
          rw [hpa] at hkeep ⊢
          have hfresh : mem ∉ pt.nodes := by
            have hfree : mem ∉ R + pt.refs := by
              refine hB.notMem_of_free ?_
              rw [show k.pool.free = mem :: k1.freelist from (Kmem.kalloc_some hk).1]
              exact List.mem_cons_self
            intro hin
            rw [Pagetable.refs] at hfree
            exact hfree (Multiset.mem_add.mpr (Or.inr (Multiset.mem_add.mpr (Or.inl hin))))
          rw [← add_assoc] at hB1
          have hset := hmap.page_eq (x := mem) hB1 (by simp) hfresh
          rw [hkeep, hset]
          exact Function.update_self mem _ _
        · exact ih hlt ht2 hB2 hnodup2 (by omega) h m q (by omega) (by omega) hq

/-- What `uvmalloc` does when it returns: the new pages are there and hold zeros, or nothing has changed; all
other user pages keep their contents. -/
lemma uvmalloc_moves {oldsz newsz r : Nat} {xperm : Perm} (hle : oldsz ≤ newsz) (hold : pages oldsz ≤ tfPage)
    (ht : Top tramp tf pt.leaf) (hB : k.Books V (R + pt.refs)) (hnodup : pt.refs.Nodup)
    (h : uvmalloc k pt oldsz newsz xperm = .ok (r, k', pt')) :
    ((r = newsz ∧ pages newsz ≤ tfPage ∧
        Grown pt.leaf (pages oldsz) (pages newsz - pages oldsz) ((Perm.R.or .U).or xperm) pt'.leaf ∧
        ∀ m q, pages oldsz ≤ m → m < pages newsz → pt'.leaf m = some q → k'.page q.pa = fun _ => 0) ∨
      (r = 0 ∧ pt'.leaf = pt.leaf)) ∧
    ∀ m q, m < tfPage → pt.leaf m = some q → pt'.leaf m = some q → k'.page q.pa = k.page q.pa := by
  have htf := tfPage_eq
  have htr := (uvmalloc_ok (V := V) hle hold ht h).1
  have hB' := htr.accounts hB
  have hround : pgRoundUp oldsz = pages oldsz * pgsize := pgRoundUp_eq (by omega)
  unfold uvmalloc at h
  rw [if_neg (not_lt.mpr hle), hround] at h
  obtain ⟨⟨b, k1, pt1⟩, hl, h⟩ := bind_ok h
  rw [rounds_sizes hle] at hl
  have hall := uvmallocLoop_ok (V := V) le_rfl hold ht hl
  obtain ⟨rfl, hrest⟩ := Prod.mk.inj (pure_ok h)
  obtain ⟨rfl, rfl⟩ := Prod.mk.inj hrest
  refine ⟨?_, fun m q hm hq hq' => ?_⟩
  · cases b with
    | true =>
      obtain ⟨hac, hgrown⟩ := hall.done rfl
      have hmono := pages_mono hle
      refine Or.inl ⟨rfl, by omega, hgrown, fun m q hm hlt hq => ?_⟩
      exact uvmallocLoop_zero hold ht hB hnodup le_rfl hl m q hm (by omega) hq
    | false =>
      refine Or.inr ⟨rfl, ?_⟩
      rw [hall.undone rfl, Nat.sub_self, cut_zero]
  · exact uvmallocLoop_page hold ht hB (Multiset.mem_add.mpr (Or.inr (mem_userPages hm hq)))
      (leaf_notMem_nodes hnodup hm hq) (leaf_notMem_free hB' hm hq') hl

/-! ### A process without mmap pages -/

/-- Everything that process `i` has mapped for itself lies below its size. Others hold the pages `R`. -/
structure Heap (V : Arena) (R : Multiset Nat) (s : State) (i : Fin nproc) (pt : Pagetable) : Prop where
  pagetable : (s.proc i).pagetable = some pt
  top : ∃ tf, Top s.trampoline tf pt.leaf
  books : s.kmem.Books V (R + pt.refs)
  nodup : pt.refs.Nodup
  size : pages (s.proc i).sz ≤ tfPage
  user : ∀ m, pages (s.proc i).sz ≤ m → m < tfPage → pt.leaf m = none

/-- A process that has not used mmap since its last exec. -/
lemma Heap.of_good {floor : Nat} {held : Multiset Nat} (h : Good floor V held s) (hi : (s.proc i).state ≠ .UNUSED)
    (hmmap : (s.proc i).hasMmap = false) : ∃ R pt, Heap V R s i pt := by
  obtain ⟨pt, tf, hsp⟩ := h.used i hi
  have hB := h.books_others i
  have hnodup := h.nodup i
  rw [hsp.refs] at hB hnodup
  rw [← add_assoc] at hB
  refine ⟨others held s i + {tf}, pt, hsp.pagetable, ⟨tf, hsp.top⟩, hB, (Multiset.nodup_add.mp hnodup).2.1, hsp.size,
    fun m hm hlt => ?_⟩
  by_contra hne
  rcases hsp.user m hlt hne with hbelow | ⟨hhas, -⟩
  · omega
  · rw [hmmap] at hhas
    cases hhas

lemma Heap.resized {sz : Nat} (h : Heap V R s i pt) (htr : s.kmem.Trades V k pt.refs pt'.refs)
    (htop : ∀ m, tfPage ≤ m → pt'.leaf m = pt.leaf m) (hsize : pages sz ≤ tfPage)
    (huser : ∀ m, pages sz ≤ m → m < tfPage → pt'.leaf m = none) : Heap V R (s.resized i pt' sz k) i pt' := by
  have hself : (s.resized i pt' sz k).proc i = { s.proc i with pagetable := some pt', sz := sz } := s.setProc_self i _
  obtain ⟨tf, htf⟩ := h.top
  refine ⟨by rw [hself], ⟨tf, htf.congr htop⟩, htr.accounts h.books, htr.nodup h.books h.nodup, ?_, ?_⟩
  · rw [hself]
    exact hsize
  · rw [hself]
    exact huser

/-- What a call of `sbrk` or `sbrklazy` that returns `r` has done. -/
structure Moved (s : State) (i : Fin nproc) (pt : Pagetable) (n : Int) (eager : Bool) (r : Int) (t : State)
    (pt' : Pagetable) : Prop where
  ret : r = -1 ∨ r = (s.proc i).sz
  size : r ≠ -1 → ((t.proc i).sz : Int) = if 0 ≤ (s.proc i).sz + n then (s.proc i).sz + n else (s.proc i).sz
  failed : r = -1 → (t.proc i).sz = (s.proc i).sz ∧ pt'.leaf = pt.leaf
  user : ∀ m q, pt'.leaf m = some q → q.perm.u = true → m < pages (t.proc i).sz
  kept : ∀ m q, m < pages (t.proc i).sz → pt.leaf m = some q →
    pt'.leaf m = some q ∧ t.kmem.page q.pa = s.kmem.page q.pa
  grown : r ≠ -1 → eager = true → 0 < n → ∀ m, pages (s.proc i).sz ≤ m → m < pages (t.proc i).sz →
    ∃ q, pt'.leaf m = some q ∧ q.perm.u = true
  zero : ∀ m q, pt.leaf m = none → pt'.leaf m = some q → t.kmem.page q.pa = fun _ => 0

/-- User pages lie below the size. -/
lemma Heap.lt_pages {m : Nat} {q : Pte} (h : Heap V R s i pt) (hq : pt.leaf m = some q) (hu : q.perm.u = true) :
    m < pages (s.proc i).sz := by
  obtain ⟨tf, htf⟩ := h.top
  have hm := htf.lt_of_user hq hu
  by_contra hge
  have hnone := h.user m (by omega) hm
  rw [hq] at hnone
  cases hnone

/-- A call that changes nothing but perhaps the size. -/
lemma Heap.moved_same {n r : Int} {eager : Bool} (h : Heap V R t i pt) (hk : t.kmem = s.kmem)
    (hret : r = -1 ∨ r = (s.proc i).sz)
    (hsize : r ≠ -1 → ((t.proc i).sz : Int) = if 0 ≤ (s.proc i).sz + n then (s.proc i).sz + n else (s.proc i).sz)
    (hfailed : r = -1 → (t.proc i).sz = (s.proc i).sz) (hlazy : eager = true → n ≤ 0) :
    Moved s i pt n eager r t pt := by
  refine ⟨hret, hsize, fun hr => ⟨hfailed hr, rfl⟩, fun m q hq hu => h.lt_pages hq hu, fun m q _ hq => ⟨hq, by rw [hk]⟩,
    fun _ heager hpos => ?_, fun m q hnone hq => ?_⟩
  · have := hlazy heager
    omega
  · rw [hnone] at hq
    cases hq

/-! ### One call -/

lemma pages_trapframe : pages trapframeVa = tfPage := by rw [trapframeVa_eq, pages_page]

lemma Heap.sz_lt (h : Heap V R s i pt) : (s.proc i).sz < 2 ^ 39 := by
  have hsize := h.size
  have htf := tfPage_eq
  unfold pages pgsize at hsize
  omega

lemma Heap.growproc_pos {n : Int} {r : Int} (h : Heap V R s i pt) (hpos : 0 < n) (hn : n < 2 ^ 31)
    (hg : growproc s i n = .ok (r, t)) (eager : Bool) :
    ∃ pt', Heap V R t i pt' ∧ (r = -1 ∨ r = 0) ∧
      Moved s i pt n eager (if r < 0 then -1 else (s.proc i).sz) t pt' := by
  obtain ⟨tf, ht⟩ := h.top
  have hlt := h.sz_lt
  have hu : u64 ((s.proc i).sz + n.toNat) = (s.proc i).sz + n.toNat := Nat.mod_eq_of_lt (by omega)
  unfold growproc at hg
  dsimp only at hg
  rw [if_pos hpos, h.pagetable, hu] at hg
  obtain ⟨_, hd, hg⟩ := bind_ok hg
  cases hd
  obtain ⟨⟨sz, k, pt'⟩, halloc, hg⟩ := bind_ok hg
  have htr := (uvmalloc_ok (V := V) (Nat.le_add_right _ _) h.size ht halloc).1
  obtain ⟨hcases, hpage⟩ := uvmalloc_moves (Nat.le_add_right _ _) h.size ht h.books h.nodup halloc
  dsimp only at hg
  rcases hcases with ⟨rfl, hsize, hgrown, hzero⟩ | ⟨rfl, hleaf⟩
  · rw [if_neg (by omega)] at hg
    obtain ⟨rfl, rfl⟩ := Prod.mk.inj (pure_ok hg)
    have hmono : pages (s.proc i).sz ≤ pages ((s.proc i).sz + n.toNat) := pages_mono (Nat.le_add_right _ _)
    have hself : (s.resized i pt' ((s.proc i).sz + n.toNat) k).proc i =
        { s.proc i with pagetable := some pt', sz := (s.proc i).sz + n.toNat } := s.setProc_self i _
    have hheap : Heap V R (s.resized i pt' ((s.proc i).sz + n.toNat) k) i pt' := by
      refine h.resized htr (fun m hm => hgrown.same m (Or.inr (by omega))) hsize fun m hm hm' => ?_
      rw [hgrown.same m (Or.inr (by omega))]
      exact h.user m (by omega) hm'
    have hstay : ∀ m q, pt.leaf m = some q → pt'.leaf m = some q := by
      intro m q hq
      by_cases hnew : pages (s.proc i).sz ≤ m ∧ m < pages (s.proc i).sz + (pages ((s.proc i).sz + n.toNat) - pages (s.proc i).sz)
      · rw [hgrown.fresh m hnew.1 hnew.2] at hq
        cases hq
      · rw [hgrown.same m (by omega), hq]
    refine ⟨pt', hheap, Or.inr rfl, ?_⟩
    rw [if_neg (lt_irrefl 0)]
    refine ⟨Or.inr rfl, fun _ => ?_, fun hr => by omega, fun m q hq hu => hheap.lt_pages hq hu, fun m q hm hq => ?_,
      fun _ _ _ m hm hm' => ?_, fun m q hnone hq => ?_⟩
    · have hsz : ((s.resized i pt' ((s.proc i).sz + n.toNat) k).proc i).sz = (s.proc i).sz + n.toNat := by rw [hself]
      change (((s.resized i pt' ((s.proc i).sz + n.toNat) k).proc i).sz : Int) = _
      rw [hsz, if_pos (by omega)]
      omega
    · have hbelow : m < tfPage := lt_of_lt_of_le hm hheap.size
      exact ⟨hstay m q hq, hpage m q hbelow hq (hstay m q hq)⟩
    · change m < pages ((s.resized i pt' ((s.proc i).sz + n.toNat) k).proc i).sz at hm'
      rw [hself] at hm'
      obtain ⟨pa, hpa⟩ := hgrown.mapped m hm (by dsimp only at hm'; omega)
      exact ⟨_, hpa, rfl⟩
    · by_cases hnew : pages (s.proc i).sz ≤ m ∧ m < pages ((s.proc i).sz + n.toNat)
      · exact hzero m q hnew.1 hnew.2 hq
      · rw [hgrown.same m (by omega), hnone] at hq
        cases hq
  · rw [if_pos rfl] at hg
    obtain ⟨rfl, rfl⟩ := Prod.mk.inj (pure_ok hg)
    have hself : (s.resized i pt' (s.proc i).sz k).proc i = { s.proc i with pagetable := some pt', sz := (s.proc i).sz } :=
      s.setProc_self i _
    have hheap : Heap V R (s.resized i pt' (s.proc i).sz k) i pt' := by
      refine h.resized htr (fun m _ => congrFun hleaf m) h.size fun m hm hm' => ?_
      rw [hleaf]
      exact h.user m hm hm'
    refine ⟨pt', hheap, Or.inl rfl, ?_⟩
    rw [if_pos (by decide)]
    refine ⟨Or.inl rfl, fun hr => absurd rfl hr, fun _ => ⟨?_, hleaf⟩, fun m q hq hu => hheap.lt_pages hq hu, fun m q hm hq => ?_,
      fun hr => absurd rfl hr, fun m q hnone hq => ?_⟩
    · change ((s.resized i pt' (s.proc i).sz k).proc i).sz = _
      rw [hself]
    · have hbelow : m < tfPage := lt_of_lt_of_le hm hheap.size
      have hstay : pt'.leaf m = some q := by rw [hleaf, hq]
      exact ⟨hstay, hpage m q hbelow hq hstay⟩
    · rw [hleaf, hnone] at hq
      cases hq

lemma Heap.growproc_neg {n : Int} {r : Int} (h : Heap V R s i pt) (hneg : n < 0) (hn : -2 ^ 31 ≤ n)
    (hg : growproc s i n = .ok (r, t)) (eager : Bool) :
    ∃ pt', Heap V R t i pt' ∧ r = 0 ∧ Moved s i pt n eager (s.proc i).sz t pt' := by
  have htf := tfPage_eq
  have hlt := h.sz_lt
  have hsize := h.size
  unfold growproc at hg
  dsimp only at hg
  rw [if_neg (by omega), if_pos hneg, h.pagetable] at hg
  obtain ⟨_, hd, hg⟩ := bind_ok hg
  cases hd
  obtain ⟨⟨sz, k, pt'⟩, hdealloc, hg⟩ := bind_ok hg
  obtain ⟨rfl, rfl⟩ := Prod.mk.inj (pure_ok hg)
  have hself : (s.resized i pt' sz k).proc i = { s.proc i with pagetable := some pt', sz := sz } := s.setProc_self i _
  have hfrees := frees_uvmdealloc hdealloc
  have hsame : k = s.kmem → pt' = pt → sz = (s.proc i).sz → (s.proc i).sz + n < 0 →
      Heap V R (s.resized i pt' sz k) i pt' ∧ Moved s i pt n eager (s.proc i).sz (s.resized i pt' sz k) pt' := by
    rintro rfl rfl rfl hwrap
    rw [State.resized_same h.pagetable]
    exact ⟨h, h.moved_same rfl (Or.inr rfl) (fun _ => by rw [if_neg (by omega)]) (fun _ => rfl) fun _ => hneg.le⟩
  by_cases hwrap : (s.proc i).sz + n < 0
  · -- the new size has wrapped around and is larger
    have hle : (s.proc i).sz ≤ sub64 (s.proc i).sz n.natAbs := by
      unfold sub64
      omega
    rw [uvmdealloc, if_pos hle] at hdealloc
    obtain ⟨rfl, hrest⟩ := Prod.mk.inj (pure_ok hdealloc)
    obtain ⟨rfl, rfl⟩ := Prod.mk.inj hrest
    obtain ⟨hheap, hmoved⟩ := hsame rfl rfl rfl hwrap
    exact ⟨pt', hheap, rfl, hmoved⟩
  · have hsub : sub64 (s.proc i).sz n.natAbs = (s.proc i).sz - n.natAbs := by
      unfold sub64
      omega
    have hless : (s.proc i).sz - n.natAbs < (s.proc i).sz := by omega
    have hmono := pages_mono hless.le
    rw [hsub, uvmdealloc_eq (by omega) hless] at hdealloc
    obtain ⟨⟨k1, pt1⟩, hun, hdealloc⟩ := bind_ok hdealloc
    obtain ⟨rfl, hrest⟩ := Prod.mk.inj (pure_ok hdealloc)
    obtain ⟨rfl, rfl⟩ := Prod.mk.inj hrest
    have hunmapped := uvmunmapLoop_ok (V := V) hun
    have hleaf : ∀ m, pt'.leaf m = if pages ((s.proc i).sz - n.natAbs) ≤ m ∧ m < pages (s.proc i).sz then none else pt.leaf m := by
      intro m
      rw [hunmapped.leaf, cut, Nat.add_sub_cancel' hmono]
    have htr := hunmapped.trades rfl fun m hm hlt => by omega
    have hheap : Heap V R (s.resized i pt' ((s.proc i).sz - n.natAbs) k) i pt' := by
      refine h.resized htr (fun m hm => ?_) (hmono.trans hsize) fun m hm hm' => ?_
      · rw [hleaf, if_neg (by omega)]
      · rw [hleaf]
        split
        · rfl
        · exact h.user m (by omega) hm'
    refine ⟨pt', hheap, rfl, Or.inr rfl, fun _ => ?_, fun hr => by omega, fun m q hq hu => hheap.lt_pages hq hu,
      fun m q hm hq => ?_, fun _ _ hpos => by omega, fun m q hnone hq => ?_⟩
    · have hsz : ((s.resized i pt' ((s.proc i).sz - n.natAbs) k).proc i).sz = (s.proc i).sz - n.natAbs := by rw [hself]
      change (((s.resized i pt' ((s.proc i).sz - n.natAbs) k).proc i).sz : Int) = _
      rw [hsz, if_pos (by omega)]
      omega
    · have hbelow : m < tfPage := lt_of_lt_of_le hm hheap.size
      change m < pages ((s.resized i pt' ((s.proc i).sz - n.natAbs) k).proc i).sz at hm
      rw [hself] at hm
      have hstay : pt'.leaf m = some q := by
        rw [hleaf, if_neg (fun hcut => absurd hm (not_lt.mpr hcut.1)), hq]
      exact ⟨hstay, hfrees.page _ (leaf_notMem_free hheap.books hbelow hstay)⟩
    · rw [hleaf] at hq
      split at hq
      · cases hq
      · rw [hnone] at hq
        cases hq

/-- One call of `sbrk` or `sbrklazy` that leaves the size below the trapframe. -/
lemma Heap.sbrk {n r : Int} {eager : Bool} (h : Heap V R s i pt) (hn : -2 ^ 31 ≤ n ∧ n < 2 ^ 31)
    (hs : sysSbrk s i n eager = .ok (r, t)) (hsz : (t.proc i).sz ≤ trapframeVa) :
    ∃ pt', Heap V R t i pt' ∧ Moved s i pt n eager r t pt' := by
  have hlt := h.sz_lt
  unfold sysSbrk at hs
  dsimp only at hs
  split at hs
  · obtain ⟨⟨r₀, u⟩, hg, hs⟩ := bind_ok hs
    dsimp only at hs
    have hret : u = t ∧ r = if r₀ < 0 then -1 else ((s.proc i).sz : Int) := by
      split at hs
      · next hfail =>
        obtain ⟨rfl, rfl⟩ := Prod.mk.inj (pure_ok hs)
        exact ⟨rfl, (if_pos hfail).symm⟩
      · next hdone =>
        obtain ⟨rfl, rfl⟩ := Prod.mk.inj (pure_ok hs)
        exact ⟨rfl, (if_neg hdone).symm⟩
    obtain ⟨rfl, rfl⟩ := hret
    rcases lt_trichotomy n 0 with hneg | rfl | hpos
    · obtain ⟨pt', hheap, rfl, hmoved⟩ := h.growproc_neg hneg hn.1 hg eager
      rw [if_neg (lt_irrefl 0)]
      exact ⟨pt', hheap, hmoved⟩
    · obtain ⟨rfl, rfl⟩ := Prod.mk.inj (pure_ok hg)
      rw [if_neg (lt_irrefl 0)]
      exact ⟨pt, h, h.moved_same rfl (Or.inr rfl) (fun _ => by simp) (fun _ => rfl) fun _ => le_rfl⟩
    · obtain ⟨pt', hheap, -, hmoved⟩ := h.growproc_pos hpos hn.2 hg eager
      exact ⟨pt', hheap, hmoved⟩
  · next hlazy =>
    rw [not_or, not_lt] at hlazy
    have hu : u64 ((s.proc i).sz + n.toNat) = (s.proc i).sz + n.toNat := Nat.mod_eq_of_lt (by omega)
    rw [hu, if_neg (by omega)] at hs
    obtain ⟨rfl, rfl⟩ := Prod.mk.inj (pure_ok hs)
    have hself : (s.setProc i { s.proc i with sz := (s.proc i).sz + n.toNat }).proc i =
        { s.proc i with sz := (s.proc i).sz + n.toNat } := s.setProc_self i _
    rw [hself] at hsz
    have hsize : pages ((s.proc i).sz + n.toNat) ≤ tfPage := by
      rw [← pages_trapframe]
      exact pages_mono hsz
    have hmono : pages (s.proc i).sz ≤ pages ((s.proc i).sz + n.toNat) := pages_mono (Nat.le_add_right _ _)
    have hheap : Heap V R (s.setProc i { s.proc i with sz := (s.proc i).sz + n.toNat }) i pt := by
      obtain ⟨tf, ht⟩ := h.top
      refine ⟨by rw [hself]; exact h.pagetable, ⟨tf, ht⟩, h.books, h.nodup, by rw [hself]; exact hsize, fun m hm hm' => ?_⟩
      rw [hself] at hm
      exact h.user m (hmono.trans hm) hm'
    refine ⟨pt, hheap, hheap.moved_same rfl (Or.inr rfl) (fun _ => ?_) (fun hr => by omega) fun heager => absurd heager hlazy.1⟩
    rw [hself, if_pos (by omega)]
    dsimp only
    omega

/-- A call within the limits returns. -/
lemma Heap.sbrk_total {n : Int} {eager : Bool} (h : Heap V R s i pt)
    (hfit : 0 < n → (s.proc i).sz + n.toNat ≤ trapframeVa) : ∃ r t, sysSbrk s i n eager = .ok (r, t) := by
  have htf := tfPage_eq
  have hsize := h.size
  have hgrow : ∃ r t, growproc s i n = .ok (r, t) := by
    unfold growproc
    dsimp only
    rw [h.pagetable]
    split
    · next hpos =>
      have hlt := h.sz_lt
      have hle := hfit hpos
      have hlimit : trapframeVa < 2 ^ 39 := by
        rw [trapframeVa_eq, htf]
        decide
      have hu : u64 ((s.proc i).sz + n.toNat) = (s.proc i).sz + n.toNat := Nat.mod_eq_of_lt (by omega)
      have hpages : pages ((s.proc i).sz + n.toNat) ≤ tfPage := by
        rw [← pages_trapframe]
        exact pages_mono hle
      have hmono : pages (s.proc i).sz ≤ pages ((s.proc i).sz + n.toNat) := pages_mono (Nat.le_add_right _ _)
      have hroom : pages (s.proc i).sz + min (pages ((s.proc i).sz + n.toNat) - pages (s.proc i).sz) s.kmem.freelist.length ≤ tfPage := by
        omega
      obtain ⟨sz, k, pt', halloc⟩ := uvmalloc_total ((s.proc i).sz + n.toNat) .W le_rfl hroom h.user
      rw [hu]
      change ∃ r t, (uvmalloc s.kmem pt (s.proc i).sz ((s.proc i).sz + n.toNat) .W >>= _) = _
      rw [halloc, ok_bind]
      dsimp only
      split
      · exact ⟨_, _, rfl⟩
      · exact ⟨_, _, rfl⟩
    · split
      · have hroom : pages (s.proc i).sz ≤ 2 ^ 26 := by omega
        obtain ⟨sz, k, pt', hdealloc⟩ := uvmdealloc_total hroom (sub64 (s.proc i).sz n.natAbs) s.kmem pt
        change ∃ r t, (uvmdealloc s.kmem pt (s.proc i).sz (sub64 (s.proc i).sz n.natAbs) >>= _) = _
        rw [hdealloc, ok_bind]
        exact ⟨_, _, rfl⟩
      · exact ⟨_, _, rfl⟩
  unfold sysSbrk
  dsimp only
  split
  · obtain ⟨r, t, hg⟩ := hgrow
    rw [hg, ok_bind]
    dsimp only
    split
    · exact ⟨_, _, rfl⟩
    · exact ⟨_, _, rfl⟩
  · split
    · exact ⟨_, _, rfl⟩
    · exact ⟨_, _, rfl⟩

lemma Heap.fault {va : Nat} {b : Bool} (h : Heap V R s i pt) (hf : pageFault s i va = .ok (b, t)) : ∃ pt', Heap V R t i pt' := by
  have htf := tfPage_eq
  have hsize := h.size
  obtain ⟨tf, ht⟩ := h.top
  unfold pageFault at hf
  dsimp only at hf
  rw [h.pagetable] at hf
  obtain ⟨_, hd, hf⟩ := bind_ok hf
  cases hd
  obtain ⟨⟨mem, k, pt'⟩, hfault, hf⟩ := bind_ok hf
  obtain ⟨-, rfl⟩ := Prod.mk.inj (pure_ok hf)
  have hspec : s.kmem.Trades V k pt.refs pt'.refs ∧ Faulted (s.proc i).sz pt.leaf pt'.leaf := by
    by_cases hva : va < (s.proc i).sz
    · have hn : va / pgsize < pages (s.proc i).sz := FogOS.Kernel.lt_pages ((Nat.div_mul_le_self va pgsize).trans_lt hva)
      rw [vmfault_round hva] at hfault
      obtain ⟨htr, hfaulted, -⟩ := vmfault_ok (V := V) (by omega) hsize hfault
      exact ⟨htr, hfaulted⟩
    · rw [vmfault, if_pos (not_lt.mp hva)] at hfault
      obtain ⟨-, hrest⟩ := Prod.mk.inj (pure_ok hfault)
      obtain ⟨rfl, rfl⟩ := Prod.mk.inj hrest
      exact ⟨Trade.refl _ _ _, Faulted.refl _ _⟩
  obtain ⟨htr, hfaulted⟩ := hspec
  have hstay : ∀ m, pages (s.proc i).sz ≤ m → pt'.leaf m = pt.leaf m := by
    intro m hm
    rcases hfaulted m with heq | ⟨-, hlt, -⟩
    · exact heq
    · omega
  refine ⟨pt', h.resized htr (fun m hm => hstay m (hsize.trans hm)) hsize fun m hm hm' => ?_⟩
  rw [hstay m hm]
  exact h.user m hm hm'

/-! ### A sequence of calls -/

/-- A call of `sbrk` (`eager`) or `sbrklazy` that leaves the size below the trapframe, or a page fault. -/
inductive Step (i : Fin nproc) : State → State → Prop
  | sbrk {s t : State} {n r : Int} {eager : Bool} (hn : -2 ^ 31 ≤ n ∧ n < 2 ^ 31) (h : sysSbrk s i n eager = .ok (r, t))
      (hsz : (t.proc i).sz ≤ trapframeVa) : Step i s t
  | fault {s t : State} {va : Nat} {b : Bool} (h : pageFault s i va = .ok (b, t)) : Step i s t

lemma Heap.run (h : Heap V R s i pt) (hrun : Relation.ReflTransGen (Step i) s t) : ∃ pt', Heap V R t i pt' := by
  induction hrun with
  | refl => exact ⟨pt, h⟩
  | tail hrun hstep ih =>
    obtain ⟨pt', hheap⟩ := ih
    cases hstep with
    | sbrk hn hs hsz =>
      obtain ⟨pt'', hheap', -⟩ := hheap.sbrk hn hs hsz
      exact ⟨pt'', hheap'⟩
    | fault hf => exact hheap.fault hf

/-- After any sequence of calls that keep the size below the trapframe, the next call returns, if it does not
ask for more than that, and sizes, mappings and contents are in step. -/
theorem sbrk_in_step (h : Heap V R s i pt) (hrun : Relation.ReflTransGen (Step i) s t) :
    ∃ pt', (t.proc i).pagetable = some pt' ∧ ∀ (n : Int) (eager : Bool), -2 ^ 31 ≤ n → n < 2 ^ 31 →
      ((0 < n → (t.proc i).sz + n.toNat ≤ trapframeVa) → ∃ r u, sysSbrk t i n eager = .ok (r, u)) ∧
      ∀ r u, sysSbrk t i n eager = .ok (r, u) → (u.proc i).sz ≤ trapframeVa →
        ∃ pt'', (u.proc i).pagetable = some pt'' ∧ Moved t i pt' n eager r u pt'' := by
  obtain ⟨pt', hheap⟩ := h.run hrun
  refine ⟨pt', hheap.pagetable, fun n eager hlo hhi => ⟨fun hfit => hheap.sbrk_total hfit, fun r u hs hsz => ?_⟩⟩
  obtain ⟨pt'', hheap', hmoved⟩ := hheap.sbrk ⟨hlo, hhi⟩ hs hsz
  exact ⟨pt'', hheap'.pagetable, hmoved⟩

/-- A process that has grown lazily by a page grows by another. -/
theorem sbrk_in_step_page : ∃ r t u pt pt', sysSbrk firstExecd 0 4096 false = .ok (r, t) ∧
    sysSbrk t 0 4096 true = .ok (8192, u) ∧ (t.proc 0).pagetable = some pt ∧ (u.proc 0).pagetable = some pt' ∧
    Moved t 0 pt 4096 true 8192 u pt' := by
  have hlazy : (sysSbrk firstExecd 0 4096 false).isOk = true := by decide +kernel
  have hsize : ((returned (sysSbrk firstExecd 0 4096 false)).2.proc 0).sz = 8192 := by decide +kernel
  have hnext : (sysSbrk (returned (sysSbrk firstExecd 0 4096 false)).2 0 4096 true).isOk = true := by decide +kernel
  have hret : (returned (sysSbrk (returned (sysSbrk firstExecd 0 4096 false)).2 0 4096 true)).1 = 8192 := by decide +kernel
  have hgrown : ((returned (sysSbrk (returned (sysSbrk firstExecd 0 4096 false)).2 0 4096 true)).2.proc 0).sz ≤ trapframeVa := by
    decide +kernel
  have hstep : Step 0 firstExecd (returned (sysSbrk firstExecd 0 4096 false)).2 :=
    .sbrk ⟨by decide, by decide⟩ (eq_ok hlazy) (by rw [hsize]; decide)
  obtain ⟨R, pt, hheap⟩ := Heap.of_good good_firstExecd (by decide +kernel : (firstExecd.proc 0).state ≠ .UNUSED) (by decide +kernel)
  obtain ⟨pt₁, hpt₁, hcalls⟩ := sbrk_in_step hheap (Relation.ReflTransGen.single hstep)
  obtain ⟨pt₂, hpt₂, hmoved⟩ := (hcalls 4096 true (by decide) (by decide)).2 8192 _ (eq_ok_pair hnext hret) hgrown
  exact ⟨_, _, _, pt₁, pt₂, eq_ok hlazy, eq_ok_pair hnext hret, hpt₁, hpt₂, hmoved⟩

end Sbrk

end FogOS.Kernel
