import FogOS.Kernel.Sbrk
import Mathlib.Data.List.GetD

/-!
# Copying between the kernel and a process

`copyin` and `copyinstr` of `kernel/vm.c`, and what the three copying routines do with the page table of
the process itself: which addresses they accept, which pages they add, and which bytes they touch.
-/

namespace FogOS.Kernel

open ByteMem Ledger

namespace Copy

/-! ### Copying from user memory -/

/-- The loop of `copyin`; `acc` is what has come to `dst`, and `pt` is as for `copyoutLoop`. -/
def copyinLoop (psz : Nat) (pt : Option Pagetable) :
    Nat → Kmem → Pagetable → Nat → Nat → List UInt8 → Except Stop (Bool × List UInt8 × Kmem × Pagetable)
  | 0, k, ppt, _, _, acc => pure (true, acc, k, ppt)
  | fuel + 1, k, ppt, srcva, len, acc =>
    if len = 0 then pure (true, acc, k, ppt)
    else do
      let va0 := pgRoundDown srcva
      let (pa0, k, ppt) ← faultIn k psz ppt (pt.getD ppt) va0
      if pa0 = 0 then pure (false, acc, k, ppt)
      else
        let n := min (pgsize - (srcva - va0)) len
        let src := (List.range n).map fun i => k.page pa0 (srcva - va0 + i)
        copyinLoop psz pt fuel k ppt (va0 + pgsize) (len - n) (acc ++ src)

/-- Copy bytes from user to kernel. Each round of the loop copies at least one byte. -/
def copyin (k : Kmem) (psz : Nat) (ppt : Pagetable) (pt : Option Pagetable) (srcva len : Nat) :
    Except Stop (Bool × List UInt8 × Kmem × Pagetable) :=
  copyinLoop psz pt len k ppt srcva len []

/-- The inner loop of `copyinstr`: up to `n` bytes from `p` on, as far as the first NUL. Has it come to
one, and what has it stored? -/
def scanNul (m : Mem) : Nat → Nat → Bool × List UInt8
  | _, 0 => (false, [])
  | p, n + 1 =>
    if m p = 0 then (true, [0])
    else
      let (gotNull, dst) := scanNul m (p + 1) n
      (gotNull, m p :: dst)

/-- The loop of `copyinstr`. -/
def copyinstrLoop (k : Kmem) (pt : Pagetable) : Nat → Nat → Nat → List UInt8 → Except Stop (Bool × List UInt8)
  | 0, _, _, acc => pure (false, acc)
  | fuel + 1, srcva, max, acc =>
    if max = 0 then pure (false, acc)
    else do
      let va0 := pgRoundDown srcva
      let pa0 ← walkaddr k pt va0
      if pa0 = 0 then pure (false, acc)
      else
        let n := min (pgsize - (srcva - va0)) max
        let (gotNull, dst) := scanNul (k.page pa0) (srcva - va0) n
        if gotNull then pure (true, acc ++ dst)
        else copyinstrLoop k pt fuel (va0 + pgsize) (max - n) (acc ++ dst)

/-- Copy a null-terminated string from user to kernel, until a NUL or `max` bytes. -/
def copyinstr (k : Kmem) (pt : Pagetable) (srcva max : Nat) : Except Stop (Bool × List UInt8) :=
  copyinstrLoop k pt max srcva max []

/-! ### User memory -/

/-- User code may read the byte at `a`, with `w` also write to it. -/
def Usable (w : Bool) (pt : Pagetable) (a : Nat) : Prop :=
  a < maxva ∧ ∃ q, pt.leaf (a / pgsize) = some q ∧ q.perm.u = true ∧ (w = true → q.perm.w = true)

/-- The byte at `a`, where a page is mapped. -/
def byteAt (k : Kmem) (pt : Pagetable) (a : Nat) : UInt8 :=
  (pt.leaf (a / pgsize)).elim 0 fun q => k.page q.pa (a % pgsize)

/-- There is no page at `a` yet, but it lies in the heap. -/
def Lazy (psz : Nat) (pt : Pagetable) (a : Nat) : Prop := pgRoundDown a < psz ∧ pt.leaf (a / pgsize) = none

/-- A process page table in the allocator's books, where others hold the pages `R`. The trapframe is one of
these, and the trampoline is no page of the allocator. -/
structure Userland (V : Arena) (R : Multiset Nat) (tramp tf : Nat) (k : Kmem) (pt : Pagetable) : Prop where
  top : Top tramp tf pt.leaf
  books : k.Books V (R + pt.refs)
  nodup : pt.refs.Nodup
  trapframe : tf ∈ R ∧ tf ∉ pt.refs
  trampoline : tramp / pgsize * pgsize ∉ V.pages

variable {V : Arena} {R : Multiset Nat} {k k' k'' : Kmem} {pt pt' pt'' : Pagetable} {tramp tf n psz : Nat} {b : Bool}

/-- Of every process in a good state. -/
lemma Userland.of_good {floor : Nat} {held : Multiset Nat} {s : State} {i : Fin nproc} (h : Good floor V held s)
    (hi : (s.proc i).state ≠ .UNUSED) (htramp : s.trampoline / pgsize * pgsize ∉ V.pages) :
    ∃ R tf pt, (s.proc i).pagetable = some pt ∧ pages (s.proc i).sz ≤ tfPage ∧ Userland V R s.trampoline tf s.kmem pt := by
  obtain ⟨pt, tf, hsp⟩ := h.used i hi
  have hB := h.books_others i
  have hnodup := h.nodup i
  rw [hsp.refs] at hB hnodup
  rw [← add_assoc] at hB
  obtain ⟨-, hpt, hdisj⟩ := Multiset.nodup_add.mp hnodup
  refine ⟨others held s i + {tf}, tf, pt, hsp.pagetable, hsp.size, hsp.top, hB, hpt, ⟨?_, ?_⟩, htramp⟩
  · exact Multiset.mem_add.mpr (Or.inr (Multiset.mem_singleton_self tf))
  · exact Multiset.disjoint_left.mp hdisj (Multiset.mem_singleton_self tf)

/-! ### Taking pages from the allocator -/

/-- From `k` to `k'` pages are taken, and only these are written to. -/
structure OnlyTakes (k k' : Kmem) : Prop where
  free : ∀ x ∈ k'.freelist, x ∈ k.freelist
  page : ∀ x, x ∉ k.freelist → k'.page x = k.page x

namespace OnlyTakes

lemma refl (k : Kmem) : OnlyTakes k k := ⟨fun _ hx => hx, fun _ _ => rfl⟩

lemma trans (h : OnlyTakes k k') (h' : OnlyTakes k' k'') : OnlyTakes k k'' := by
  refine ⟨fun x hx => h.free x (h'.free x hx), fun x hx => ?_⟩
  rw [h'.page x fun hx' => hx (h.free x hx'), h.page x hx]

/-- A page is allocated and filled. -/
lemma take {pa : Nat} (hk : k.kalloc = (some pa, k')) (c : UInt8) : OnlyTakes k (k'.fill pa c) := by
  obtain ⟨hfree, hpage, -⟩ := Kmem.kalloc_some hk
  refine ⟨fun x hx => ?_, fun x hx => ?_⟩
  · rw [hfree]
    exact List.mem_cons_of_mem pa hx
  · have hne : x ≠ pa := by
      rintro rfl
      exact hx (by rw [hfree]; exact List.mem_cons_self)
    have hset : (k'.fill pa c).page x = k'.page x := Function.update_of_ne hne _ _
    rw [hset, hpage]
    exact Function.update_of_ne hne _ _

/-- A page that was taken is put back. -/
lemma kfree {pa : Nat} (h : OnlyTakes k k') (hpa : pa ∈ k.freelist) : OnlyTakes k (k'.kfree pa) := by
  by_cases hle : k'.refCount (pa2idx pa) ≤ 1
  · rw [Kmem.kfree_last hle]
    refine ⟨fun x hx => ?_, fun x hx => ?_⟩
    · rcases List.mem_cons.mp hx with rfl | hx
      · exact hpa
      · exact h.free x hx
    · have hne : x ≠ pa := fun he => hx (he ▸ hpa)
      exact (Function.update_of_ne hne _ _).trans (h.page x hx)
  · rw [Kmem.kfree_shared (by omega)]
    exact ⟨h.free, h.page⟩

lemma next {α : Type} {t : Table (Table α)} {i : Fin 512} {alloc : Bool} {c : Table α}
    (h : t.next k i alloc = some (c, k')) : OnlyTakes k k' := by
  unfold Table.next at h
  split at h
  · cases h
    exact refl k
  · split at h
    · cases h
    · split at h
      · cases h
      · next pa k1 hk =>
        cases h
        exact take hk 0

lemma walk {va : Nat} {alloc : Bool} (h : walk k pt va alloc = .ok (b, k', pt')) : OnlyTakes k k' := by
  obtain ⟨-, h⟩ := guard_ok h
  split at h
  · cases h
    exact refl k
  · next t1 k1 h1 =>
    split at h
    · cases h
      exact next h1
    · next t0 k2 h0 =>
      cases h
      exact (next h1).trans (next h0)

lemma mappages {pa : Nat} {perm : Perm} (h : mappages k pt (n * pgsize) pgsize pa perm = .ok (b, k', pt')) :
    OnlyTakes k k' := by
  rw [mappages_page] at h
  obtain ⟨⟨found, k1, pt1⟩, hw, h⟩ := bind_ok h
  cases found with
  | false =>
    cases h
    exact walk hw
  | true =>
    obtain ⟨-, h⟩ := guard_ok h
    cases h
    exact walk hw

end OnlyTakes

lemma kalloc_empty (h : k.kalloc = (none, k')) : k.freelist = [] := by
  unfold Kmem.kalloc at h
  split at h
  · next hempty => exact hempty
  · dsimp only at h
    split at h <;> cases h

/-- A page-table page is missing only when there is no page left. -/
lemma next_none {α : Type} {t : Table (Table α)} {i : Fin 512} (h : t.next k i true = none) : k.freelist = [] := by
  unfold Table.next at h
  split at h
  · cases h
  · split at h
    · next halloc => cases halloc
    · split at h
      · next k1 hk => exact kalloc_empty hk
      · cases h

lemma walk_none {va : Nat} (h : walk k pt va true = .ok (false, k', pt')) : k'.freelist = [] := by
  obtain ⟨-, h⟩ := guard_ok h
  split at h
  · next h1 =>
    cases h
    exact next_none h1
  · next t1 k1 h1 =>
    split at h
    · next h0 =>
      cases h
      exact next_none h0
    · cases h

lemma mappages_none {pa : Nat} {perm : Perm} (h : mappages k pt (n * pgsize) pgsize pa perm = .ok (false, k', pt')) :
    k'.freelist = [] := by
  rw [mappages_page] at h
  obtain ⟨⟨found, k1, pt1⟩, hw, h⟩ := bind_ok h
  cases found with
  | false =>
    cases h
    exact walk_none hw
  | true =>
    obtain ⟨-, h⟩ := guard_ok h
    cases h

/-! ### Bringing in a page -/

lemma stay {psz m : Nat} {f f' : Nat → Option Pte} {q : Pte} (h : Faulted psz f f') (hq : f m = some q) : f' m = some q := by
  rcases h m with heq | ⟨hnone, -⟩
  · rw [heq, hq]
  · rw [hq] at hnone
    cases hnone

lemma Userland.trade (h : Userland V R tramp tf k pt) (hsz : pages psz ≤ tfPage)
    (htr : k.Trades V k' pt.refs pt'.refs) (hf : Faulted psz pt.leaf pt'.leaf) : Userland V R tramp tf k' pt' := by
  obtain ⟨hin, hout⟩ := h.trapframe
  exact ⟨hf.top hsz h.top, htr.accounts h.books, htr.nodup h.books h.nodup, ⟨hin, htr.notMem h.books hin hout⟩, h.trampoline⟩

/-- What `vmfault` has done at page `n` when it returns `r`. -/
structure Fault (psz n : Nat) (k : Kmem) (pt : Pagetable) (r : Nat) (k' : Kmem) (pt' : Pagetable) : Prop where
  takes : OnlyTakes k k'
  refused : r = 0 → pt'.leaf = pt.leaf ∧ (pt.leaf n = none → n * pgsize < psz → k'.freelist.length ≤ 1)
  mapped : r ≠ 0 → r ∈ k.freelist ∧ k'.page r = (fun _ => 0) ∧ n < tfPage ∧ pt.leaf n = none ∧
    pt'.leaf = Function.update pt.leaf n (some (pa2pte r ((Perm.W.or .U).or .R)))

lemma vmfault_page {r : Nat} (h : Userland V R tramp tf k pt) (hsz : pages psz ≤ tfPage)
    (hf : vmfault k psz pt pt (n * pgsize) = .ok (r, k', pt')) : Fault psz n k pt r k' pt' := by
  have htf := tfPage_eq
  have hdown : pgRoundDown (n * pgsize) = n * pgsize := by
    rw [pgRoundDown, Nat.mul_div_cancel _ (by decide : 0 < pgsize)]
  unfold vmfault at hf
  split at hf
  · next hva =>
    cases hf
    exact ⟨OnlyTakes.refl k, fun _ => ⟨rfl, fun _ hlt => by omega⟩, fun h0 => absurd rfl h0⟩
  · next hva =>
    have hlt : n < pages psz := lt_pages (by omega)
    rw [hdown] at hf
    dsimp only at hf
    rw [ismapped_page k pt (by omega), ok_bind] at hf
    split at hf
    · next hsome =>
      cases hf
      refine ⟨OnlyTakes.refl k, fun _ => ⟨rfl, fun hnone => ?_⟩, fun h0 => absurd rfl h0⟩
      rw [hnone] at hsome
      cases hsome
    · split at hf
      · next k1 hk =>
        obtain rfl := Kmem.kalloc_none hk
        cases hf
        refine ⟨OnlyTakes.refl _, fun _ => ⟨rfl, fun _ _ => ?_⟩, fun h0 => absurd rfl h0⟩
        rw [kalloc_empty hk]
        exact Nat.zero_le 1
      · next mem k1 hk =>
        obtain ⟨⟨mapped, k2, pt2⟩, hm, hf⟩ := bind_ok hf
        obtain ⟨-, hmap⟩ := mappages_ok (V := V) hm
        have hall := (OnlyTakes.take hk 0).trans (OnlyTakes.mappages hm)
        have hfree := (Kmem.kalloc_some hk).1
        have hmem : mem ∈ k.freelist := by
          rw [hfree]
          exact List.mem_cons_self
        cases mapped with
        | false =>
          cases hf
          refine ⟨hall.kfree hmem, fun _ => ⟨hmap.leaf, fun _ _ => ?_⟩, fun h0 => absurd rfl h0⟩
          have hempty := mappages_none hm
          by_cases hle : k2.refCount (pa2idx mem) ≤ 1
          · rw [Kmem.kfree_last hle, hempty]
            exact le_rfl
          · rw [Kmem.kfree_shared (not_le.mp hle), hempty]
            exact Nat.zero_le 1
        | true =>
          obtain ⟨rfl, rfl, rfl⟩ : mem = r ∧ k2 = k' ∧ pt2 = pt' := by
            cases hf
            exact ⟨rfl, rfl, rfl⟩
          refine ⟨hall, fun h0 => ?_, fun _ => ⟨hmem, ?_, by omega, hmap.fresh rfl, hmap.leaf⟩⟩
          · have haddr : PageAddr mem := V.page_addr mem ((h.books.mem_free mem).mp hmem).1
            exact absurd h0 haddr.ne_zero
          · have hnodup : (mem :: k1.freelist).Nodup := by
              rw [← hfree]
              exact h.books.nodup
            rw [(OnlyTakes.mappages hm).page mem (List.nodup_cons.mp hnodup).1]
            exact Function.update_self mem _ _

/-- Between `k`, `pt` and `k'`, `pt'` pages may have been faulted in, and bytes have changed at the
addresses `I` only. -/
structure Confined (psz : Nat) (I : Set Nat) (k : Kmem) (pt : Pagetable) (k' : Kmem) (pt' : Pagetable) : Prop where
  faulted : Faulted psz pt.leaf pt'.leaf
  free : ∀ x ∈ k'.freelist, x ∈ k.freelist
  fresh : ∀ m q, pt.leaf m = none → pt'.leaf m = some q → q.pa ∈ k.freelist
  zero : ∀ m q, pt.leaf m = none → pt'.leaf m = some q → ∀ o < pgsize, m * pgsize + o ∉ I → k'.page q.pa o = 0
  kept : ∀ m q, m < tfPage → pt.leaf m = some q → ∀ o < pgsize, m * pgsize + o ∉ I → k'.page q.pa o = k.page q.pa o
  others : ∀ x, x ∉ k.freelist →
    (∀ a ∈ I, ∀ q, pt.leaf (a / pgsize) = some q → q.perm.u = true → q.perm.w = true → q.pa ≠ x) → k'.page x = k.page x

namespace Confined

variable {I J : Set Nat}

lemma refl (psz : Nat) (I : Set Nat) (k : Kmem) (pt : Pagetable) : Confined psz I k pt k pt := by
  refine ⟨Faulted.refl _ _, fun _ hx => hx, fun m q hnone hq => ?_, fun m q hnone hq => ?_, fun _ _ _ _ _ _ _ => rfl,
    fun _ _ _ => rfl⟩ <;>
  · rw [hnone] at hq
    cases hq

lemma mono (h : Confined psz I k pt k' pt') (hIJ : I ⊆ J) : Confined psz J k pt k' pt' :=
  ⟨h.faulted, h.free, h.fresh, fun m q hnone hq o ho hJ => h.zero m q hnone hq o ho fun hI => hJ (hIJ hI),
    fun m q hm hq o ho hJ => h.kept m q hm hq o ho fun hI => hJ (hIJ hI),
    fun x hx hne => h.others x hx fun a ha => hne a (hIJ ha)⟩

lemma trans (hsz : pages psz ≤ tfPage) (h : Confined psz I k pt k' pt') (h' : Confined psz I k' pt' k'' pt'') :
    Confined psz I k pt k'' pt'' := by
  -- a page that is there at the end has come in the first part or in the second
  have hsplit : ∀ m q, pt.leaf m = none → pt''.leaf m = some q →
      m < tfPage ∧ pt'.leaf m = some q ∨ pt'.leaf m = none := by
    intro m q hnone hq
    cases hmid : pt'.leaf m with
    | none => exact Or.inr rfl
    | some p =>
      have hp := stay h'.faulted hmid
      rw [hq] at hp
      cases hp
      rcases h.faulted m with heq | ⟨-, hlt, -⟩
      · rw [hnone, hmid] at heq
        cases heq
      · exact Or.inl ⟨by omega, rfl⟩
  refine ⟨h.faulted.trans h'.faulted, fun x hx => h.free x (h'.free x hx), fun m q hnone hq => ?_,
    fun m q hnone hq o ho hI => ?_, fun m q hm hq o ho hI => ?_, fun x hx hne => ?_⟩
  · rcases hsplit m q hnone hq with ⟨-, hmid⟩ | hmid
    · exact h.fresh m q hnone hmid
    · exact h.free _ (h'.fresh m q hmid hq)
  · rcases hsplit m q hnone hq with ⟨hm, hmid⟩ | hmid
    · rw [h'.kept m q hm hmid o ho hI, h.zero m q hnone hmid o ho hI]
    · exact h'.zero m q hmid hq o ho hI
  · rw [h'.kept m q hm (stay h.faulted hq) o ho hI, h.kept m q hm hq o ho hI]
  · rw [h'.others x (fun hx' => hx (h.free x hx')) fun a ha q hq hu hw => ?_, h.others x hx hne]
    cases hold : pt.leaf (a / pgsize) with
    | none =>
      rintro rfl
      exact hx (h.fresh _ q hold hq)
    | some p =>
      have hp := stay h.faulted hold
      rw [hq] at hp
      cases hp
      exact hne a ha q hold hu hw

/-- A page fault changes no byte. -/
lemma of_fault {r : Nat} (h : Userland V R tramp tf k pt) (hsz : pages psz ≤ tfPage)
    (hf : vmfault k psz pt pt (n * pgsize) = .ok (r, k', pt')) (I : Set Nat) : Confined psz I k pt k' pt' := by
  have hpage := vmfault_page h hsz hf
  have hkept : ∀ m q, m < tfPage → pt.leaf m = some q → ∀ o < pgsize, m * pgsize + o ∉ I → k'.page q.pa o = k.page q.pa o := by
    intro m q hm hq o _ _
    rw [hpage.takes.page q.pa (Sbrk.leaf_notMem_free h.books hm hq)]
  by_cases h0 : r = 0
  · obtain ⟨hleaf, -⟩ := hpage.refused h0
    refine ⟨fun m => Or.inl (by rw [hleaf]), hpage.takes.free, fun m q hnone hq => ?_, fun m q hnone hq => ?_, hkept,
      fun x hx _ => hpage.takes.page x hx⟩ <;>
    · rw [hleaf, hnone] at hq
      cases hq
  · obtain ⟨hr, hzero, hn, hnone, hleaf⟩ := hpage.mapped h0
    have haddr : PageAddr r := V.page_addr r ((h.books.mem_free r).mp hr).1
    -- the only new page is the one at `n`
    have hnew : ∀ m q, pt.leaf m = none → pt'.leaf m = some q → q.pa = r := by
      intro m q hm hq
      by_cases hmn : m = n
      · rw [hmn, hleaf, Function.update_self] at hq
        cases hq
        exact pa_pa2pte haddr.aligned _
      · rw [hleaf, Function.update_of_ne hmn, hm] at hq
        cases hq
    have hlt : n < pages psz := by
      by_contra hge
      unfold vmfault at hf
      rw [if_pos (not_lt.mp fun hva => hge (lt_pages hva))] at hf
      cases hf
      exact h0 rfl
    refine ⟨fun m => ?_, hpage.takes.free, fun m q hm hq => ?_, fun m q hm hq o _ _ => ?_, hkept,
      fun x hx _ => hpage.takes.page x hx⟩
    · by_cases hmn : m = n
      · subst hmn
        exact Or.inr ⟨hnone, hlt, r, by rw [hleaf, Function.update_self]⟩
      · exact Or.inl (by rw [hleaf, Function.update_of_ne hmn])
    · rw [hnew m q hm hq]
      exact hr
    · rw [hnew m q hm hq, hzero]

end Confined

/-! ### One round -/

lemma Userland.ne_zero {q : Pte} (h : Userland V R tramp tf k pt) (hq : pt.leaf n = some q) (hu : q.perm.u = true) :
    q.pa ≠ 0 :=
  (pageAddr_of_leaf h.books (h.top.lt_of_user hq hu) hq).ne_zero

lemma div_lt {a : Nat} (ha : a < maxva) : a / pgsize < 2 ^ 26 := by
  refine page_lt_of_maxva ((Nat.div_mul_le_self a pgsize).trans_lt ha)

/-- `walkaddr` finds the pages that user code may use. -/
lemma walkaddr_user (h : Userland V R tramp tf k pt) (n : Nat) : ∃ pa0, walkaddr k pt (n * pgsize) = .ok pa0 ∧
    (pa0 ≠ 0 → n < 2 ^ 26 ∧ ∃ q, pt.leaf n = some q ∧ q.perm.u = true ∧ q.pa = pa0) ∧
    (pa0 = 0 → n < 2 ^ 26 → ∀ q, pt.leaf n = some q → q.perm.u = false) := by
  by_cases hn : n < 2 ^ 26
  · refine ⟨_, walkaddr_page k pt hn, fun h0 => ?_, fun h0 _ q hq => ?_⟩
    · cases hq : pt.leaf n with
      | none =>
        rw [hq] at h0
        exact absurd rfl h0
      | some q =>
        rw [hq] at h0
        cases hu : q.perm.u with
        | false => simp [hu] at h0
        | true => exact ⟨hn, q, rfl, hu, by simp [hu]⟩
    · rw [hq] at h0
      by_contra hne
      have hu : q.perm.u = true := by simpa using hne
      refine h.ne_zero hq hu ?_
      simpa [hu] using h0
  · refine ⟨0, ?_, fun h0 => absurd rfl h0, fun _ hlt => absurd hlt hn⟩
    have hva : maxva ≤ n * pgsize := not_lt.mp fun hlt => hn (page_lt_of_maxva hlt)
    rw [walkaddr, if_pos hva]
    rfl

/-- What `faultIn` has done at page `n` when it returns `pa0`. -/
structure Brought (psz n : Nat) (k : Kmem) (pt : Pagetable) (pa0 : Nat) (k' : Kmem) (pt' : Pagetable) : Prop where
  confined : ∀ I, Confined psz I k pt k' pt'
  usable : pa0 ≠ 0 → n < 2 ^ 26 ∧ ∃ q, pt'.leaf n = some q ∧ q.perm.u = true ∧ q.pa = pa0
  refused : pa0 = 0 → (n < 2 ^ 26 → ∀ q, pt'.leaf n = some q → q.perm.u = false) ∧
    (pt'.leaf n = none → n * pgsize < psz → k'.freelist.length ≤ 1)

lemma faultIn_total (h : Userland V R tramp tf k pt) (hsz : pages psz ≤ tfPage) (n : Nat) :
    ∃ pa0 k' pt', faultIn k psz pt pt (n * pgsize) = .ok (pa0, k', pt') ∧ Userland V R tramp tf k' pt' ∧
      Brought psz n k pt pa0 k' pt' := by
  have htf := tfPage_eq
  obtain ⟨pa0, hwalk, husable, hrefused⟩ := walkaddr_user h n
  rw [faultIn, hwalk, ok_bind]
  by_cases h0 : pa0 = 0
  · rw [if_pos h0]
    obtain ⟨r, k', pt', hf⟩ := vmfault_total hsz (n * pgsize) k pt
    have hpage := vmfault_page h hsz hf
    have hconf := Confined.of_fault h hsz hf
    have htrade : k.Trades V k' pt.refs pt'.refs := by
      by_cases hn : n < 2 ^ 26
      · exact (vmfault_ok hn hsz hf).1
      · unfold vmfault at hf
        rw [if_pos (not_lt.mp fun hlt => absurd (lt_pages hlt) (by omega))] at hf
        cases hf
        exact Trade.refl _ _ _
    refine ⟨r, k', pt', hf, h.trade hsz htrade (hconf ∅).faulted, hconf, fun hr => ?_, fun hr => ?_⟩
    · obtain ⟨hfree, -, hn, -, hleaf⟩ := hpage.mapped hr
      have haddr : PageAddr r := V.page_addr r ((h.books.mem_free r).mp hfree).1
      refine ⟨by omega, _, by rw [hleaf, Function.update_self], rfl, pa_pa2pte haddr.aligned _⟩
    · obtain ⟨hleaf, hshort⟩ := hpage.refused hr
      rw [hleaf]
      exact ⟨hrefused h0, hshort⟩
  · rw [if_neg h0]
    refine ⟨pa0, k, pt, rfl, h, fun I => Confined.refl _ _ _ _, fun _ => husable h0, fun hr => absurd hr h0⟩

lemma page_div {o : Nat} (ho : o < pgsize) : (n * pgsize + o) / pgsize = n := by
  rw [Nat.mul_comm, Nat.mul_add_div (by decide), Nat.div_eq_of_lt ho, Nat.add_zero]

/-- The byte at offset `o` of page `n`. -/
lemma byteAt_page {q : Pte} {o : Nat} (hq : pt.leaf n = some q) (ho : o < pgsize) :
    byteAt k pt (n * pgsize + o) = k.page q.pa o := by
  have hmod : (n * pgsize + o) % pgsize = o := by
    rw [Nat.mul_comm, Nat.mul_add_mod, Nat.mod_eq_of_lt ho]
  rw [byteAt, page_div ho, hq, hmod]
  rfl

lemma usable_page {q : Pte} {o : Nat} {w : Bool} (hn : n < 2 ^ 26) (hq : pt.leaf n = some q) (ho : o < pgsize)
    (hu : q.perm.u = true) (hw : w = true → q.perm.w = true) : Usable w pt (n * pgsize + o) := by
  refine ⟨?_, q, by rw [page_div ho, hq], hu, hw⟩
  simp only [maxva, pgsize] at *
  omega

/-- What stays confined elsewhere keeps a byte that can be used. -/
lemma Confined.byte {I : Set Nat} {a : Nat} (h : Confined psz I k pt k' pt') {tramp tf : Nat} (ht : Top tramp tf pt.leaf)
    (hu : Usable false pt a) (ha : a ∉ I) : byteAt k' pt' a = byteAt k pt a := by
  obtain ⟨-, q, hq, hu, -⟩ := hu
  have hdecomp : a / pgsize * pgsize + a % pgsize = a := Nat.div_add_mod' a pgsize
  unfold byteAt
  rw [hq, stay h.faulted hq]
  exact h.kept _ q (ht.lt_of_user hq hu) hq _ (Nat.mod_lt _ (by decide)) (by rwa [hdecomp])

lemma Usable.stay {a : Nat} {w : Bool} (h : Usable w pt a) (hf : Faulted psz pt.leaf pt'.leaf) : Usable w pt' a := by
  obtain ⟨ha, q, hq, hperm⟩ := h
  exact ⟨ha, q, Copy.stay hf hq, hperm⟩

lemma Usable.read {a : Nat} {w : Bool} (h : Usable w pt a) : Usable false pt a := by
  obtain ⟨ha, q, hq, hu, -⟩ := h
  exact ⟨ha, q, hq, hu, by simp⟩

lemma setPage_self (k : Kmem) (pa : Nat) (m : Mem) : (k.setPage pa m).page pa = m :=
  Function.update_self _ _ _

lemma setPage_ne {x pa : Nat} (h : x ≠ pa) (k : Kmem) (m : Mem) : (k.setPage pa m).page x = k.page x :=
  Function.update_of_ne h _ _

/-- `memmove` to a user page. -/
lemma Confined.write (psz : Nat) {off : Nat} {src : List UInt8} {q : Pte} (h : Userland V R tramp tf k pt) (hq : pt.leaf n = some q)
    (hu : q.perm.u = true) (hw : q.perm.w = true) (hoff : off + src.length ≤ pgsize) (hsrc : src ≠ []) :
    Confined psz (Set.Ico (n * pgsize + off) (n * pgsize + off + src.length)) k pt
      (k.setPage q.pa (blit (k.page q.pa) off src)) pt := by
  have hlen : 0 < src.length := List.length_pos_iff.mpr hsrc
  have hn := h.top.lt_of_user hq hu
  refine ⟨Faulted.refl _ _, fun _ hx => hx, fun m p hnone hp => ?_, fun m p hnone hp => ?_, fun m p hm hp o ho hout => ?_,
    fun x _ hne => ?_⟩
  · rw [hnone] at hp
    cases hp
  · rw [hnone] at hp
    cases hp
  · by_cases hpa : p.pa = q.pa
    · obtain rfl : m = n := by
        have hnodup := h.nodup
        rw [Pagetable.refs] at hnodup
        exact userPages_inj (Multiset.nodup_add.mp hnodup).2.1 hm hn hp hq hpa
      rw [hpa, setPage_self]
      unfold blit
      rw [if_neg fun hin => hout ⟨by omega, by omega⟩]
    · rw [setPage_ne hpa]
  · have hqx := hne (n * pgsize + off) ⟨le_rfl, by omega⟩ q (by rw [page_div (by omega), hq]) hu hw
    exact setPage_ne (Ne.symm hqx) _ _

/-! ### To user memory -/

/-- What `copyout` of `src` to `dstva` has done when it returns `b`. -/
structure CopiedOut (psz dstva : Nat) (src : List UInt8) (k : Kmem) (pt : Pagetable) (b : Bool) (k' : Kmem)
    (pt' : Pagetable) : Prop where
  confined : Confined psz (Set.Ico dstva (dstva + src.length)) k pt k' pt'
  done : b = true → ∀ j < src.length, Usable true pt' (dstva + j) ∧ byteAt k' pt' (dstva + j) = src.getD j 0
  failed : b = false → ∃ j < src.length, ¬ Usable true pt' (dstva + j) ∧
    (Lazy psz pt' (dstva + j) → k'.freelist.length ≤ 1)

lemma CopiedOut.nil (psz dstva : Nat) (k : Kmem) (pt : Pagetable) : CopiedOut psz dstva [] k pt true k pt := by
  refine ⟨Confined.refl _ _ _ _, fun _ j hj => ?_, fun hb => ?_⟩
  · cases hj
  · cases hb

/-- The loop stops at its first address. -/
lemma CopiedOut.stop {dstva : Nat} {src : List UInt8} (hsrc : src ≠ []) (h : ∀ I, Confined psz I k pt k' pt')
    (hno : ¬ Usable true pt' dstva) (hlazy : Lazy psz pt' dstva → k'.freelist.length ≤ 1) :
    CopiedOut psz dstva src k pt false k' pt' := by
  refine ⟨h _, fun hb => ?_, fun _ => ⟨0, List.length_pos_iff.mpr hsrc, hno, hlazy⟩⟩
  cases hb

/-- A page has been brought in and written to, and the loop goes on with the next one. -/
lemma CopiedOut.cons {off m : Nat} {src : List UInt8} {k₁ : Kmem} {pt₁ : Pagetable} {q : Pte}
    (hsz : pages psz ≤ tfPage) (h₁ : Userland V R tramp tf k₁ pt₁) (hbrought : ∀ I, Confined psz I k pt k₁ pt₁)
    (hn : n < 2 ^ 26) (hq : pt₁.leaf n = some q) (hu : q.perm.u = true) (hw : q.perm.w = true) (hsrc : src ≠ [])
    (hoff : off < pgsize) (hm : m = min (pgsize - off) src.length)
    (hrest : CopiedOut psz (n * pgsize + pgsize) (src.drop m)
      (k₁.setPage q.pa (blit (k₁.page q.pa) off (src.take m))) pt₁ b k' pt') :
    CopiedOut psz (n * pgsize + off) src k pt b k' pt' := by
  have hlen : 0 < src.length := List.length_pos_iff.mpr hsrc
  have htake : (src.take m).length = m := by
    rw [List.length_take]
    omega
  have hdrop : (src.drop m).length = src.length - m := List.length_drop
  have hnonempty : src.take m ≠ [] := by
    rw [← List.length_pos_iff, htake]
    omega
  have hfit : off + (src.take m).length ≤ pgsize := by
    rw [htake]
    omega
  have hwrite := Confined.write psz h₁ hq hu hw hfit hnonempty
  have hconfined := hrest.confined
  rw [htake] at hwrite
  rw [hdrop] at hconfined
  refine ⟨?_, fun hb j hj => ?_, fun hb => ?_⟩
  · refine (hbrought _).trans hsz ((hwrite.mono fun x hx => ?_).trans hsz (hconfined.mono fun x hx => ?_))
    · exact ⟨hx.1, hx.2.trans_le (by omega)⟩
    · obtain ⟨hlo, hhi⟩ := hx
      exact ⟨by omega, by omega⟩
  · by_cases hjm : j < m
    · -- written in this round, and not touched later
      have husable : Usable true pt₁ (n * pgsize + off + j) := by
        rw [add_assoc]
        exact usable_page hn hq (by omega) hu fun _ => hw
      have hnot : n * pgsize + off + j ∉ Set.Ico (n * pgsize + pgsize) (n * pgsize + pgsize + (src.length - m)) := by
        rintro ⟨hlo, -⟩
        omega
      refine ⟨husable.stay hconfined.faulted, ?_⟩
      rw [hconfined.byte h₁.top husable.read hnot, add_assoc, byteAt_page hq (by omega), setPage_self]
      unfold blit
      rw [if_pos ⟨by omega, by omega⟩, Nat.add_sub_cancel_left, List.getD_eq_getElem?_getD, List.getElem?_take_of_lt hjm,
        ← List.getD_eq_getElem?_getD]
    · obtain ⟨husable, hbyte⟩ := hrest.done hb (j - m) (by omega)
      have haddr : n * pgsize + pgsize + (j - m) = n * pgsize + off + j := by omega
      rw [haddr] at husable hbyte
      refine ⟨husable, ?_⟩
      rw [hbyte, List.getD_eq_getElem?_getD, List.getElem?_drop, Nat.add_sub_cancel' (not_lt.mp hjm),
        ← List.getD_eq_getElem?_getD]
  · obtain ⟨j, hj, hno, hlazy⟩ := hrest.failed hb
    have haddr : n * pgsize + pgsize + j = n * pgsize + off + (m + j) := by omega
    rw [haddr] at hno hlazy
    exact ⟨m + j, by omega, hno, hlazy⟩

lemma exists_page (a : Nat) : ∃ n off, a = n * pgsize + off ∧ off < pgsize :=
  ⟨a / pgsize, a % pgsize, (Nat.div_add_mod' a pgsize).symm, Nat.mod_lt _ (by decide)⟩

/-- What lies in the heap lies below the trapframe. -/
lemma Lazy.lt {a : Nat} (h : Lazy psz pt a) (hsz : pages psz ≤ tfPage) : a / pgsize < tfPage :=
  (lt_pages h.1).trans_le hsz

lemma copyoutLoop_total {fuel : Nat} (dstva : Nat) (src : List UInt8) (h : Userland V R tramp tf k pt) (hsz : pages psz ≤ tfPage)
    (hfuel : src.length ≤ fuel) :
    ∃ b k' pt', copyoutLoop psz none fuel k pt dstva src = .ok (b, k', pt') ∧ Userland V R tramp tf k' pt' ∧
      CopiedOut psz dstva src k pt b k' pt' := by
  have htf := tfPage_eq
  induction fuel generalizing k pt dstva src with
  | zero =>
    obtain rfl : src = [] := List.length_eq_zero_iff.mp (Nat.le_zero.mp hfuel)
    exact ⟨true, k, pt, rfl, h, .nil _ _ _ _⟩
  | succ fuel ih =>
    by_cases hsrc : src = []
    · subst hsrc
      exact ⟨true, k, pt, rfl, h, .nil _ _ _ _⟩
    obtain ⟨n, off, rfl, hoff⟩ := exists_page dstva
    have hdown : pgRoundDown (n * pgsize + off) = n * pgsize := by rw [pgRoundDown_eq, page_div hoff]
    rw [copyoutLoop, if_neg hsrc]
    dsimp only
    rw [hdown]
    by_cases hva : maxva ≤ n * pgsize
    · rw [if_pos hva]
      refine ⟨false, k, pt, rfl, h, .stop hsrc (fun I => Confined.refl _ _ _ _) (fun hno => ?_) fun hlazy => ?_⟩
      · have hlt := hno.1
        omega
      · have hlt := hlazy.lt hsz
        rw [page_div hoff] at hlt
        have hbelow := page_lt_maxva (n := n) (by omega)
        omega
    · rw [if_neg hva]
      have hn : n < 2 ^ 26 := page_lt_of_maxva (not_le.mp hva)
      obtain ⟨pa0, k₁, pt₁, hfault, h₁, hb⟩ := faultIn_total h hsz n
      rw [Option.getD_none, hfault, ok_bind]
      dsimp only
      by_cases h0 : pa0 = 0
      · rw [if_pos h0]
        refine ⟨false, k₁, pt₁, rfl, h₁, .stop hsrc hb.confined (fun hno => ?_) fun hlazy => ?_⟩
        · obtain ⟨-, q, hq, hu, -⟩ := hno
          rw [page_div hoff] at hq
          rw [(hb.refused h0).1 hn q hq] at hu
          cases hu
        · obtain ⟨hlt, hnone⟩ := hlazy
          rw [hdown] at hlt
          rw [page_div hoff] at hnone
          exact (hb.refused h0).2 hnone hlt
      · rw [if_neg h0]
        obtain ⟨-, q, hq, hu, rfl⟩ := hb.usable h0
        have hpte : pt₁.pte (n * pgsize) = some q := (pte_page pt₁ hn).trans hq
        rw [Option.getD_none, walk_of_reaches k₁ (page_lt_maxva hn) (Pagetable.reaches_of_leaf hpte), ok_bind]
        dsimp only
        rw [if_neg (by simp), hpte, Option.any_some]
        cases hw : q.perm.w with
        | false =>
          refine ⟨false, k₁, pt₁, rfl, h₁, .stop hsrc hb.confined (fun hno => ?_) fun hlazy => ?_⟩
          · obtain ⟨-, p, hp, -, hwritable⟩ := hno
            rw [page_div hoff, hq] at hp
            cases hp
            rw [hwritable rfl] at hw
            cases hw
          · have hnone := hlazy.2
            rw [page_div hoff, hq] at hnone
            cases hnone
        | true =>
          rw [if_neg (by simp), Nat.add_sub_cancel_left]
          have hmem : q.pa ∈ pt₁.refs := mem_refs (h₁.top.lt_of_user hq hu) hq
          have h₂ := h₁.trade hsz (Kmem.trades_setPage (V := V) (k := k₁)
            (blit (k₁.page q.pa) off (src.take (min (pgsize - off) src.length))) hmem) (Faulted.refl psz _)
          obtain ⟨b, k', pt', hrun, h', hrest⟩ := ih (n * pgsize + pgsize)
            (src.drop (min (pgsize - off) src.length)) h₂ (by rw [List.length_drop]; omega)
          exact ⟨b, k', pt', hrun, h', .cons hsz h₁ hb.confined hn hq hu hw hsrc hoff rfl hrest⟩

/-! ### From user memory -/

/-- What `copyin` of `len` bytes from `srcva` has done when it returns `b` and has stored `dst`. -/
structure CopiedIn (psz srcva len : Nat) (k : Kmem) (pt : Pagetable) (b : Bool) (dst : List UInt8) (k' : Kmem)
    (pt' : Pagetable) : Prop where
  confined : Confined psz ∅ k pt k' pt'
  length : dst.length ≤ len
  done : b = true → dst.length = len
  bytes : ∀ j < dst.length, Usable false pt' (srcva + j) ∧ dst.getD j 0 = byteAt k' pt' (srcva + j)
  failed : b = false → ∃ j < len, ¬ Usable false pt' (srcva + j) ∧ (Lazy psz pt' (srcva + j) → k'.freelist.length ≤ 1)

lemma CopiedIn.nil (psz srcva : Nat) (k : Kmem) (pt : Pagetable) : CopiedIn psz srcva 0 k pt true [] k pt := by
  refine ⟨Confined.refl _ _ _ _, le_rfl, fun _ => rfl, fun j hj => ?_, fun hb => ?_⟩
  · cases hj
  · cases hb

lemma CopiedIn.stop {srcva len : Nat} (hlen : 0 < len) (h : Confined psz ∅ k pt k' pt') (hno : ¬ Usable false pt' srcva)
    (hlazy : Lazy psz pt' srcva → k'.freelist.length ≤ 1) : CopiedIn psz srcva len k pt false [] k' pt' := by
  refine ⟨h, Nat.zero_le _, fun hb => ?_, fun j hj => ?_, fun _ => ⟨0, hlen, hno, hlazy⟩⟩
  · cases hb
  · cases hj

/-- The bytes of a page that has been brought in, and what follows. -/
lemma CopiedIn.cons {off m len : Nat} {dst : List UInt8} {k₁ : Kmem} {pt₁ : Pagetable} {q : Pte}
    (hsz : pages psz ≤ tfPage) (h₁ : Userland V R tramp tf k₁ pt₁) (hbrought : Confined psz ∅ k pt k₁ pt₁)
    (hn : n < 2 ^ 26) (hq : pt₁.leaf n = some q) (hu : q.perm.u = true) (hoff : off < pgsize)
    (hm : m = min (pgsize - off) len) (hrest : CopiedIn psz (n * pgsize + pgsize) (len - m) k₁ pt₁ b dst k' pt') :
    CopiedIn psz (n * pgsize + off) len k pt b (((List.range m).map fun i => k₁.page q.pa (off + i)) ++ dst) k' pt' := by
  obtain ⟨src, hsrc⟩ : ∃ src, src = (List.range m).map fun i => k₁.page q.pa (off + i) := ⟨_, rfl⟩
  have hcount : src.length = m := by rw [hsrc, List.length_map, List.length_range]
  have hshort := hrest.length
  rw [← hsrc]
  refine ⟨hbrought.trans hsz hrest.confined, ?_, fun hb => ?_, fun j hj => ?_, fun hb => ?_⟩
  · rw [List.length_append]
    omega
  · rw [List.length_append, hrest.done hb]
    omega
  · rw [List.length_append, hcount] at hj
    by_cases hjm : j < m
    · have husable : Usable false pt₁ (n * pgsize + off + j) := by
        rw [add_assoc]
        exact usable_page hn hq (by omega) hu (by simp)
      refine ⟨husable.stay hrest.confined.faulted, ?_⟩
      rw [hrest.confined.byte h₁.top husable (Set.notMem_empty _), add_assoc, byteAt_page hq (by omega),
        List.getD_append _ _ _ _ (by omega), hsrc, List.getD_eq_getElem?_getD]
      simp [hjm]
    · obtain ⟨husable, hbyte⟩ := hrest.bytes (j - m) (by omega)
      have haddr : n * pgsize + pgsize + (j - m) = n * pgsize + off + j := by omega
      rw [haddr] at husable hbyte
      refine ⟨husable, ?_⟩
      rw [List.getD_append_right _ _ _ _ (by omega), hcount, hbyte]
  · obtain ⟨j, hj, hno, hlazy⟩ := hrest.failed hb
    have haddr : n * pgsize + pgsize + j = n * pgsize + off + (m + j) := by omega
    rw [haddr] at hno hlazy
    exact ⟨m + j, by omega, hno, hlazy⟩

lemma copyinLoop_total {fuel : Nat} (srcva len : Nat) (acc : List UInt8) (h : Userland V R tramp tf k pt)
    (hsz : pages psz ≤ tfPage) (hfuel : len ≤ fuel) :
    ∃ b dst k' pt', copyinLoop psz none fuel k pt srcva len acc = .ok (b, acc ++ dst, k', pt') ∧
      Userland V R tramp tf k' pt' ∧ CopiedIn psz srcva len k pt b dst k' pt' := by
  induction fuel generalizing k pt srcva len acc with
  | zero =>
    obtain rfl : len = 0 := Nat.le_zero.mp hfuel
    exact ⟨true, [], k, pt, by rw [List.append_nil]; rfl, h, .nil _ _ _ _⟩
  | succ fuel ih =>
    by_cases hlen : len = 0
    · subst hlen
      refine ⟨true, [], k, pt, ?_, h, .nil _ _ _ _⟩
      rw [copyinLoop, if_pos rfl, List.append_nil]
      rfl
    obtain ⟨n, off, rfl, hoff⟩ := exists_page srcva
    have hdown : pgRoundDown (n * pgsize + off) = n * pgsize := by rw [pgRoundDown_eq, page_div hoff]
    obtain ⟨pa0, k₁, pt₁, hfault, h₁, hb⟩ := faultIn_total h hsz n
    rw [copyinLoop, if_neg hlen]
    dsimp only
    rw [hdown, Option.getD_none, hfault, ok_bind]
    dsimp only
    by_cases h0 : pa0 = 0
    · rw [if_pos h0]
      refine ⟨false, [], k₁, pt₁, by rw [List.append_nil]; rfl, h₁,
        .stop (Nat.pos_of_ne_zero hlen) (hb.confined _) (fun hno => ?_) fun hlazy => ?_⟩
      · obtain ⟨hlt, q, hq, hu, -⟩ := hno
        have hn := div_lt hlt
        rw [page_div hoff] at hq hn
        rw [(hb.refused h0).1 hn q hq] at hu
        cases hu
      · obtain ⟨hlt, hnone⟩ := hlazy
        rw [hdown] at hlt
        rw [page_div hoff] at hnone
        exact (hb.refused h0).2 hnone hlt
    · rw [if_neg h0, Nat.add_sub_cancel_left]
      obtain ⟨hn, q, hq, hu, rfl⟩ := hb.usable h0
      obtain ⟨b, dst, k', pt', hrun, h', hrest⟩ := ih (n * pgsize + pgsize) (len - min (pgsize - off) len)
        (acc ++ (List.range (min (pgsize - off) len)).map fun i => k₁.page q.pa (off + i)) h₁ (by omega)
      rw [List.append_assoc] at hrun
      exact ⟨b, _, k', pt', hrun, h', .cons hsz h₁ (hb.confined _) hn hq hu hoff rfl hrest⟩

/-! ### Strings -/

/-- `dst` is what the inner loop has taken of the `n` bytes from `p` on, up to and with a NUL if it returns `b`. -/
structure Scanned (m : Nat → UInt8) (n : Nat) (b : Bool) (dst : List UInt8) : Prop where
  length : dst.length ≤ n
  bytes : ∀ j < dst.length, dst.getD j 0 = m j
  nul : b = true → ∃ j, dst.length = j + 1 ∧ m j = 0 ∧ ∀ i < j, m i ≠ 0
  full : b = false → dst.length = n ∧ ∀ j < n, m j ≠ 0

lemma scanNul_ok (m : Mem) (p n : Nat) : Scanned (fun j => m (p + j)) n (scanNul m p n).1 (scanNul m p n).2 := by
  induction n generalizing p with
  | zero =>
    rw [scanNul]
    exact ⟨le_rfl, fun j hj => absurd hj (Nat.not_lt_zero j), fun hb => (by cases hb),
      fun _ => ⟨rfl, fun j hj => absurd hj (Nat.not_lt_zero j)⟩⟩
  | succ n ih =>
    rw [scanNul]
    by_cases h0 : m p = 0
    · rw [if_pos h0]
      refine ⟨?_, fun j hj => ?_, fun _ => ⟨0, rfl, h0, fun i hi => absurd hi (Nat.not_lt_zero i)⟩, fun hb => (by cases hb)⟩
      · exact Nat.le_add_left 1 n
      · obtain rfl : j = 0 := Nat.lt_one_iff.mp hj
        exact h0.symm
    · rw [if_neg h0]
      have hrest := ih (p + 1)
      have hnext : ∀ j, m (p + 1 + j) = m (p + (j + 1)) := fun j => by rw [add_assoc, add_comm 1 j]
      refine ⟨Nat.succ_le_succ hrest.length, fun j hj => ?_, fun hb => ?_, fun hb => ?_⟩
      · cases j with
        | zero => rfl
        | succ j =>
          rw [← hnext, ← hrest.bytes j (Nat.lt_of_succ_lt_succ hj)]
          rfl
      · obtain ⟨j, hlen, hzero, hbefore⟩ := hrest.nul hb
        refine ⟨j + 1, congrArg Nat.succ hlen, (hnext j).symm.trans hzero, fun i hi => ?_⟩
        cases i with
        | zero => exact h0
        | succ i =>
          rw [← hnext]
          exact hbefore i (Nat.lt_of_succ_lt_succ hi)
      · obtain ⟨hlen, hall⟩ := hrest.full hb
        refine ⟨congrArg Nat.succ hlen, fun j hj => ?_⟩
        cases j with
        | zero => exact h0
        | succ j =>
          rw [← hnext]
          exact hall j (Nat.lt_of_succ_lt_succ hj)

/-- What `copyinstr` of up to `max` bytes from `srcva` has found when it returns `b` and has stored `dst`. -/
structure CopiedStr (srcva max : Nat) (k : Kmem) (pt : Pagetable) (b : Bool) (dst : List UInt8) : Prop where
  length : dst.length ≤ max
  bytes : ∀ j < dst.length, Usable false pt (srcva + j) ∧ dst.getD j 0 = byteAt k pt (srcva + j)
  nul : b = true → ∃ j, dst.length = j + 1 ∧ byteAt k pt (srcva + j) = 0 ∧ ∀ i < j, byteAt k pt (srcva + i) ≠ 0
  none : b = false → (∀ j < dst.length, byteAt k pt (srcva + j) ≠ 0) ∧
    (dst.length = max ∨ ¬ Usable false pt (srcva + dst.length))

lemma CopiedStr.nil {srcva max : Nat} (h : max = 0 ∨ ¬ Usable false pt srcva) : CopiedStr srcva max k pt false [] := by
  refine ⟨Nat.zero_le _, fun j hj => absurd hj (Nat.not_lt_zero j), fun hb => ?_,
    fun _ => ⟨fun j hj => absurd hj (Nat.not_lt_zero j), h.imp_left Eq.symm⟩⟩
  cases hb

/-- A page without a NUL in it, and what follows. -/
lemma CopiedStr.append {srcva m max : Nat} {src dst : List UInt8} (hm : m ≤ max)
    (hsrc : Scanned (fun j => byteAt k pt (srcva + j)) m false src) (husable : ∀ j < m, Usable false pt (srcva + j))
    (hrest : CopiedStr (srcva + m) (max - m) k pt b dst) : CopiedStr srcva max k pt b (src ++ dst) := by
  obtain ⟨hlen, hnonzero⟩ := hsrc.full rfl
  have hshort := hrest.length
  have hbefore : ∀ {j}, ¬ j < m → srcva + m + (j - m) = srcva + j := fun {j} hj => by omega
  refine ⟨?_, fun j hj => ?_, fun hb => ?_, fun hb => ?_⟩
  · rw [List.length_append]
    omega
  · rw [List.length_append] at hj
    by_cases hjm : j < m
    · refine ⟨husable j hjm, ?_⟩
      rw [List.getD_append _ _ _ _ (by omega)]
      exact hsrc.bytes j (by omega)
    · have hbyte := hrest.bytes (j - m) (by omega)
      rw [hbefore hjm] at hbyte
      rw [List.getD_append_right _ _ _ _ (by omega), hlen]
      exact hbyte
  · obtain ⟨j, hdst, hzero, hall⟩ := hrest.nul hb
    refine ⟨m + j, by rw [List.length_append]; omega, by rw [← add_assoc]; exact hzero, fun i hi => ?_⟩
    by_cases him : i < m
    · exact hnonzero i him
    · rw [← hbefore him]
      exact hall (i - m) (by omega)
  · obtain ⟨hall, hend⟩ := hrest.none hb
    rw [List.length_append, hlen]
    refine ⟨fun j hj => ?_, ?_⟩
    · by_cases hjm : j < m
      · exact hnonzero j hjm
      · rw [← hbefore hjm]
        exact hall (j - m) (by omega)
    · rw [← add_assoc]
      exact hend.imp_left fun heq => by omega

lemma copyinstrLoop_total {fuel : Nat} (srcva max : Nat) (acc : List UInt8) (h : Userland V R tramp tf k pt)
    (hfuel : max ≤ fuel) :
    ∃ b dst, copyinstrLoop k pt fuel srcva max acc = .ok (b, acc ++ dst) ∧ CopiedStr srcva max k pt b dst := by
  induction fuel generalizing srcva max acc with
  | zero => exact ⟨false, [], by rw [List.append_nil]; rfl, .nil (Or.inl (Nat.le_zero.mp hfuel))⟩
  | succ fuel ih =>
    by_cases hmax : max = 0
    · refine ⟨false, [], ?_, .nil (Or.inl hmax)⟩
      rw [copyinstrLoop, if_pos hmax, List.append_nil]
      rfl
    obtain ⟨n, off, rfl, hoff⟩ := exists_page srcva
    have hdown : pgRoundDown (n * pgsize + off) = n * pgsize := by rw [pgRoundDown_eq, page_div hoff]
    obtain ⟨pa0, hwalk, husable, hrefused⟩ := walkaddr_user h n
    rw [copyinstrLoop, if_neg hmax]
    dsimp only
    rw [hdown, hwalk, ok_bind]
    by_cases h0 : pa0 = 0
    · rw [if_pos h0]
      refine ⟨false, [], by rw [List.append_nil]; rfl, .nil (Or.inr fun hno => ?_)⟩
      obtain ⟨hlt, q, hq, hu, -⟩ := hno
      have hn := div_lt hlt
      rw [page_div hoff] at hq hn
      rw [hrefused h0 hn q hq] at hu
      cases hu
    · rw [if_neg h0, Nat.add_sub_cancel_left]
      obtain ⟨hn, q, hq, hu, rfl⟩ := husable h0
      obtain ⟨m, hm⟩ : ∃ m, m = min (pgsize - off) max := ⟨_, rfl⟩
      rw [← hm]
      -- the bytes of the page are those of user memory
      have hbytes : ∀ j < m, k.page q.pa (off + j) = byteAt k pt (n * pgsize + off + j) := by
        intro j hj
        rw [add_assoc, byteAt_page hq (by omega)]
      have hin : ∀ j < m, Usable false pt (n * pgsize + off + j) := by
        intro j hj
        rw [add_assoc]
        exact usable_page hn hq (by omega) hu (by simp)
      have hscan := scanNul_ok (k.page q.pa) off m
      rcases hres : scanNul (k.page q.pa) off m with ⟨gotNull, dst⟩
      rw [hres] at hscan
      change Scanned _ m gotNull dst at hscan
      have hscanned : Scanned (fun j => byteAt k pt (n * pgsize + off + j)) m gotNull dst := by
        have hlen := hscan.length
        refine ⟨hlen, fun j hj => ?_, fun hb => ?_, fun hb => ?_⟩
        · rw [hscan.bytes j hj, hbytes j (by omega)]
        · obtain ⟨j, hdst, hzero, hall⟩ := hscan.nul hb
          refine ⟨j, hdst, ?_, fun i hi => ?_⟩
          · rw [← hbytes j (by omega)]
            exact hzero
          · rw [← hbytes i (by omega)]
            exact hall i hi
        · obtain ⟨hdst, hall⟩ := hscan.full hb
          refine ⟨hdst, fun j hj => ?_⟩
          rw [← hbytes j hj]
          exact hall j hj
      cases gotNull with
      | true =>
        refine ⟨true, dst, rfl, ?_, fun j hj => ⟨hin j ?_, hscanned.bytes j hj⟩, hscanned.nul, fun hb => (by cases hb)⟩
        · exact hscanned.length.trans (by omega)
        · exact hj.trans_le hscanned.length
      | false =>
        obtain ⟨b, rest, hrun, hrest⟩ := ih (n * pgsize + pgsize) (max - m) (acc ++ dst) (by omega)
        rw [List.append_assoc] at hrun
        refine ⟨b, dst ++ rest, hrun, .append (by omega) hscanned hin ?_⟩
        by_cases hlast : m = max
        · rw [hlast, Nat.sub_self] at hrest ⊢
          have hrest0 := hrest.length
          obtain rfl : rest = [] := List.length_eq_zero_iff.mp (Nat.le_zero.mp hrest0)
          cases b with
          | true =>
            obtain ⟨j, hj, -⟩ := hrest.nul rfl
            cases hj
          | false => exact .nil (Or.inl rfl)
        · have hnext : n * pgsize + pgsize = n * pgsize + off + m := by omega
          rw [hnext] at hrest
          exact hrest

/-! ### Results -/

/-- A page that user code may not write to keeps what it holds: the trampoline, the trapframe, the guard
page, and text. -/
lemma Confined.locked {I : Set Nat} (h : Confined psz I k pt k' pt') (hpt : Userland V R tramp tf k pt) (m : Nat) (q : Pte)
    (hq : pt.leaf m = some q) (hperm : ¬ (q.perm.u = true ∧ q.perm.w = true)) : k'.page q.pa = k.page q.pa := by
  have htf := tfPage_eq
  have hnodup : (userPages pt.leaf).Nodup := by
    have hrefs := hpt.nodup
    rw [Pagetable.refs] at hrefs
    exact (Multiset.nodup_add.mp hrefs).2.1
  have huser : ∀ a p, pt.leaf a = some p → p.perm.u = true → p.pa ∈ R + pt.refs := by
    intro a p hp hu
    exact Multiset.mem_add.mpr (Or.inr (mem_refs (hpt.top.lt_of_user hp hu) hp))
  rcases lt_trichotomy m tfPage with hm | rfl | hm
  · refine h.others _ (Sbrk.leaf_notMem_free hpt.books hm hq) fun a _ p hp hu hw heq => hperm ?_
    have hsame : a / pgsize = m := userPages_inj hnodup (hpt.top.lt_of_user hp hu) hm hp hq heq
    rw [hsame, hq] at hp
    cases hp
    exact ⟨hu, hw⟩
  · obtain ⟨hin, hout⟩ := hpt.trapframe
    have haddr : PageAddr tf := V.page_addr tf (hpt.books.subset tf (Multiset.mem_add.mpr (Or.inl hin)))
    rw [hpt.top.trapframe] at hq
    cases hq
    rw [pa_pa2pte haddr.aligned]
    refine h.others _ (hpt.books.notMem_free (Multiset.mem_add.mpr (Or.inl hin))) fun a _ p hp hu _ heq => hout ?_
    rw [← heq]
    exact mem_refs (hpt.top.lt_of_user hp hu) hp
  · obtain rfl : m = tfPage + 1 := by
      by_contra hne
      rw [hpt.top.above m (by omega)] at hq
      cases hq
    rw [hpt.top.trampoline] at hq
    cases hq
    refine h.others _ (fun hfree => hpt.trampoline ((hpt.books.mem_free _).mp hfree).1) fun a _ p hp hu _ heq => ?_
    refine hpt.trampoline ?_
    have hmem := hpt.books.subset _ (huser _ p hp hu)
    rwa [heq] at hmem

/-- An address in the heap has a page afterwards, or still has none. -/
lemma Lazy.granted {a : Nat} (h : Lazy psz pt a) (hsz : pages psz ≤ tfPage) (hf : Faulted psz pt.leaf pt'.leaf) (w : Bool) :
    Usable w pt' a ∨ Lazy psz pt' a := by
  have htf := tfPage_eq
  have hlt := h.lt hsz
  obtain ⟨hbelow, hnone⟩ := h
  rcases hf (a / pgsize) with heq | ⟨-, -, pa, hpa⟩
  · exact Or.inr ⟨hbelow, by rw [heq, hnone]⟩
  · refine Or.inl ⟨?_, _, hpa, rfl, fun _ => rfl⟩
    simp only [maxva, pgsize] at *
    omega

/-- What is mapped for the user, or in the heap, can be used afterwards unless memory has run out. -/
lemma short_of_failed {w : Bool} {lo len : Nat} (hsz : pages psz ≤ tfPage) (hf : Faulted psz pt.leaf pt'.leaf)
    (hfailed : ∃ j < len, ¬ Usable w pt' (lo + j) ∧ (Lazy psz pt' (lo + j) → k'.freelist.length ≤ 1))
    (hall : ∀ a ∈ Set.Ico lo (lo + len), Usable w pt a ∨ Lazy psz pt a) : k'.freelist.length ≤ 1 := by
  obtain ⟨j, hj, hno, hlazy⟩ := hfailed
  rcases hall (lo + j) ⟨by omega, by omega⟩ with husable | hheap
  · exact absurd (husable.stay hf) hno
  · exact hlazy ((hheap.granted hsz hf w).resolve_left hno)

/-- The copying routines on a page table of a process whose size is at most `TRAPFRAME`. They always return.
`copyout` succeeds if and only if user code can then write to the whole range, and `copyin` if and only if it
can read it; a failure where all pages are mapped for the user or in the heap comes with the end of memory.
Nothing but the range changes, pages that are faulted in apart, which are filled with zeros; and what `copyin` and
`copyinstr` deliver are bytes that user code can read. -/
theorem copies_respect_page_table (h : Userland V R tramp tf k pt) (hpsz : psz ≤ trapframeVa) :
    (∀ dstva src, ∃ b k' pt', copyout k psz pt none dstva src = .ok (b, k', pt') ∧
      (b = true ↔ ∀ a ∈ Set.Ico dstva (dstva + src.length), Usable true pt' a) ∧
      (b = true → ∀ j < src.length, byteAt k' pt' (dstva + j) = src.getD j 0) ∧
      ((∀ a ∈ Set.Ico dstva (dstva + src.length), Usable true pt a ∨ Lazy psz pt a) → b = false →
        k'.freelist.length ≤ 1) ∧
      Confined psz (Set.Ico dstva (dstva + src.length)) k pt k' pt' ∧
      ∀ m q, pt.leaf m = some q → ¬ (q.perm.u = true ∧ q.perm.w = true) → k'.page q.pa = k.page q.pa) ∧
    (∀ srcva len, ∃ b dst k' pt', copyin k psz pt none srcva len = .ok (b, dst, k', pt') ∧
      (b = true ↔ ∀ a ∈ Set.Ico srcva (srcva + len), Usable false pt' a) ∧
      (b = true → dst.length = len) ∧ dst.length ≤ len ∧
      (∀ j < dst.length, Usable false pt' (srcva + j) ∧ dst.getD j 0 = byteAt k' pt' (srcva + j)) ∧
      ((∀ a ∈ Set.Ico srcva (srcva + len), Usable false pt a ∨ Lazy psz pt a) → b = false →
        k'.freelist.length ≤ 1) ∧
      Confined psz ∅ k pt k' pt') ∧
    ∀ srcva max, ∃ b dst, copyinstr k pt srcva max = .ok (b, dst) ∧
      (b = true ↔ ∃ j < max, byteAt k pt (srcva + j) = 0 ∧ ∀ i ≤ j, Usable false pt (srcva + i)) ∧
      (b = true → ∃ j, dst.length = j + 1 ∧ byteAt k pt (srcva + j) = 0 ∧ ∀ i < j, byteAt k pt (srcva + i) ≠ 0) ∧
      dst.length ≤ max ∧
      ∀ j < dst.length, Usable false pt (srcva + j) ∧ dst.getD j 0 = byteAt k pt (srcva + j) := by
  have hsz : pages psz ≤ tfPage := by
    rw [← Sbrk.pages_trapframe]
    exact pages_mono hpsz
  refine ⟨fun dstva src => ?_, fun srcva len => ?_, fun srcva max => ?_⟩
  · obtain ⟨b, k', pt', hrun, -, hout⟩ := copyoutLoop_total dstva src h hsz le_rfl
    refine ⟨b, k', pt', hrun, ⟨fun hb a ha => ?_, fun hall => ?_⟩, fun hb j hj => (hout.done hb j hj).2,
      fun hall hb => short_of_failed hsz hout.confined.faulted (hout.failed hb) hall, hout.confined,
      hout.confined.locked h⟩
    · obtain ⟨hlo, hhi⟩ := ha
      have husable := (hout.done hb (a - dstva) (by omega)).1
      rwa [Nat.add_sub_cancel' hlo] at husable
    · by_contra hb
      obtain ⟨j, hj, hno, -⟩ := hout.failed (by simpa using hb)
      exact hno (hall _ ⟨by omega, by omega⟩)
  · obtain ⟨b, dst, k', pt', hrun, -, hin⟩ := copyinLoop_total srcva len [] h hsz le_rfl
    refine ⟨b, dst, k', pt', hrun, ⟨fun hb a ha => ?_, fun hall => ?_⟩, hin.done, hin.length, hin.bytes,
      fun hall hb => short_of_failed hsz hin.confined.faulted (hin.failed hb) hall, hin.confined⟩
    · obtain ⟨hlo, hhi⟩ := ha
      have hlen := hin.done hb
      have husable := (hin.bytes (a - srcva) (by omega)).1
      rwa [Nat.add_sub_cancel' hlo] at husable
    · by_contra hb
      obtain ⟨j, hj, hno, -⟩ := hin.failed (by simpa using hb)
      exact hno (hall _ ⟨by omega, by omega⟩)
  · obtain ⟨b, dst, hrun, hstr⟩ := copyinstrLoop_total srcva max [] h le_rfl
    refine ⟨b, dst, hrun, ⟨fun hb => ?_, fun hnul => ?_⟩, hstr.nul, hstr.length, hstr.bytes⟩
    · obtain ⟨j, hlen, hzero, -⟩ := hstr.nul hb
      have hmax := hstr.length
      exact ⟨j, by omega, hzero, fun i hi => (hstr.bytes i (by omega)).1⟩
    · by_contra hb
      obtain ⟨j, hj, hzero, husable⟩ := hnul
      obtain ⟨hall, hend⟩ := hstr.none (by simpa using hb)
      by_cases hlt : j < dst.length
      · exact hall j hlt hzero
      · rcases hend with heq | hno
        · omega
        · exact hno (husable _ (not_lt.mp hlt))

/-- The first process is given two bytes at the bottom of its heap. -/
theorem copies_respect_page_table_first : ∃ pt b k' pt', (firstExecd.proc 0).pagetable = some pt ∧
    copyout firstExecd.kmem 4096 pt none 0 [1, 2] = .ok (b, k', pt') ∧
    (b = true ↔ ∀ a ∈ Set.Ico 0 2, Usable true pt' a) ∧
    (b = true → ∀ j < 2, byteAt k' pt' (0 + j) = ([1, 2] : List UInt8).getD j 0) := by
  have hused : (firstExecd.proc 0).state ≠ .UNUSED := by decide +kernel
  obtain ⟨R, tf, pt, hpt, -, huser⟩ := Userland.of_good good_firstExecd hused execd_firstExecd.tenants.tramp
  obtain ⟨b, k', pt', hrun, hiff, hbytes, -⟩ := (copies_respect_page_table huser (by decide : 4096 ≤ trapframeVa)).1 0 [1, 2]
  exact ⟨pt, b, k', pt', hpt, hrun, hiff, hbytes⟩

end Copy

end FogOS.Kernel
