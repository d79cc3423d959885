import FogOS.Kernel.Kalloc

/-!
# The free list in memory

`kernel/kalloc.c` once more, at the level of the machine: the free list is threaded through the
free pages themselves, and the reference counts are `int`s. The lists and numbers of
`FogOS.Kernel.Kalloc` are what this memory stands for.
-/

namespace FogOS.Kernel

open ByteMem Ledger

/-- `kmem.freelist` (0 is the null pointer), `ref_count` and physical memory. -/
structure Phys where
  freelist : Nat
  refCount : Int → Int
  mem : Mem

namespace Phys

/-- Allocate one page of physical memory; 0 if there is none. -/
def kalloc (s : Phys) : Nat × Phys :=
  let r := s.freelist
  if r ≠ 0 then
    let s := { s with freelist := s.mem.load64 r }
    let s := { s with mem := s.mem.fill r pgsize 5 }
    let idx := pa2idx r
    if 0 ≤ idx ∧ idx < ((phystop - kernbase) / pgsize : Nat) then
      (r, { s with refCount := Function.update s.refCount idx 1 })
    else (r, s)
  else (r, s)

/-- Free the page of physical memory at `pa`. -/
def kfree (s : Phys) (pa : Nat) : Phys :=
  let idx := pa2idx pa
  let s := { s with refCount := Function.update s.refCount idx (toInt32 (s.refCount idx - 1)) }
  if 0 < s.refCount idx then s
  else
    let s := { s with mem := s.mem.fill pa pgsize 1 }
    { s with mem := s.mem.store64 pa s.freelist, freelist := pa }

/-- Increment the reference count. -/
def krefpage (s : Phys) (pa : Nat) : Phys :=
  let idx := pa2idx pa
  { s with refCount := Function.update s.refCount idx (toInt32 (s.refCount idx + 1)) }

/-- The loop of `Kfreepages`, with a bound on the number of rounds. -/
def kfreepagesLoop (s : Phys) : Nat → Nat → Nat → Option Nat
  | 0, _, _ => none
  | fuel + 1, r, n => if r ≠ 0 then s.kfreepagesLoop fuel (s.mem.load64 r) (n + 1) else some n

/-- The length of the free list, found in fewer than `fuel` rounds. -/
def kfreepages (s : Phys) (fuel : Nat) : Option Nat := s.kfreepagesLoop fuel s.freelist 0

def freerangeLoop : Nat → Phys → Nat → Phys
  | 0, s, _ => s
  | n + 1, s, p => freerangeLoop n (s.kfree p) (p + pgsize)

/-- Free the whole pages of a range of physical memory. -/
def freerange (s : Phys) (paStart paEnd : Nat) : Phys :=
  let p := pgRoundUp paStart
  freerangeLoop ((paEnd - p) / pgsize) s p

/-- `kinit`; the kernel ends at `kend`. -/
def kinit (s : Phys) (kend : Nat) : Phys :=
  let s := { s with refCount := fun i =>
    if 0 ≤ i ∧ i < ((phystop - kernbase) / pgsize : Nat) then 0 else s.refCount i }
  s.freerange kend phystop

/-- At reset the kernel's variables are zero; memory may hold anything. -/
def reset (m : Mem) : Phys where
  freelist := 0
  refCount := 0
  mem := m

/-! ### Runs -/

/-- The calls of the allocator, with what they returned, and the stores of other code. -/
inductive Call
  | kalloc (r : Nat)
  | krefpage (pa : Nat)
  | kfree (pa : Nat)
  | write (a : Nat) (v : UInt8)

/-- The balance of references to `pa` after one more call. -/
def Call.note (pa : Nat) (o : Option Int) : Call → Option Int
  | kalloc r => if r = pa then some 1 else o
  | krefpage a => if a = pa then o.map (· + 1) else o
  | kfree a => if a = pa then o.map (· - 1) else o
  | write _ _ => o

/-- One plus the calls of `krefpage` minus those of `kfree` since the last `kalloc` of the page;
`none` if the page was never allocated. -/
def references (l : List Call) (pa : Nat) : Option Int := l.foldl (Call.note pa) none

/-- The page is in use. -/
def Allocated (l : List Call) (pa : Nat) : Prop := pa ≠ 0 ∧ 0 < (references l pa).getD 0

instance (l : List Call) (pa : Nat) : Decidable (Allocated l pa) :=
  inferInstanceAs (Decidable (_ ∧ _))

/-- The pages between the end of the kernel and the end of memory. -/
def managed (kend : Nat) : Finset Nat :=
  (Finset.range ((phystop - pgRoundUp kend) / pgsize)).image fun i => pgRoundUp kend + i * pgsize

/-- The calls of the list have been made since boot, and the memory is now `s`. `krefpage` and
`kfree` get pages that are in use, and nobody else writes to the other pages. -/
inductive Run (kend : Nat) (m : Mem) : List Call → Phys → Prop
  | boot : Run kend m [] ((Phys.reset m).kinit kend)
  | kalloc {l : List Call} {s s' : Phys} {r : Nat} (h : Run kend m l s)
      (hk : s.kalloc = (r, s')) : Run kend m (l ++ [.kalloc r]) s'
  | krefpage {l : List Call} {s : Phys} {pa : Nat} (h : Run kend m l s) (hpa : Allocated l pa) :
      Run kend m (l ++ [.krefpage pa]) (s.krefpage pa)
  | kfree {l : List Call} {s : Phys} {pa : Nat} (h : Run kend m l s) (hpa : Allocated l pa) :
      Run kend m (l ++ [.kfree pa]) (s.kfree pa)
  | write {l : List Call} {s : Phys} {a : Nat} {v : UInt8} (h : Run kend m l s)
      (ha : ∀ pa ∈ managed kend, pa ≤ a → a < pa + pgsize → Allocated l pa) :
      Run kend m (l ++ [.write a v]) { s with mem := s.mem.write a v }

/-- The links in memory run through the pages of the list. -/
def Chain (m : Mem) : Nat → List Nat → Prop
  | r, [] => r = 0
  | r, pa :: l => r = pa ∧ pa ≠ 0 ∧ Chain m (m.load64 pa) l

/-- The free list holds each page that is not in use once, and no other; `kalloc` hands out such
a page, and none only when there is none; `Kfreepages` returns how many there are. -/
structure Exact (kend : Nat) (l : List Call) (s : Phys) (free : List Nat) : Prop where
  chain : Chain s.mem s.freelist free
  nodup : free.Nodup
  subset : ∀ pa ∈ free, pa ∈ managed kend
  not_allocated : ∀ pa ∈ free, ¬ Allocated l pa
  mem_iff : ∀ pa ∈ managed kend,
    pa ∈ free ↔ references l pa = some 0 ∨ references l pa = none
  kalloc_zero : s.kalloc.1 = 0 → free = []
  kalloc_page : s.kalloc.1 ≠ 0 → s.kalloc.1 ∈ managed kend ∧
    (references l s.kalloc.1 = some 0 ∨ references l s.kalloc.1 = none)
  kfreepages : ∀ fuel, (managed kend).card < fuel →
    s.kfreepages fuel = some ((managed kend).card -
      ((managed kend).filter (Allocated l)).card)

/-! ### Links -/

lemma Chain.congr {m m' : Mem} {r : Nat} {l : List Nat} (h : Chain m r l)
    (hm : ∀ pa ∈ l, m'.load64 pa = m.load64 pa) : Chain m' r l := by
  induction l generalizing r with
  | nil => exact h
  | cons pa l ih =>
    obtain ⟨hr, hpa, hl⟩ := h
    refine ⟨hr, hpa, ?_⟩
    rw [hm pa List.mem_cons_self]
    exact ih hl fun b hb => hm b (List.mem_cons_of_mem pa hb)

lemma kfreepagesLoop_eq {s : Phys} {r : Nat} {l : List Nat} (h : Chain s.mem r l) {fuel : Nat}
    (hfuel : l.length < fuel) (n : Nat) : s.kfreepagesLoop fuel r n = some (n + l.length) := by
  induction l generalizing r fuel n with
  | nil =>
    obtain ⟨fuel, rfl⟩ : ∃ f, fuel = f + 1 := ⟨fuel - 1, by simp at hfuel; omega⟩
    have hr : r = 0 := h
    simp [kfreepagesLoop, hr]
  | cons pa l ih =>
    rw [List.length_cons] at hfuel
    obtain ⟨fuel, rfl⟩ : ∃ f, fuel = f + 1 := ⟨fuel - 1, by omega⟩
    obtain ⟨rfl, hpa, hl⟩ := h
    rw [kfreepagesLoop, if_pos hpa, ih hl (by omega), List.length_cons]
    congr 1
    omega

/-! ### The managed pages -/

section Managed

variable {kend pa pb : Nat}

/-- `PGROUNDUP(end)`, where the kernel ends in memory. -/
lemma pgRoundUp_kend (hlo : kernbase ≤ kend) (hhi : kend ≤ phystop) :
    kernbase ≤ pgRoundUp kend ∧ pgsize ∣ pgRoundUp kend := by
  have hlo' : 2147483648 ≤ kend := hlo
  have hhi' : kend ≤ 2281701376 := hhi
  constructor
  · unfold pgRoundUp u64 pgsize kernbase
    omega
  · unfold pgRoundUp
    exact Nat.dvd_mul_left _ _

lemma pgRoundUp_le (hhi : kend ≤ phystop) : pgRoundUp kend ≤ phystop := by
  have hhi' : kend ≤ 2281701376 := hhi
  show pgRoundUp kend ≤ 2281701376
  unfold pgRoundUp u64 pgsize
  omega

lemma pageAddr_of_managed (hlo : kernbase ≤ kend) (hhi : kend ≤ phystop)
    (h : pa ∈ managed kend) : PageAddr pa := by
  obtain ⟨i, hi, rfl⟩ := Finset.mem_image.mp h
  rw [Finset.mem_range] at hi
  obtain ⟨hge, hdvd⟩ := pgRoundUp_kend hlo hhi
  have hmul : (i + 1) * pgsize ≤ phystop - pgRoundUp kend :=
    le_trans (Nat.mul_le_mul_right _ hi) (Nat.div_mul_le_self _ _)
  refine ⟨Nat.dvd_add hdvd (Nat.dvd_mul_left _ _), by omega, ?_⟩
  simp only [pgsize] at *
  omega

/-- The pages that the kernel hands to the allocator. -/
def arena (hlo : kernbase ≤ kend) (hhi : kend ≤ phystop) : Arena where
  pages := {pa | pa ∈ managed kend}
  page_addr := fun _ h => pageAddr_of_managed hlo hhi h

/-- Pages do not overlap. -/
lemma pages_apart (ha : PageAddr pa) (hb : PageAddr pb) (hne : pa ≠ pb) :
    pa + pgsize ≤ pb ∨ pb + pgsize ≤ pa := by
  obtain ⟨i, rfl⟩ := ha.aligned
  obtain ⟨j, rfl⟩ := hb.aligned
  simp only [pgsize] at *
  omega

end Managed

/-! ### What the memory stands for -/

/-- The memory holds the allocator `k`. -/
structure Models (kend : Nat) (s : Phys) (k : Kmem) : Prop where
  chain : Chain s.mem s.freelist k.freelist
  count : ∀ pa ∈ managed kend, s.refCount (pa2idx pa) = k.refCount (pa2idx pa)
  page : ∀ pa ∈ managed kend, pa ∉ k.freelist → ∀ i < pgsize, k.page pa i = s.mem (pa + i)

variable {kend : Nat} {s s' : Phys} {k : Kmem} {pa : Nat} {R : Multiset Nat}
variable {hlo : kernbase ≤ kend} {hhi : kend ≤ phystop}

/-- Writing to a page does not touch the others. -/
lemma load64_of_page {m m' : Mem} {pb : Nat} (hb : PageAddr pb) (ha : PageAddr pa) (hne : pb ≠ pa)
    (hm : ∀ x, x < pa ∨ pa + pgsize ≤ x → m' x = m x) : m'.load64 pb = m.load64 pb := by
  apply Mem.load64_congr
  intro x hx hx'
  have h := pages_apart hb ha hne
  simp only [pgsize] at *
  exact hm x (by omega)

/-- A page that is put on the free list is written, and nothing else. -/
lemma linked_ne (m : Mem) (pa r : Nat) :
    ∀ x, x < pa ∨ pa + pgsize ≤ x → (m.fill pa pgsize 1).store64 pa r x = m x := by
  intro x hx
  rw [Mem.store64_apply_ne _ _ _ _ (by simp only [pgsize] at hx; omega)]
  exact Mem.fill_apply_ne _ _ _ _ hx

lemma Models.count_update (h : Models kend s k) {v w : Int} (hv : v = w) (i : Int) :
    ∀ pb ∈ managed kend, Function.update s.refCount i v (pa2idx pb) =
      Function.update k.refCount i w (pa2idx pb) := by
  intro pb hpb
  rw [hv, Function.update_apply, Function.update_apply, h.count pb hpb]

/-- Another page keeps its contents. -/
lemma Models.page_ne (h : Models kend s k) {pb : Nat} (hb : pb ∈ managed kend)
    (hnot : pb ∉ k.freelist) (hne : pb ≠ pa) (hpb : PageAddr pb) (hpa : PageAddr pa) {m' : Mem}
    (hm : ∀ x, x < pa ∨ pa + pgsize ≤ x → m' x = s.mem x) (c : Mem) {i : Nat} (hi : i < pgsize) :
    Function.update k.page pa c pb i = m' (pb + i) := by
  have hout := pages_apart hpb hpa hne
  rw [hm (pb + i) (by omega), ← h.page pb hb hnot i hi]
  exact congrFun (Function.update_of_ne hne _ _) i

/-- A page that the books know. -/
lemma pageAddr_of_free (hb : k.Books (arena hlo hhi) R) (h : pa ∈ k.freelist) :
    pa ∈ managed kend ∧ PageAddr pa := by
  have hpa : pa ∈ managed kend := ((hb.mem_free pa).mp h).1
  exact ⟨hpa, pageAddr_of_managed hlo hhi hpa⟩

lemma kalloc_null (h : s.freelist = 0) : s.kalloc = (0, s) := by
  simp [kalloc, h]

lemma kalloc_page (h : s.freelist = pa) (hpa : PageAddr pa) : s.kalloc = (pa,
    { freelist := s.mem.load64 pa
      refCount := Function.update s.refCount (pa2idx pa) 1
      mem := s.mem.fill pa pgsize 5 }) := by
  unfold kalloc
  rw [h, if_pos hpa.pos.ne']
  dsimp only
  rw [if_pos (pa2idx_range hpa)]

lemma Models.kalloc_none (h : Models kend s k) (hk : k.freelist = []) : s.kalloc = (0, s) := by
  have hchain := h.chain
  rw [hk] at hchain
  exact kalloc_null hchain

lemma Models.kalloc_some {k' : Kmem} (h : Models kend s k) (hb : k.Books (arena hlo hhi) R)
    (hk : k.kalloc = (some pa, k')) : ∃ s', s.kalloc = (pa, s') ∧ Models kend s' k' := by
  obtain ⟨hfree, hpage, hcount⟩ := Kmem.kalloc_some hk
  have hmem : ∀ pb ∈ pa :: k'.freelist, pb ∈ managed kend ∧ PageAddr pb :=
    fun pb hpb => pageAddr_of_free hb (hfree ▸ hpb)
  have hpa := (hmem pa List.mem_cons_self).2
  have hnodup := hb.nodup
  rw [show k.pool.free = k.freelist from rfl, hfree, List.nodup_cons] at hnodup
  have hchain := h.chain
  rw [hfree] at hchain
  obtain ⟨hhead, -, hrest⟩ := hchain
  refine ⟨_, kalloc_page hhead hpa, ?_, ?_, ?_⟩
  · refine hrest.congr fun pb hpb => ?_
    refine load64_of_page (hmem pb (List.mem_cons_of_mem pa hpb)).2 hpa ?_
      fun x hx => Mem.fill_apply_ne _ _ _ _ hx
    rintro rfl
    exact hnodup.1 hpb
  · rw [hcount hpa]
    exact h.count_update rfl _
  · intro pb hpb hnot i hi
    rw [hpage]
    by_cases hne : pb = pa
    · subst hne
      refine (congrFun (Function.update_self _ _ _) i).trans ?_
      exact (Mem.fill_apply_in _ _ _ _ (by omega) (by omega)).symm
    · refine h.page_ne hpb ?_ hne (pageAddr_of_managed hlo hhi hpb) hpa
        (fun x hx => Mem.fill_apply_ne _ _ _ _ hx) _ hi
      rw [hfree]
      exact List.not_mem_cons_of_ne_of_not_mem hne hnot

/-- What the books say of the counter of a page in use. -/
lemma Models.count_eq (h : Models kend s k) (hb : k.Books (arena hlo hhi) ({pa} + R)) :
    pa ∈ managed kend ∧ k.refCount (pa2idx pa) = R.count pa + 1 ∧
      s.refCount (pa2idx pa) = R.count pa + 1 := by
  have hpa : pa ∈ managed kend := hb.subset pa (by simp)
  have hcount : k.refCount (pa2idx pa) = R.count pa + 1 := by
    have hbooks := hb.count_eq pa (by simp)
    rw [Multiset.singleton_add, Multiset.count_cons_self] at hbooks
    rw [show k.refCount (pa2idx pa) = k.pool.count pa from rfl, hbooks]
    push_cast
    rfl
  exact ⟨hpa, hcount, (h.count pa hpa).trans hcount⟩

lemma Models.krefpage (h : Models kend s k) (hb : k.Books (arena hlo hhi) ({pa} + R))
    (hcount : R.count pa + 2 < 2 ^ 31) : Models kend (s.krefpage pa) (k.krefpage pa) := by
  obtain ⟨-, hk, hs⟩ := h.count_eq hb
  refine ⟨h.chain, h.count_update ?_ _, h.page⟩
  rw [hk, hs]
  exact toInt32_eq (by omega) (by omega)

lemma kfree_shared (h : 0 < toInt32 (s.refCount (pa2idx pa) - 1)) : s.kfree pa =
    { s with
      refCount := Function.update s.refCount (pa2idx pa)
        (toInt32 (s.refCount (pa2idx pa) - 1)) } := by
  simp only [kfree, Function.update_self, if_pos h]

lemma kfree_last (h : ¬ 0 < toInt32 (s.refCount (pa2idx pa) - 1)) : s.kfree pa =
    { freelist := pa
      refCount := Function.update s.refCount (pa2idx pa) (toInt32 (s.refCount (pa2idx pa) - 1))
      mem := (s.mem.fill pa pgsize 1).store64 pa s.freelist } := by
  simp only [kfree, Function.update_self, if_neg h]

/-- The page at the head of the list is linked to the rest. -/
lemma Chain.cons {m : Mem} {r : Nat} {l : List Nat} (h : Chain m r l) (hpa : PageAddr pa)
    (hl : ∀ pb ∈ l, PageAddr pb ∧ pb ≠ pa) :
    Chain ((m.fill pa pgsize 1).store64 pa r) pa (pa :: l) := by
  have hr : r < 2 ^ 64 := by
    cases l with
    | nil =>
      have hr : r = 0 := h
      omega
    | cons pb l =>
      have hb : pb < 2281701376 := (hl pb List.mem_cons_self).1.below
      have hr : r = pb := h.1
      omega
  refine ⟨rfl, hpa.pos.ne', ?_⟩
  rw [Mem.load64_store64_same _ _ _ hr]
  refine h.congr fun pb hpb => ?_
  obtain ⟨hb, hne⟩ := hl pb hpb
  exact load64_of_page hb hpa hne (linked_ne m pa r)

lemma Models.kfree (h : Models kend s k) (hb : k.Books (arena hlo hhi) ({pa} + R))
    (hcount : R.count pa + 1 < 2 ^ 31) : Models kend (s.kfree pa) (k.kfree pa) := by
  obtain ⟨hpa, hk, hs⟩ := h.count_eq hb
  have hdec : toInt32 (s.refCount (pa2idx pa) - 1) = k.refCount (pa2idx pa) - 1 := by
    rw [hk, hs]
    exact toInt32_eq (by omega) (by omega)
  have haddr := pageAddr_of_managed hlo hhi hpa
  by_cases hlast : 0 < k.refCount (pa2idx pa) - 1
  · rw [kfree_shared (hdec ▸ hlast), Kmem.kfree_shared (by omega)]
    exact ⟨h.chain, h.count_update hdec _, h.page⟩
  · rw [kfree_last (hdec ▸ hlast), Kmem.kfree_last (by omega)]
    have hnot : pa ∉ k.freelist := hb.notMem_free (a := pa) (by simp)
    refine ⟨h.chain.cons haddr fun pb hpb => ?_, h.count_update hdec _, ?_⟩
    · refine ⟨(pageAddr_of_free hb hpb).2, ?_⟩
      rintro rfl
      exact hnot hpb
    · intro pb hpb hpnot i hi
      rw [List.mem_cons, not_or] at hpnot
      exact h.page_ne hpb hpnot.2 hpnot.1 (pageAddr_of_managed hlo hhi hpb) haddr
        (linked_ne _ _ _) _ hi

/-! ### Boot -/

/-- At boot the counters are zero, so that `kfree` takes them below zero and lists the page. -/
lemma freerangeLoop_chain {n p : Nat} {L : List Nat} (h : Chain s.mem s.freelist L)
    (hnodup : L.Nodup) (hL : ∀ pb ∈ L, PageAddr pb ∧ pb < p) (hp : pgsize ∣ p) (hlo : kernbase ≤ p)
    (hhi : p + n * pgsize ≤ phystop)
    (hzero : ∀ pb, PageAddr pb → p ≤ pb → s.refCount (pa2idx pb) = 0) :
    ∃ L', Chain (freerangeLoop n s p).mem (freerangeLoop n s p).freelist L' ∧ L'.Nodup ∧
      ∀ pb, pb ∈ L' ↔ pb ∈ L ∨ ∃ i < n, pb = p + i * pgsize := by
  induction n generalizing s p L with
  | zero => exact ⟨L, h, hnodup, by simp⟩
  | succ n ih =>
    have hsz : (n + 1) * pgsize = n * pgsize + pgsize := Nat.succ_mul n pgsize
    have hpos : 0 < pgsize := by decide
    have hpa : PageAddr p := ⟨hp, hlo, by omega⟩
    have hlast : ¬ 0 < toInt32 (s.refCount (pa2idx p) - 1) := by
      rw [hzero p hpa le_rfl]
      decide
    have hnext : ∀ pb ∈ p :: L, PageAddr pb ∧ pb < p + pgsize := by
      intro pb hpb
      rcases List.mem_cons.mp hpb with rfl | hpb
      · exact ⟨hpa, by omega⟩
      · exact ⟨(hL pb hpb).1, by have := (hL pb hpb).2; omega⟩
    have hfree : Chain (s.kfree p).mem (s.kfree p).freelist (p :: L) := by
      rw [kfree_last hlast]
      exact h.cons hpa fun pb hpb => ⟨(hL pb hpb).1, (hL pb hpb).2.ne⟩
    have hcounts : ∀ pb, PageAddr pb → p + pgsize ≤ pb → (s.kfree p).refCount (pa2idx pb) = 0 := by
      intro pb hpb hle
      have hne : pa2idx pb ≠ pa2idx p := fun he => by
        have := pa2idx_inj hpb hpa he
        omega
      rw [kfree_last hlast]
      exact (Function.update_of_ne hne _ _).trans (hzero pb hpb (by omega))
    obtain ⟨L', hchain, hnd, hmem⟩ := ih hfree
      (List.nodup_cons.mpr ⟨fun hm => (hL p hm).2.ne rfl, hnodup⟩) hnext
      (Nat.dvd_add hp dvd_rfl) (by omega) (by omega) hcounts
    refine ⟨L', hchain, hnd, fun pb => (hmem pb).trans ?_⟩
    rw [List.mem_cons]
    constructor
    · rintro ((rfl | hpb) | ⟨i, hi, rfl⟩)
      · exact Or.inr ⟨0, by omega, by omega⟩
      · exact Or.inl hpb
      · exact Or.inr ⟨i + 1, by omega, by rw [Nat.succ_mul]; omega⟩
    · rintro (hpb | ⟨i, hi, rfl⟩)
      · exact Or.inl (Or.inr hpb)
      · cases i with
        | zero => exact Or.inl (Or.inl (by omega))
        | succ i => exact Or.inr ⟨i, by omega, by rw [Nat.succ_mul]; omega⟩

/-- After boot all managed pages are free. -/
lemma models_kinit (hlo : kernbase ≤ kend) (hhi : kend ≤ phystop) (m : Mem) :
    ∃ k, Models kend ((reset m).kinit kend) k ∧ k.Books (arena hlo hhi) 0 := by
  obtain ⟨hge, hdvd⟩ := pgRoundUp_kend hlo hhi
  have hle : pgRoundUp kend + (phystop - pgRoundUp kend) / pgsize * pgsize ≤ phystop := by
    have h := Nat.div_mul_le_self (phystop - pgRoundUp kend) pgsize
    have hup := pgRoundUp_le hhi
    omega
  obtain ⟨L, hchain, hnodup, hmem⟩ := freerangeLoop_chain
    (s := { reset m with refCount := fun i =>
      if 0 ≤ i ∧ i < ((phystop - kernbase) / pgsize : Nat) then 0 else (reset m).refCount i })
    (L := []) rfl List.nodup_nil (by simp) hdvd hge hle fun pb hpb _ => if_pos (pa2idx_range hpb)
  refine ⟨⟨L, ((reset m).kinit kend).refCount, fun pa i => ((reset m).kinit kend).mem (pa + i)⟩,
    ⟨hchain, fun _ _ => rfl, fun _ _ _ _ _ => rfl⟩, hnodup, fun pb => ?_, by simp, by simp⟩
  refine (hmem pb).trans ?_
  simp only [List.not_mem_nil, false_or, Multiset.notMem_zero, not_false_eq_true, and_true]
  show _ ↔ pb ∈ managed kend
  simp only [managed, Finset.mem_image, Finset.mem_range, eq_comm]

/-! ### Every run -/

@[simp] lemma references_concat (l : List Call) (c : Call) (pa : Nat) :
    references (l ++ [c]) pa = Call.note pa (references l pa) c := by
  simp [references]

/-- The memory holds an allocator whose books agree with the calls made. -/
def Tracks (hlo : kernbase ≤ kend) (hhi : kend ≤ phystop) (l : List Call) (s : Phys) : Prop :=
  ∃ k R, Models kend s k ∧ k.Books (arena hlo hhi) R ∧
    ∀ pa ≠ 0, (R.count pa : Int) = (references l pa).getD 0

variable {l : List Call}

/-- A page in use, taken out of the references. -/
lemma exists_singleton_add (hR : ∀ pa ≠ 0, (R.count pa : Int) = (references l pa).getD 0)
    (hpa : Allocated l pa) : ∃ R', R = {pa} + R' ∧
      ∃ c, references l pa = some c ∧ c = R'.count pa + 1 := by
  have hcount := hR pa hpa.1
  have hmem : pa ∈ R := by
    rw [← Multiset.count_pos]
    have := hpa.2
    omega
  obtain ⟨R', rfl⟩ := Multiset.exists_cons_of_mem hmem
  refine ⟨R', rfl, ?_⟩
  rw [Multiset.count_cons_self] at hcount
  cases href : references l pa with
  | none =>
    rw [href] at hcount
    simp at hcount
    omega
  | some c =>
    rw [href] at hcount
    exact ⟨c, rfl, by simpa using hcount.symm⟩

lemma Tracks.kalloc {r : Nat} (h : Tracks hlo hhi l s) (hk : s.kalloc = (r, s')) :
    Tracks hlo hhi (l ++ [.kalloc r]) s' := by
  obtain ⟨k, R, hm, hb, hR⟩ := h
  cases ha : k.kalloc with
  | mk o k' =>
  cases o with
  | none =>
    have hfree : k.freelist = [] := by
      by_contra hne
      obtain ⟨pa, rest, hcons⟩ := List.exists_cons_of_ne_nil hne
      simp only [Kmem.kalloc, hcons] at ha
      split at ha <;> cases ha
    rw [hm.kalloc_none hfree] at hk
    obtain ⟨rfl, rfl⟩ : 0 = r ∧ s = s' := by simpa using hk
    refine ⟨k, R, hm, hb, fun pa hpa => ?_⟩
    rw [references_concat, Call.note, if_neg hpa.symm, hR pa hpa]
  | some pa =>
    obtain ⟨s₁, hs₁, hm'⟩ := hm.kalloc_some hb ha
    rw [hs₁] at hk
    obtain ⟨rfl, rfl⟩ : pa = r ∧ s₁ = s' := by simpa using hk
    have hfree := (Kmem.kalloc_some ha).1
    have hnot : pa ∉ R := hb.notMem_of_free (by
      show pa ∈ k.freelist
      rw [hfree]
      exact List.mem_cons_self)
    have hb' : k'.Books (arena hlo hhi) (R + {pa}) :=
      (Kmem.trades_kalloc ha).accounts (by rwa [add_zero])
    refine ⟨k', R + {pa}, hm', hb', fun pb hpb => ?_⟩
    rw [references_concat, Call.note]
    by_cases hne : pa = pb
    · subst hne
      simp [Multiset.count_eq_zero.mpr hnot]
    · rw [if_neg hne, ← hR pb hpb, Multiset.count_add,
        Multiset.count_singleton, if_neg (Ne.symm hne), add_zero]

lemma Tracks.krefpage (h : Tracks hlo hhi l s) (hpa : Allocated l pa)
    (hint : ∀ c, references (l ++ [.krefpage pa]) pa = some c → c < 2 ^ 31) :
    Tracks hlo hhi (l ++ [.krefpage pa]) (s.krefpage pa) := by
  obtain ⟨k, R, hm, hb, hR⟩ := h
  obtain ⟨R, rfl, c, hc, hcount⟩ := exists_singleton_add hR hpa
  have hlt : c + 1 < 2 ^ 31 := hint (c + 1) (by simp [Call.note, hc])
  have hb' : (k.krefpage pa).Books (arena hlo hhi) ({pa} + ({pa} + R)) :=
    Kmem.books_krefpage hb (Multiset.mem_add.mpr (Or.inl (Multiset.mem_singleton_self pa)))
  refine ⟨_, _, hm.krefpage hb (by omega), hb', fun pb hpb => ?_⟩
  have hold := hR pb hpb
  rw [references_concat, Call.note]
  by_cases hne : pa = pb
  · subst hne
    simp [hc, hcount]
  · rw [if_neg hne, ← hold]
    simp [Multiset.count_cons_of_ne (Ne.symm hne)]

lemma Tracks.kfree (h : Tracks hlo hhi l s) (hpa : Allocated l pa)
    (hint : ∀ c, references l pa = some c → c < 2 ^ 31) :
    Tracks hlo hhi (l ++ [.kfree pa]) (s.kfree pa) := by
  obtain ⟨k, R, hm, hb, hR⟩ := h
  obtain ⟨R, rfl, c, hc, hcount⟩ := exists_singleton_add hR hpa
  have hlt : c < 2 ^ 31 := hint c hc
  have hb' : (k.kfree pa).Books (arena hlo hhi) (R + 0) := by
    have hb := hb
    rw [add_comm] at hb
    exact (Kmem.trades_kfree _ k pa).accounts hb
  rw [add_zero] at hb'
  refine ⟨_, R, hm.kfree hb (by omega), hb', fun pb hpb => ?_⟩
  have hold := hR pb hpb
  rw [references_concat, Call.note]
  by_cases hne : pa = pb
  · subst hne
    simp [hc, hcount]
  · rw [if_neg hne, ← hold]
    simp [Multiset.count_cons_of_ne (Ne.symm hne)]

lemma Tracks.write {a : Nat} {v : UInt8} (h : Tracks hlo hhi l s)
    (ha : ∀ pa ∈ managed kend, pa ≤ a → a < pa + pgsize → Allocated l pa) :
    Tracks hlo hhi (l ++ [.write a v]) { s with mem := s.mem.write a v } := by
  obtain ⟨k, R, hm, hb, hR⟩ := h
  refine ⟨{ k with page := fun pa i => s.mem.write a v (pa + i) }, R,
    ⟨hm.chain.congr fun pa hpa => ?_, hm.count, fun _ _ _ _ _ => rfl⟩,
    hb.congr rfl fun _ _ => rfl, fun pa hpa => ?_⟩
  · -- the page is free, so the store does not hit its link
    apply Mem.load64_congr
    intro x hx hx'
    have hne : x ≠ a := by
      rintro rfl
      have hpa' := pageAddr_of_free hb hpa
      have hal := ha pa hpa'.1 hx (by simp only [pgsize]; omega)
      have hnot := hb.notMem_of_free hpa
      have hzero := hR pa hal.1
      rw [Multiset.count_eq_zero.mpr hnot] at hzero
      have := hal.2
      omega
    exact if_neg hne
  · rw [references_concat, Call.note, hR pa hpa]

/-- No page has had more references than an `int` can count. -/
def InRange (l : List Call) : Prop :=
  ∀ l', l' <+: l → ∀ pa c, references l' pa = some c → c < 2 ^ 31

lemma Run.tracks {m : Mem} (h : Run kend m l s) (hlo : kernbase ≤ kend) (hhi : kend ≤ phystop)
    (hint : InRange l) : Tracks hlo hhi l s := by
  induction h with
  | boot =>
    obtain ⟨k, hm, hb⟩ := models_kinit hlo hhi m
    exact ⟨k, 0, hm, hb, fun pa _ => by simp [references]⟩
  | kalloc h hk ih =>
    exact (ih fun l' hl' => hint l' (hl'.trans (List.prefix_append _ _))).kalloc hk
  | krefpage h hpa ih =>
    refine (ih fun l' hl' => hint l' (hl'.trans (List.prefix_append _ _))).krefpage hpa ?_
    exact hint _ List.prefix_rfl _
  | kfree h hpa ih =>
    refine (ih fun l' hl' => hint l' (hl'.trans (List.prefix_append _ _))).kfree hpa ?_
    exact hint _ (List.prefix_append _ _) _
  | write h ha ih =>
    exact (ih fun l' hl' => hint l' (hl'.trans (List.prefix_append _ _))).write ha

lemma getD_eq_zero {o : Option Int} : o.getD 0 = 0 ↔ o = some 0 ∨ o = none := by
  cases o <;> simp

section Reading

variable (hm : Models kend s k) (hb : k.Books (arena hlo hhi) R)
variable (hR : ∀ pa ≠ 0, (R.count pa : Int) = (references l pa).getD 0)

include hb hR

lemma mem_free_iff (hpa : pa ∈ managed kend) :
    pa ∈ k.freelist ↔ references l pa = some 0 ∨ references l pa = none := by
  have hfree : pa ∈ k.freelist ↔ pa ∈ managed kend ∧ pa ∉ R := hb.mem_free pa
  rw [hfree, ← getD_eq_zero, ← hR pa (pageAddr_of_managed hlo hhi hpa).pos.ne',
    ← Multiset.count_eq_zero]
  simp only [hpa, true_and]
  omega

lemma mem_free_iff_not_allocated (hpa : pa ∈ managed kend) :
    pa ∈ k.freelist ↔ ¬ Allocated l pa := by
  have hpos := (pageAddr_of_managed hlo hhi hpa).pos.ne'
  have hfree : pa ∈ k.freelist ↔ pa ∈ managed kend ∧ pa ∉ R := hb.mem_free pa
  rw [hfree, Allocated, ← hR pa hpos, ← Multiset.count_eq_zero]
  simp only [hpa, hpos, true_and, ne_eq, not_false_eq_true]
  omega

lemma length_free : k.freelist.length =
    (managed kend).card - ((managed kend).filter (Allocated l)).card := by
  have hset : k.freelist.toFinset = managed kend \ (managed kend).filter (Allocated l) := by
    ext pa
    simp only [List.mem_toFinset, Finset.mem_sdiff, Finset.mem_filter, not_and]
    constructor
    · intro hpa
      have hin := (pageAddr_of_free hb hpa).1
      exact ⟨hin, fun _ => (mem_free_iff_not_allocated hb hR hin).mp hpa⟩
    · rintro ⟨hpa, hnot⟩
      exact (mem_free_iff_not_allocated hb hR hpa).mpr (hnot hpa)
  have hnodup : k.freelist.Nodup := hb.nodup
  rw [← List.toFinset_card_of_nodup hnodup, hset,
    Finset.card_sdiff_of_subset (Finset.filter_subset _ _)]

end Reading

lemma kalloc_fst (s : Phys) : s.kalloc.1 = s.freelist := by
  unfold kalloc
  dsimp only
  split
  · split <;> rfl
  · rfl

/-- The list starts where `kmem.freelist` points. -/
lemma Chain.head {m : Mem} {r : Nat} {L : List Nat} (h : Chain m r L) :
    (r = 0 ∧ L = []) ∨ (r ≠ 0 ∧ r ∈ L) := by
  cases L with
  | nil => exact Or.inl ⟨h, rfl⟩
  | cons pa L =>
    obtain ⟨rfl, hpa, -⟩ := h
    exact Or.inr ⟨hpa, List.mem_cons_self⟩

/-- The books of the allocator, read as facts about the calls. -/
lemma Tracks.exact (h : Tracks hlo hhi l s) : ∃ free, Exact kend l s free := by
  obtain ⟨k, R, hm, hb, hR⟩ := h
  have hsub : ∀ pa ∈ k.freelist, pa ∈ managed kend := fun pa hpa => (pageAddr_of_free hb hpa).1
  refine ⟨k.freelist, hm.chain, hb.nodup, hsub, fun pa hpa => ?_, fun pa => mem_free_iff hb hR,
    fun hzero => ?_, fun hne => ?_, fun fuel hfuel => ?_⟩
  · exact (mem_free_iff_not_allocated hb hR (hsub pa hpa)).mp hpa
  · rw [kalloc_fst] at hzero
    exact (hm.chain.head.resolve_right fun h => h.1 hzero).2
  · rw [kalloc_fst] at hne ⊢
    have hin := (hm.chain.head.resolve_left fun h => hne h.1).2
    exact ⟨hsub _ hin, (mem_free_iff hb hR (hsub _ hin)).mp hin⟩
  · have hlen := length_free hb hR
    rw [Phys.kfreepages, kfreepagesLoop_eq hm.chain (by omega), Nat.zero_add, hlen]

/-- In every run in which no page has more references than an `int` can count, the free list is
exactly the pages that are not in use. -/
theorem freelist_exact {m : Mem} (hlo : kernbase ≤ kend) (hhi : kend ≤ phystop)
    (h : Run kend m l s) (hint : InRange l) : ∃ free, Exact kend l s free :=
  (h.tracks hlo hhi hint).exact

/-- Each call adds one reference at most. -/
lemma references_le (l : List Call) (pa : Nat) : ∀ c ∈ references l pa, c ≤ l.length := by
  induction l using List.reverseRecOn with
  | nil => simp [references]
  | append_singleton l a ih =>
    intro c hc
    rw [references_concat] at hc
    rw [List.length_append, List.length_singleton]
    push_cast
    cases a with
    | kalloc r =>
      simp only [Call.note] at hc
      split at hc
      · cases hc
        omega
      · have := ih c hc
        omega
    | krefpage a =>
      simp only [Call.note] at hc
      split at hc
      · obtain ⟨c', hc', rfl⟩ := Option.mem_map.mp hc
        have := ih c' hc'
        omega
      · have := ih c hc
        omega
    | kfree a =>
      simp only [Call.note] at hc
      split at hc
      · obtain ⟨c', hc', rfl⟩ := Option.mem_map.mp hc
        have := ih c' hc'
        omega
      · have := ih c hc
        omega
    | write a v =>
      have := ih c hc
      omega

/-- The counters hold in every run of fewer than 2 ^ 31 calls. -/
lemma inRange_of_length {l : List Call} (h : l.length < 2 ^ 31) : InRange l := by
  intro l' hl' pa c hc
  have hle := references_le l' pa c hc
  have hlen := hl'.length_le
  omega

/-! ### More references than an `int` can count -/

/-- The last page of memory. -/
def lastPage : Nat := phystop - pgsize

lemma managed_lastPage : managed lastPage = {lastPage} := by decide

lemma pageAddr_lastPage : PageAddr lastPage := ⟨by decide, by decide, by decide⟩

/-- The page is handed out once and then shared `n` times. -/
def shared (n : Nat) : List Call :=
  .kalloc lastPage :: List.replicate n (.krefpage lastPage)

lemma shared_succ (n : Nat) : shared (n + 1) = shared n ++ [.krefpage lastPage] := by
  rw [shared, List.replicate_succ', shared, List.cons_append]

lemma references_shared (n : Nat) : references (shared n) lastPage = some (1 + n) := by
  induction n with
  | zero => simp [shared, references, Call.note]
  | succ n ih =>
    rw [shared_succ, references_concat, ih]
    simp [Call.note]
    omega

lemma run_shared (m : Mem) (n : Nat) : ∃ s, Run lastPage m (shared n) s ∧
    s.refCount (pa2idx lastPage) = toInt32 (1 + n) := by
  induction n with
  | zero =>
    have hhi : lastPage ≤ phystop := Nat.sub_le _ _
    have hboot : Run lastPage m [] ((reset m).kinit lastPage) := Run.boot
    have hint : InRange [] := by
      intro l' hl' pa c hc
      rw [List.prefix_nil.mp hl'] at hc
      cases hc
    obtain ⟨free, hex⟩ := (hboot.tracks pageAddr_lastPage.above hhi hint).exact
    have hmem : lastPage ∈ managed lastPage := by simp [managed_lastPage]
    have hfree : lastPage ∈ free := (hex.mem_iff lastPage hmem).mpr (Or.inr rfl)
    have hne : ((reset m).kinit lastPage).kalloc.1 ≠ 0 := by
      intro h
      rw [hex.kalloc_zero h] at hfree
      cases hfree
    have hpage : ((reset m).kinit lastPage).freelist = lastPage := by
      have h := (hex.kalloc_page hne).1
      rw [managed_lastPage, Finset.mem_singleton, kalloc_fst] at h
      exact h
    refine ⟨_, Run.kalloc hboot (kalloc_page hpage pageAddr_lastPage), ?_⟩
    simp [toInt32]
  | succ n ih =>
    obtain ⟨s, hrun, hs⟩ := ih
    refine ⟨s.krefpage lastPage, ?_, ?_⟩
    · rw [shared_succ]
      refine Run.krefpage hrun ⟨pageAddr_lastPage.pos.ne', ?_⟩
      rw [references_shared]
      show (0 : Int) < 1 + n
      omega
    · simp only [Phys.krefpage, Function.update_self, hs, toInt32]
      rw [Int.bmod_add_bmod]
      push_cast
      ring_nf

/-- The theorem on a page that is shared three times. -/
theorem freelist_exact_shared : ∃ s free, Run lastPage (fun _ => 0) (shared 3) s ∧
    Exact lastPage (shared 3) s free := by
  obtain ⟨s, hrun, -⟩ := run_shared (fun _ => 0) 3
  obtain ⟨free, hex⟩ := freelist_exact pageAddr_lastPage.above (Nat.sub_le _ _) hrun
    (inRange_of_length (by decide))
  exact ⟨s, free, hrun, hex⟩

/-- With 2 ^ 31 shares of a page the counter wraps around, and the first `kfree` puts the page on
the free list although 2 ^ 31 references are left. -/
theorem freelist_not_exact : ∃ s,
    Run lastPage (fun _ => 0) (shared (2 ^ 31) ++ [.kfree lastPage]) s ∧
      references (shared (2 ^ 31) ++ [.kfree lastPage]) lastPage = some (2 ^ 31) ∧
      s.freelist = lastPage ∧
      ¬ ∃ free, Exact lastPage (shared (2 ^ 31) ++ [.kfree lastPage]) s free := by
  obtain ⟨s, hrun, hs⟩ := run_shared (fun _ => 0) (2 ^ 31)
  have href : references (shared (2 ^ 31) ++ [.kfree lastPage]) lastPage = some (2 ^ 31) := by
    rw [references_concat, references_shared]
    simp [Call.note]
  have hlast : ¬ 0 < toInt32 (s.refCount (pa2idx lastPage) - 1) := by
    rw [hs]
    decide
  have hfree : (s.kfree lastPage).freelist = lastPage := by rw [kfree_last hlast]
  refine ⟨_, Run.kfree hrun ⟨pageAddr_lastPage.pos.ne', ?_⟩, href, hfree, ?_⟩
  · rw [references_shared]
    decide
  · rintro ⟨free, hex⟩
    have hin := (hex.chain.head.resolve_left fun h =>
      pageAddr_lastPage.pos.ne' (hfree.symm.trans h.1)).2
    rw [hfree] at hin
    have hmem := (hex.mem_iff lastPage (by simp [managed_lastPage])).mp hin
    rw [href] at hmem
    simp at hmem

end Phys

end FogOS.Kernel
