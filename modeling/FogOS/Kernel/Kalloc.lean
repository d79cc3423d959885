import FogOS.Lib.Ledger
import FogOS.Lib.ByteMem
import FogOS.Kernel.Basic

/-!
# The physical page allocator

`kernel/kalloc.c`. A page is named by its physical address; the free list is the list of these
addresses, in the order in which the links stored in the free pages run. The bytes of a page are
given by offset.
-/

namespace FogOS.Kernel

open ByteMem Ledger

/-- `kmem.freelist`, `ref_count` and the contents of the physical pages. -/
structure Kmem where
  freelist : List Nat
  refCount : Int → Int
  page : Nat → Mem

/-- Index of a page in `ref_count`. -/
def pa2idx (pa : Nat) : Int := ((pa : Int) - kernbase) / pgsize

namespace Kmem

/-- `memset(pa, c, PGSIZE)`. -/
def fill (k : Kmem) (pa : Nat) (c : UInt8) : Kmem :=
  { k with page := Function.update k.page pa fun _ => c }

/-- The contents of the page become `m`. -/
def setPage (k : Kmem) (pa : Nat) (m : Mem) : Kmem :=
  { k with page := Function.update k.page pa m }

/-- Allocate one page of physical memory, filled with junk. -/
def kalloc (k : Kmem) : Option Nat × Kmem :=
  match k.freelist with
  | [] => (none, k)
  | r :: rest =>
    let k := { k with freelist := rest }.fill r 5
    let idx := pa2idx r
    if 0 ≤ idx ∧ idx < ((phystop - kernbase) / pgsize : Nat) then
      (some r, { k with refCount := Function.update k.refCount idx 1 })
    else
      (some r, k)

/-- Drop one reference; the last one puts the page on the free list. -/
def kfree (k : Kmem) (pa : Nat) : Kmem :=
  let idx := pa2idx pa
  let k := { k with refCount := Function.update k.refCount idx (k.refCount idx - 1) }
  if 0 < k.refCount idx then k
  else { k.fill pa 1 with freelist := pa :: k.freelist }

/-- Add one reference. -/
def krefpage (k : Kmem) (pa : Nat) : Kmem :=
  { k with refCount := Function.update k.refCount (pa2idx pa) (k.refCount (pa2idx pa) + 1) }

end Kmem

/-! ### The allocator keeps its books -/

/-- A page of the memory that `kalloc` manages. -/
structure PageAddr (pa : Nat) : Prop where
  aligned : pgsize ∣ pa
  above : kernbase ≤ pa
  below : pa < phystop

/-- Pages have their own counters. -/
lemma pa2idx_inj {a b : Nat} (ha : PageAddr a) (hb : PageAddr b) (h : pa2idx a = pa2idx b) :
    a = b := by
  obtain ⟨i, hi⟩ := ha.aligned
  obtain ⟨j, hj⟩ := hb.aligned
  simp only [pa2idx, pgsize, kernbase] at *
  omega

lemma pa2idx_range {a : Nat} (ha : PageAddr a) :
    0 ≤ pa2idx a ∧ pa2idx a < ((phystop - kernbase) / pgsize : Nat) := by
  have hl : 2147483648 ≤ a := ha.above
  have hu : a < 2281701376 := ha.below
  have hnum : (phystop - kernbase) / pgsize = 32768 := by decide
  rw [hnum]
  unfold pa2idx kernbase pgsize
  omega

lemma PageAddr.pos {a : Nat} (ha : PageAddr a) : 0 < a := by
  have h := ha.above
  simp only [kernbase] at h
  omega

/-- The physical pages that the kernel hands to the allocator at boot. -/
structure Arena where
  pages : Set Nat
  page_addr : ∀ a ∈ pages, PageAddr a

namespace Kmem

/-- The allocator as a pool with reference counts. -/
def pool (k : Kmem) : Pool Nat Mem where
  free := k.freelist
  count := fun pa => k.refCount (pa2idx pa)
  data := k.page

/-- The allocator's books are right: `refs` are the references to its pages. -/
abbrev Books (V : Arena) (k : Kmem) (refs : Multiset Nat) : Prop :=
  Accounts V.pages k.pool refs

/-- The code exchanges the references `X` to pages for `X'`. -/
abbrev Trades (V : Arena) (k k' : Kmem) (X X' : Multiset Nat) : Prop :=
  Trade V.pages k.pool k'.pool X X'

variable {V : Arena} {k k' : Kmem} {pa : Nat} {R X : Multiset Nat}

/-- What the page holds is written over by its owner. -/
lemma trades_setPage (m : Mem) (hX : pa ∈ X) : Trades V k (k.setPage pa m) X X := by
  refine Trade.write rfl (fun _ _ => rfl) fun b _ hb => ?_
  have hne : b ≠ pa := fun h => hb (h ▸ hX)
  exact Function.update_of_ne hne _ _

/-- `kalloc` finds no page. -/
lemma kalloc_none (h : k.kalloc = (none, k')) : k' = k := by
  unfold kalloc at h
  split at h
  · cases h
    rfl
  · dsimp only at h
    split at h <;> cases h

/-- `kalloc` takes the first page of the free list. -/
lemma kalloc_some (h : k.kalloc = (some pa, k')) :
    k.freelist = pa :: k'.freelist ∧ k'.page = Function.update k.page pa (fun _ => 5) ∧
      (PageAddr pa → k'.refCount = Function.update k.refCount (pa2idx pa) 1) := by
  unfold kalloc at h
  split at h
  · cases h
  · next r rest hfree =>
    dsimp only at h
    split at h
    · obtain ⟨rfl, rfl⟩ : r = pa ∧ _ = k' := by simpa using h
      exact ⟨hfree, rfl, fun _ => rfl⟩
    · next hidx =>
      obtain ⟨rfl, rfl⟩ : r = pa ∧ _ = k' := by simpa using h
      exact ⟨hfree, rfl, fun hp => absurd (pa2idx_range hp) hidx⟩

lemma trades_kalloc (h : k.kalloc = (some pa, k')) : Trades V k k' 0 {pa} := by
  intro R hR
  obtain ⟨hfree, hpage, hcount⟩ := kalloc_some h
  have hpa : PageAddr pa := by
    refine V.page_addr pa ((hR.mem_free pa).mp ?_).1
    simp [pool, hfree]
  have ht : Trades V k k' 0 {pa} := by
    refine Trade.alloc hfree (fun b hb => ?_) (fun b _ hne => ?_)
    · by_cases hbp : b = pa
      · simp [pool, hbp, hcount hpa]
      · have hne : pa2idx b ≠ pa2idx pa :=
          fun he => hbp (pa2idx_inj (V.page_addr b hb) hpa he)
        simp [pool, hbp, hne, hcount hpa]
    · simp only [pool, hpage]
      exact Function.update_of_ne hne _ _
  exact ht R hR

/-- `kfree` of a page with further references. -/
lemma kfree_shared {k : Kmem} {pa : Nat} (h : 1 < k.refCount (pa2idx pa)) :
    k.kfree pa =
      { k with refCount := Function.update k.refCount (pa2idx pa) (k.refCount (pa2idx pa) - 1) } := by
  have hpos : 0 < k.refCount (pa2idx pa) - 1 := by omega
  simp only [kfree, Function.update_self, if_pos hpos]

/-- `kfree` of the last reference to a page. -/
lemma kfree_last {k : Kmem} {pa : Nat} (h : k.refCount (pa2idx pa) ≤ 1) :
    k.kfree pa =
      { freelist := pa :: k.freelist
        refCount := Function.update k.refCount (pa2idx pa) (k.refCount (pa2idx pa) - 1)
        page := Function.update k.page pa fun _ => 1 } := by
  have hpos : ¬ 0 < k.refCount (pa2idx pa) - 1 := by omega
  simp only [kfree, Function.update_self, if_neg hpos, fill]

lemma trades_kfree (V : Arena) (k : Kmem) (pa : Nat) : Trades V k (k.kfree pa) {pa} 0 := by
  intro R hR
  have hpa : PageAddr pa := V.page_addr pa (hR.subset pa (by simp))
  have hcount : ∀ b ∈ V.pages,
      Function.update k.refCount (pa2idx pa) (k.refCount (pa2idx pa) - 1) (pa2idx b) =
        if b = pa then k.refCount (pa2idx pa) - 1 else k.refCount (pa2idx b) := by
    intro b hb
    by_cases hbp : b = pa
    · simp [hbp]
    · have hne : pa2idx b ≠ pa2idx pa := fun he => hbp (pa2idx_inj (V.page_addr b hb) hpa he)
      simp [hbp, hne]
  have ht : Trades V k (k.kfree pa) {pa} 0 := by
    by_cases hle : k.refCount (pa2idx pa) ≤ 1
    · rw [kfree_last hle]
      refine Trade.release ?_ hcount fun b _ hb => ?_
      · simp [pool, hle]
      · exact Function.update_of_ne hb _ _
    · rw [kfree_shared (by omega)]
      refine Trade.release ?_ hcount fun _ _ _ => rfl
      simp [pool, hle]
  exact ht R hR

/-- `krefpage` of a page that is referred to. -/
lemma books_krefpage (h : k.Books V R) (hpa : pa ∈ R) : (k.krefpage pa).Books V ({pa} + R) := by
  have haddr : PageAddr pa := V.page_addr pa (h.subset pa hpa)
  rw [Multiset.singleton_add]
  refine h.retain hpa rfl fun b hb => ?_
  by_cases hbp : b = pa
  · simp [pool, hbp, krefpage]
  · have hne : pa2idx b ≠ pa2idx pa := fun he => hbp (pa2idx_inj (V.page_addr b hb) haddr he)
    simp [pool, hbp, krefpage, hne]

/-- A page is taken and written, beside the references `X`. -/
lemma trades_take (h : k.kalloc = (some pa, k')) (m : Mem) (X : Multiset Nat) :
    Trades V k (k'.setPage pa m) X ({pa} + X) := by
  have htake : Trades V k (k'.setPage pa m) 0 {pa} :=
    (trades_kalloc h).trans (trades_setPage m (Multiset.mem_singleton_self pa))
  have hframe := htake.frame X
  rwa [zero_add] at hframe

/-- A reference is dropped, beside the references `X`. -/
lemma trades_drop (V : Arena) (k : Kmem) (pa : Nat) (X : Multiset Nat) :
    Trades V k (k.kfree pa) ({pa} + X) X := by
  have hframe := (trades_kfree V k pa).frame X
  rwa [zero_add] at hframe

end Kmem

end FogOS.Kernel
