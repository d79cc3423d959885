import Mathlib.Tactic
import Mathlib.Data.Multiset.Count

/-!
# Pools with reference counts

A pool hands out units of one kind (pages, blocks, buffers) from a free list and counts the
references to each unit it has handed out. `Accounts` says that the books are right: a unit is
on the free list exactly when nothing refers to it, and its count is the number of references.

A piece of code that takes and drops references is described by a `Trade`: it consumes the
references `X`, leaves the references `X'`, and does not disturb the units that others refer to.
Trades compose, and a trade stays a trade beside references it does not touch.
-/

namespace Ledger

variable {α β : Type*} [DecidableEq α]

/-- Units on the free list, the reference count of each unit, and what each unit holds. -/
structure Pool (α β : Type*) where
  free : List α
  count : α → Int
  data : α → β

/-- The books of the pool are right for the references `refs` to the units `V`. -/
structure Accounts (V : Set α) (P : Pool α β) (refs : Multiset α) : Prop where
  nodup : P.free.Nodup
  mem_free : ∀ a, a ∈ P.free ↔ a ∈ V ∧ a ∉ refs
  subset : ∀ a ∈ refs, a ∈ V
  count_eq : ∀ a ∈ refs, P.count a = refs.count a

namespace Accounts

variable {V : Set α} {P P' : Pool α β} {R X : Multiset α} {a : α}

lemma notMem_of_free (h : Accounts V P R) (ha : a ∈ P.free) : a ∉ R :=
  ((h.mem_free a).mp ha).2

lemma notMem_free (h : Accounts V P R) (ha : a ∈ R) : a ∉ P.free :=
  fun hf => h.notMem_of_free hf ha

/-- Two pools with the same references have the same units on their free lists. -/
lemma free_perm (h : Accounts V P R) (h' : Accounts V P' R) : P'.free.Perm P.free := by
  rw [List.perm_ext_iff_of_nodup h'.nodup h.nodup]
  intro a
  rw [h.mem_free, h'.mem_free]

/-- The first free unit is handed out with one reference. -/
lemma alloc (h : Accounts V P R) (hfree : P.free = a :: P'.free)
    (hcount : ∀ b ∈ V, P'.count b = if b = a then 1 else P.count b) :
    Accounts V P' (a ::ₘ R) := by
  have hnodup := h.nodup
  rw [hfree, List.nodup_cons] at hnodup
  have ha : a ∈ V ∧ a ∉ R := by
    rw [← h.mem_free, hfree]
    exact List.mem_cons_self
  refine ⟨hnodup.2, ?_, ?_, ?_⟩
  · intro b
    have hb := h.mem_free b
    rw [hfree, List.mem_cons] at hb
    rw [Multiset.mem_cons, not_or]
    constructor
    · intro hbf
      have hne : b ≠ a := fun hba => hnodup.1 (hba ▸ hbf)
      obtain ⟨hV, hR⟩ := hb.mp (Or.inr hbf)
      exact ⟨hV, hne, hR⟩
    · rintro ⟨hV, hne, hR⟩
      exact (hb.mpr ⟨hV, hR⟩).resolve_left hne
  · intro b hb
    rcases Multiset.mem_cons.mp hb with rfl | hb
    · exact ha.1
    · exact h.subset b hb
  · intro b hb
    rcases Multiset.mem_cons.mp hb with rfl | hb
    · rw [hcount b ha.1, if_pos rfl, Multiset.count_cons_self, Multiset.count_eq_zero.mpr ha.2]
      rfl
    · have hne : b ≠ a := fun hba => ha.2 (hba ▸ hb)
      rw [hcount b (h.subset b hb), if_neg hne, Multiset.count_cons_of_ne hne, h.count_eq b hb]

/-- A reference is dropped; the unit is freed when it was the last one. -/
lemma release (h : Accounts V P (a ::ₘ R))
    (hfree : P'.free = if P.count a ≤ 1 then a :: P.free else P.free)
    (hcount : ∀ b ∈ V, P'.count b = if b = a then P.count a - 1 else P.count b) :
    Accounts V P' R := by
  have haV : a ∈ V := h.subset a (Multiset.mem_cons_self a R)
  have hc : P.count a = R.count a + 1 := by
    rw [h.count_eq a (Multiset.mem_cons_self a R), Multiset.count_cons_self]
    push_cast
    rfl
  have hlast : P.count a ≤ 1 ↔ a ∉ R := by
    rw [hc, ← Multiset.count_eq_zero]
    omega
  have hnot : a ∉ P.free := h.notMem_free (Multiset.mem_cons_self a R)
  refine ⟨?_, ?_, ?_, ?_⟩
  · rw [hfree]
    split
    · exact List.nodup_cons.mpr ⟨hnot, h.nodup⟩
    · exact h.nodup
  · intro b
    have hb := h.mem_free b
    rw [Multiset.mem_cons, not_or] at hb
    rw [hfree]
    by_cases hba : b = a
    · subst hba
      split
      · next hle => simp [haV, hlast.mp hle]
      · next hle =>
        have : b ∈ R := by
          by_contra hn
          exact hle (hlast.mpr hn)
        simp [hnot, this]
    · have : (b ∈ if P.count a ≤ 1 then a :: P.free else P.free) ↔ b ∈ P.free := by
        split
        · simp [hba]
        · rfl
      rw [this, hb]
      simp [hba]
  · intro b hb
    exact h.subset b (Multiset.mem_cons_of_mem hb)
  · intro b hb
    have hbV := h.subset b (Multiset.mem_cons_of_mem hb)
    rw [hcount b hbV]
    by_cases hba : b = a
    · subst hba
      rw [if_pos rfl, hc]
      omega
    · rw [if_neg hba, h.count_eq b (Multiset.mem_cons_of_mem hb), Multiset.count_cons_of_ne hba]

/-- A further reference to a unit that is already referred to. -/
lemma retain (h : Accounts V P R) (ha : a ∈ R) (hfree : P'.free = P.free)
    (hcount : ∀ b ∈ V, P'.count b = if b = a then P.count a + 1 else P.count b) :
    Accounts V P' (a ::ₘ R) := by
  refine ⟨hfree ▸ h.nodup, ?_, ?_, ?_⟩
  · intro b
    rw [hfree, h.mem_free, Multiset.mem_cons, not_or]
    constructor
    · rintro ⟨hV, hR⟩
      exact ⟨hV, fun hba => hR (hba ▸ ha), hR⟩
    · rintro ⟨hV, -, hR⟩
      exact ⟨hV, hR⟩
  · intro b hb
    rcases Multiset.mem_cons.mp hb with rfl | hb
    · exact h.subset b ha
    · exact h.subset b hb
  · intro b hb
    by_cases hba : b = a
    · subst hba
      rw [hcount b (h.subset b ha), if_pos rfl, Multiset.count_cons_self, h.count_eq b ha]
      push_cast
      rfl
    · have hbR : b ∈ R := (Multiset.mem_cons.mp hb).resolve_left hba
      rw [hcount b (h.subset b hbR), if_neg hba, Multiset.count_cons_of_ne hba, h.count_eq b hbR]

/-- What the units hold does not matter to the books. -/
lemma congr (h : Accounts V P R) (hfree : P'.free = P.free)
    (hcount : ∀ b ∈ V, P'.count b = P.count b) : Accounts V P' R := by
  refine ⟨hfree ▸ h.nodup, ?_, h.subset, ?_⟩
  · rw [hfree]
    exact h.mem_free
  · intro b hb
    rw [hcount b (h.subset b hb), h.count_eq b hb]

end Accounts

/-- From `P` to `P'` the references `X` are exchanged for `X'`: whatever else is referred to
stays so, and of it the units outside `X` keep their data and do not come into `X'`. No unit is
referred to twice that was not before. -/
def Trade (V : Set α) (P P' : Pool α β) (X X' : Multiset α) : Prop :=
  ∀ R, Accounts V P (R + X) →
    Accounts V P' (R + X') ∧ (∀ a ∈ R, a ∉ X → a ∉ X' ∧ P'.data a = P.data a) ∧
      (X.Nodup → X'.Nodup)

namespace Trade

variable {V : Set α} {P P' P'' : Pool α β} {X X' X'' Y : Multiset α} {a : α}

lemma refl (V : Set α) (P : Pool α β) (X : Multiset α) : Trade V P P X X :=
  fun _ h => ⟨h, fun _ _ ha => ⟨ha, rfl⟩, id⟩

lemma trans (h : Trade V P P' X X') (h' : Trade V P' P'' X' X'') : Trade V P P'' X X'' := by
  intro R hR
  obtain ⟨hR', hkeep, hnodup⟩ := h R hR
  obtain ⟨hR'', hkeep', hnodup'⟩ := h' R hR'
  refine ⟨hR'', fun a ha hX => ?_, fun hX => hnodup' (hnodup hX)⟩
  obtain ⟨hX', hd⟩ := hkeep a ha hX
  obtain ⟨hX'', hd'⟩ := hkeep' a ha hX'
  exact ⟨hX'', hd'.trans hd⟩

/-- References the code does not touch may be added on both sides. -/
lemma frame (h : Trade V P P' X X') (Y : Multiset α) : Trade V P P' (X + Y) (X' + Y) := by
  intro R hR
  rw [← add_assoc, add_right_comm] at hR
  obtain ⟨hR', hkeep, hnodup⟩ := h (R + Y) hR
  rw [← add_assoc, add_right_comm]
  refine ⟨hR', fun a ha hXY => ?_, fun hXY => ?_⟩
  · rw [Multiset.mem_add, not_or] at hXY
    obtain ⟨hX', hd⟩ := hkeep a (Multiset.mem_add.mpr (Or.inl ha)) hXY.1
    exact ⟨fun h => (Multiset.mem_add.mp h).elim hX' hXY.2, hd⟩
  · obtain ⟨hX, hY, hdisjoint⟩ := Multiset.nodup_add.mp hXY
    refine Multiset.nodup_add.mpr ⟨hnodup hX, hY, ?_⟩
    refine Multiset.disjoint_left.mpr fun {a} haX' haY => ?_
    have haX : a ∉ X := fun haX => Multiset.disjoint_left.mp hdisjoint haX haY
    exact (hkeep a (Multiset.mem_add.mpr (Or.inr haY)) haX).1 haX'

lemma frame_left (h : Trade V P P' X X') (Y : Multiset α) :
    Trade V P P' (Y + X) (Y + X') := by
  rw [add_comm Y X, add_comm Y X']
  exact h.frame Y

/-- What holds of the books may be used to show that something is a trade. -/
lemma of_accounts (h : ∀ R, Accounts V P (R + X) → Trade V P P' X X') : Trade V P P' X X' :=
  fun R hR => h R hR R hR

lemma accounts (h : Trade V P P' X X') {R : Multiset α} (hR : Accounts V P (R + X)) :
    Accounts V P' (R + X') :=
  (h R hR).1

lemma data_eq (h : Trade V P P' X X') {R : Multiset α} (hR : Accounts V P (R + X))
    (ha : a ∈ R) (hX : a ∉ X) : P'.data a = P.data a :=
  ((h R hR).2.1 a ha hX).2

/-- What comes in was not referred to. -/
lemma notMem (h : Trade V P P' X X') {R : Multiset α} (hR : Accounts V P (R + X))
    (ha : a ∈ R) (hX : a ∉ X) : a ∉ X' :=
  ((h R hR).2.1 a ha hX).1

lemma nodup (h : Trade V P P' X X') {R : Multiset α} (hR : Accounts V P (R + X)) (hX : X.Nodup) :
    X'.Nodup :=
  (h R hR).2.2 hX

lemma alloc (hfree : P.free = a :: P'.free)
    (hcount : ∀ b ∈ V, P'.count b = if b = a then 1 else P.count b)
    (hdata : ∀ b ∈ V, b ≠ a → P'.data b = P.data b) : Trade V P P' 0 {a} := by
  intro R hR
  rw [add_zero] at hR
  refine ⟨?_, fun b hb _ => ?_, fun _ => Multiset.nodup_singleton a⟩
  · rw [add_comm, Multiset.singleton_add]
    exact hR.alloc hfree hcount
  · have hne : b ≠ a := by
      rintro rfl
      exact hR.notMem_of_free (by rw [hfree]; exact List.mem_cons_self) hb
    exact ⟨by simpa using hne, hdata b (hR.subset b hb) hne⟩

lemma release (hfree : P'.free = if P.count a ≤ 1 then a :: P.free else P.free)
    (hcount : ∀ b ∈ V, P'.count b = if b = a then P.count a - 1 else P.count b)
    (hdata : ∀ b ∈ V, b ≠ a → P'.data b = P.data b) : Trade V P P' {a} 0 := by
  intro R hR
  rw [add_comm, Multiset.singleton_add] at hR
  refine ⟨?_, fun b hb hX => ?_, fun _ => Multiset.nodup_zero⟩
  · rw [add_zero]
    exact hR.release hfree hcount
  · rw [Multiset.mem_singleton] at hX
    exact ⟨Multiset.notMem_zero b, hdata b (hR.subset b (Multiset.mem_cons_of_mem hb)) hX⟩

/-- Writing to units that the code refers to. -/
lemma write (hfree : P'.free = P.free) (hcount : ∀ b ∈ V, P'.count b = P.count b)
    (hdata : ∀ b ∈ V, b ∉ X → P'.data b = P.data b) : Trade V P P' X X := by
  intro R hR
  refine ⟨hR.congr hfree hcount, fun b hb hX => ⟨hX, hdata b (hR.subset b ?_) hX⟩, id⟩
  exact Multiset.mem_add.mpr (Or.inl hb)

end Trade

end Ledger
