import Mathlib.Tactic

/-!
# Counting pointers

Holders `i` may each point to an object `b`, by a function `g : ι → Option β`. How many of a finite set
of holders point to `b` changes by at most one when one holder changes its pointer.
-/

namespace Pointers

variable {ι β : Type*} [DecidableEq β] {A : Finset ι} {g : ι → Option β} {i : ι} {b : β}

/-- The holders in `A` that point to `b`. -/
def count (A : Finset ι) (g : ι → Option β) (b : β) : Nat := (A.filter fun i => g i = some b).card

lemma count_pos (hi : i ∈ A) (hg : g i = some b) : 0 < count A g b :=
  Finset.card_pos.mpr ⟨i, Finset.mem_filter.mpr ⟨hi, hg⟩⟩

lemma count_eq_zero (h : ∀ i ∈ A, g i ≠ some b) : count A g b = 0 := by
  rw [count, Finset.card_eq_zero, Finset.filter_eq_empty_iff]
  exact fun i hi => h i hi

variable [DecidableEq ι]

/-- A holder that points to nothing does not count. -/
lemma count_insert (hg : g i = none) : count (insert i A) g b = count A g b := by
  rw [count, count, Finset.filter_insert, if_neg (by simp [hg])]

/-- One holder changes its pointer. -/
lemma count_update (hi : i ∈ A) (x : Option β) (b : β) :
    count A (Function.update g i x) b + (if g i = some b then 1 else 0) =
      count A g b + (if x = some b then 1 else 0) := by
  obtain ⟨B, hiB, rfl⟩ : ∃ B : Finset ι, i ∉ B ∧ insert i B = A :=
    ⟨A.erase i, Finset.notMem_erase i A, Finset.insert_erase hi⟩
  have hrest : B.filter (fun j => Function.update g i x j = some b) = B.filter fun j => g j = some b := by
    refine Finset.filter_congr fun j hj => ?_
    have hne : j ≠ i := by
      rintro rfl
      exact hiB hj
    rw [Function.update_of_ne hne]
  have hsplit : ∀ f : ι → Option β, count (insert i B) f b =
      (B.filter fun j => f j = some b).card + if f i = some b then 1 else 0 := by
    intro f
    rw [count, Finset.filter_insert]
    split
    · rw [Finset.card_insert_of_notMem (by simp [hiB])]
    · rw [Nat.add_zero]
  rw [hsplit, hsplit, hrest, Function.update_self]
  omega

end Pointers
