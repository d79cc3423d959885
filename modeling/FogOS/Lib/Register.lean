import Mathlib.Tactic

/-!
# A finite map in numbered places

A place is free or holds a key with its value. As long as no two places hold the same key, the places
stand for a map, and filling or clearing a place changes it at one key.
-/

namespace Register

variable {I K V : Type*}

/-- No key is in two places. -/
def Unique (place : I → Option (K × V)) : Prop :=
  ∀ i j k v w, place i = some (k, v) → place j = some (k, w) → i = j

/-- The places hold the map `m`. -/
structure Holds (place : I → Option (K × V)) (m : K → Option V) : Prop where
  unique : Unique place
  mem_iff : ∀ k v, m k = some v ↔ ∃ i, place i = some (k, v)

open Classical in
/-- The map that places stand for. -/
noncomputable def toMap (place : I → Option (K × V)) (k : K) : Option V :=
  if h : ∃ v i, place i = some (k, v) then some h.choose else none

lemma Unique.holds {place : I → Option (K × V)} (h : Unique place) : Holds place (toMap place) := by
  refine ⟨h, fun k v => ?_⟩
  unfold toMap
  by_cases hk : ∃ v i, place i = some (k, v)
  · rw [dif_pos hk]
    obtain ⟨i, hi⟩ := hk.choose_spec
    constructor
    · intro hv
      exact ⟨i, by rw [hi, Option.some.inj hv]⟩
    · rintro ⟨j, hj⟩
      have hij := h i j k _ _ hi hj
      rw [hij, hj] at hi
      exact congrArg some (Prod.mk.inj (Option.some.inj hi)).2.symm
  · rw [dif_neg hk]
    exact ⟨fun hv => (by cases hv), fun ⟨i, hi⟩ => absurd ⟨v, i, hi⟩ hk⟩

namespace Holds

variable {place place' : I → Option (K × V)} {m m' : K → Option V} {i j : I} {k : K} {v : V}

lemma of_place (h : Holds place m) (hi : place i = some (k, v)) : m k = some v :=
  (h.mem_iff k v).mpr ⟨i, hi⟩

lemma none_iff (h : Holds place m) : m k = none ↔ ∀ i v, place i ≠ some (k, v) := by
  constructor
  · intro hk i v hi
    rw [h.of_place hi] at hk
    cases hk
  · intro hall
    rcases hk : m k with _ | v
    · rfl
    · obtain ⟨i, hi⟩ := (h.mem_iff k v).mp hk
      exact absurd hi (hall i v)

/-- The places hold no other map. -/
lemma eq (h : Holds place m) (h' : Holds place m') : m = m' := by
  funext k
  rcases hk : m k with _ | v
  · exact (h'.none_iff.mpr (h.none_iff.mp hk)).symm
  · obtain ⟨i, hi⟩ := (h.mem_iff k v).mp hk
    exact (h'.of_place hi).symm

variable [DecidableEq I] [DecidableEq K]

/-- A free place gets a key that is in no other. -/
lemma insert (h : Holds place m) (hi : place i = none) (hk : m k = none) (v : V) :
    Holds (Function.update place i (some (k, v))) (Function.update m k (some v)) := by
  have hnew := h.none_iff.mp hk
  refine ⟨fun a b c w x ha hb => ?_, fun c w => ?_⟩
  · by_cases hai : a = i <;> by_cases hbi : b = i
    · rw [hai, hbi]
    · rw [hai, Function.update_self] at ha
      rw [Function.update_of_ne hbi, ← (Prod.mk.inj (Option.some.inj ha)).1] at hb
      exact absurd hb (hnew b x)
    · rw [hbi, Function.update_self] at hb
      rw [Function.update_of_ne hai, ← (Prod.mk.inj (Option.some.inj hb)).1] at ha
      exact absurd ha (hnew a w)
    · rw [Function.update_of_ne hai] at ha
      rw [Function.update_of_ne hbi] at hb
      exact h.unique a b c w x ha hb
  · by_cases hc : c = k
    · subst hc
      rw [Function.update_self]
      constructor
      · intro hw
        exact ⟨i, by rw [Function.update_self, Option.some.inj hw]⟩
      · rintro ⟨j, hj⟩
        by_cases hji : j = i
        · rw [hji, Function.update_self] at hj
          exact congrArg some (Prod.mk.inj (Option.some.inj hj)).2
        · rw [Function.update_of_ne hji] at hj
          exact absurd hj (hnew j w)
    · rw [Function.update_of_ne hc, h.mem_iff]
      constructor
      · rintro ⟨j, hj⟩
        have hji : j ≠ i := by
          rintro rfl
          rw [hi] at hj
          cases hj
        exact ⟨j, by rw [Function.update_of_ne hji, hj]⟩
      · rintro ⟨j, hj⟩
        by_cases hji : j = i
        · rw [hji, Function.update_self] at hj
          exact absurd (Prod.mk.inj (Option.some.inj hj)).1.symm hc
        · rw [Function.update_of_ne hji] at hj
          exact ⟨j, hj⟩

/-- A place is cleared. -/
lemma erase (h : Holds place m) (hi : place i = some (k, v)) :
    Holds (Function.update place i none) (Function.update m k none) := by
  have hplace : ∀ {j c w}, Function.update place i none j = some (c, w) → j ≠ i ∧ place j = some (c, w) := by
    intro j c w hj
    by_cases hji : j = i
    · rw [hji, Function.update_self] at hj
      cases hj
    · exact ⟨hji, by rwa [Function.update_of_ne hji] at hj⟩
  refine ⟨fun a b c w x ha hb => h.unique a b c w x (hplace ha).2 (hplace hb).2, fun c w => ?_⟩
  by_cases hc : c = k
  · subst hc
    rw [Function.update_self]
    refine ⟨fun hw => (by cases hw), fun ⟨j, hj⟩ => ?_⟩
    exact absurd (h.unique j i c w v (hplace hj).2 hi) (hplace hj).1
  · rw [Function.update_of_ne hc, h.mem_iff]
    constructor
    · rintro ⟨j, hj⟩
      have hji : j ≠ i := by
        rintro rfl
        rw [hi] at hj
        exact hc (Prod.mk.inj (Option.some.inj hj)).1.symm
      exact ⟨j, by rw [Function.update_of_ne hji, hj]⟩
    · rintro ⟨j, hj⟩
      exact ⟨j, (hplace hj).2⟩

end Holds

end Register
