import Mathlib.Tactic

/-!
# Units placed in slots

Units are numbered, and a slot holds one unit or, written 0, none. Of the units that may be placed,
those marked as used are the ones that some slot holds, and no unit is in two slots.
-/

namespace Placement

variable {S : Type*}

/-- The slots hold different units, and exactly the units in slots are marked as used. -/
structure Placed (usable : Nat → Prop) (used : Nat → Bool) (loc : S → Nat) : Prop where
  mem : ∀ s, loc s ≠ 0 → usable (loc s)
  inj : ∀ s t, loc s ≠ 0 → loc s = loc t → s = t
  used_iff : ∀ b, usable b → (used b = true ↔ ∃ s, loc s = b)

namespace Placed

variable {usable : Nat → Prop} {used used' : Nat → Bool} {loc loc' : S → Nat} {s t : S} {b : Nat}

/-- A unit that is not marked is in no slot. -/
lemma fresh (h : Placed usable used loc) (hb : usable b) (hfree : used b = false) (s : S) :
    loc s ≠ b := by
  intro hs
  have hused := (h.used_iff b hb).mpr ⟨s, hs⟩
  rw [hfree] at hused
  cases hused

lemma used_of_loc (h : Placed usable used loc) (hs : loc s ≠ 0) : used (loc s) = true :=
  (h.used_iff _ (h.mem s hs)).mpr ⟨s, rfl⟩

/-- The units of some slots are given back together. -/
lemma clear {T : Set S} (h : Placed usable used loc) (hpos : ¬ usable 0)
    (hout : ∀ s ∈ T, loc' s = 0) (hstay : ∀ s, s ∉ T → loc' s = loc s)
    (hused : ∀ b, usable b → (used' b = true ↔ used b = true ∧ ∀ s ∈ T, loc s ≠ b)) :
    Placed usable used' loc' := by
  have hin : ∀ s, loc' s ≠ 0 → s ∉ T := fun s hs hT => hs (hout s hT)
  refine ⟨fun s hs => ?_, fun s t hs hst => ?_, fun b hb => ?_⟩
  · have hsame := hstay s (hin s hs)
    rw [hsame] at hs ⊢
    exact h.mem s hs
  · have ht := hin t (hst ▸ hs)
    have hsame := hstay s (hin s hs)
    rw [hsame] at hs hst
    rw [hstay t ht] at hst
    exact h.inj s t hs hst
  · have hb0 : b ≠ 0 := by
      rintro rfl
      exact hpos hb
    rw [hused b hb, h.used_iff b hb]
    constructor
    · rintro ⟨⟨s, hs⟩, hnone⟩
      have hsT : s ∉ T := fun hT => hnone s hT hs
      exact ⟨s, (hstay s hsT).trans hs⟩
    · rintro ⟨s, hs⟩
      have hs0 : loc' s ≠ 0 := by rwa [hs]
      have hsT := hin s hs0
      rw [hstay s hsT] at hs
      refine ⟨⟨s, hs⟩, fun t ht heq => hsT ?_⟩
      rwa [h.inj s t (by rwa [hs]) (hs.trans heq.symm)]

variable [DecidableEq S]

/-- A unit that is not marked is put into an empty slot. -/
lemma attach (h : Placed usable used loc) (hs : loc s = 0) (hb : usable b) (hfree : used b = false)
    (hpos : ¬ usable 0) : Placed usable (Function.update used b true)
    (Function.update loc s b) := by
  have hfresh := h.fresh hb hfree
  refine ⟨fun t ht => ?_, fun t u ht hu => ?_, fun c hc => ?_⟩
  · by_cases hts : t = s
    · rwa [hts, Function.update_self]
    · rw [Function.update_of_ne hts] at ht ⊢
      exact h.mem t ht
  · by_cases hts : t = s <;> by_cases hus : u = s
    · rw [hts, hus]
    · rw [hts, Function.update_self, Function.update_of_ne hus] at hu
      exact absurd hu.symm (hfresh u)
    · rw [hus, Function.update_self, Function.update_of_ne hts] at hu
      exact absurd hu (hfresh t)
    · rw [Function.update_of_ne hts] at ht hu
      rw [Function.update_of_ne hus] at hu
      exact h.inj t u ht hu
  · by_cases hcb : c = b
    · rw [hcb, Function.update_self]
      exact ⟨fun _ => ⟨s, Function.update_self s b loc⟩, fun _ => rfl⟩
    · rw [Function.update_of_ne hcb, h.used_iff c hc]
      constructor
      · rintro ⟨t, ht⟩
        have hts : t ≠ s := by
          rintro rfl
          rw [hs] at ht
          exact hpos (ht ▸ hc)
        exact ⟨t, by rw [Function.update_of_ne hts, ht]⟩
      · rintro ⟨t, ht⟩
        by_cases hts : t = s
        · rw [hts, Function.update_self] at ht
          exact absurd ht.symm hcb
        · rw [Function.update_of_ne hts] at ht
          exact ⟨t, ht⟩

end Placed

end Placement
