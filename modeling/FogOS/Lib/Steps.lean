import Mathlib.Tactic

/-!
# Finite runs of a labelled system

A system is a relation `R s a s'`: in state `s`, the action `a` may lead to `s'`.
-/

variable {σ α : Type*}

/-- The actions of the list lead from the first state to the last. -/
inductive Steps (R : σ → α → σ → Prop) : σ → List α → σ → Prop
  | nil (s : σ) : Steps R s [] s
  | snoc {s s' s'' : σ} {l : List α} {a : α} (h : Steps R s l s') (ha : R s' a s'') :
      Steps R s (l ++ [a]) s''

namespace Steps

variable {R R' : σ → α → σ → Prop} {s s' s'' : σ} {l l' : List α} {a : α}

lemma of_nil (h : Steps R s [] s') : s' = s := by
  generalize heq : ([] : List α) = l at h
  cases h with
  | nil => rfl
  | snoc h ha => simp at heq

lemma of_snoc (h : Steps R s (l ++ [a]) s'') : ∃ s', Steps R s l s' ∧ R s' a s'' := by
  generalize heq : l ++ [a] = l' at h
  cases h with
  | nil => simp at heq
  | snoc h ha =>
    obtain ⟨rfl, rfl⟩ := List.append_singleton_inj.mp heq
    exact ⟨_, h, ha⟩

lemma append (h : Steps R s l s') (h' : Steps R s' l' s'') : Steps R s (l ++ l') s'' := by
  induction h' with
  | nil => simpa using h
  | snoc _ ha ih =>
    rw [← List.append_assoc]
    exact snoc ih ha

lemma of_append (h : Steps R s (l ++ l') s'') : ∃ s', Steps R s l s' ∧ Steps R s' l' s'' := by
  induction l' using List.reverseRecOn generalizing s'' with
  | nil => exact ⟨s'', by simpa using h, nil s''⟩
  | append_singleton l' a ih =>
    rw [← List.append_assoc] at h
    obtain ⟨s₁, hrest, ha⟩ := of_snoc h
    obtain ⟨s', hl, hl'⟩ := ih hrest
    exact ⟨s', hl, snoc hl' ha⟩

/-- What holds at first and is kept by every step holds at last. -/
lemma invariant {I : σ → Prop} (h : Steps R s l s') (h0 : I s)
    (hstep : ∀ s a s', I s → R s a s' → I s') : I s' := by
  induction h with
  | nil => exact h0
  | snoc _ ha ih => exact hstep _ _ _ ih ha

/-- Only the actions of the run matter. -/
lemma mono (h : Steps R s l s') (hR : ∀ s a s', a ∈ l → R s a s' → R' s a s') :
    Steps R' s l s' := by
  induction h with
  | nil => exact nil _
  | snoc _ ha ih =>
    refine snoc (ih fun s a s' hin => hR s a s' (List.mem_append_left _ hin)) (hR _ _ _ ?_ ha)
    exact List.mem_append_right _ (List.mem_singleton_self _)

/-- A step that has been checked, and then the rest of the run. -/
lemma cons (ha : R s a s') (h : Steps R s' l s'') : Steps R s (a :: l) s'' := by
  have h1 : Steps R s ([] ++ [a]) s' := snoc (nil s) ha
  simpa using h1.append h

/-- A run that has been computed. -/
lemma of_foldlM {next : σ → α → Option σ} (hnext : ∀ s a s', next s a = some s' → R s a s')
    (h : l.foldlM next s = some s') : Steps R s l s' := by
  induction l generalizing s with
  | nil =>
    obtain rfl : s = s' := by simpa using h
    exact nil s
  | cons a l ih =>
    rw [List.foldlM_cons] at h
    cases ha : next s a with
    | none => simp [ha] at h
    | some s₁ =>
      have hrest : l.foldlM next s₁ = some s' := by simpa [ha] using h
      exact cons (hnext s a s₁ ha) (ih hrest)

end Steps
