import FogOS.Umalloc.SplitMerge

/-!
# Searching the free list

The three fit algorithms end on every represented heap, and what they return is a node of the
free list that is large enough, or NULL.
-/

namespace FogOS.Umalloc

variable {s : State} {bs : List Block} {fs fl fr : List Nat} {a size k : Nat}

/-- What a search for `size` bytes among the nodes `fs` may return. -/
def Found (s : State) (fs : List Nat) (size a : Nat) : Prop :=
  a = 0 ∨ (a ∈ fs ∧ size ≤ s.getSize a)

lemma Found.cons {x : Nat} (h : Found s fs size a) : Found s (x :: fs) size a := by
  rcases h with h | ⟨h, h'⟩
  · exact Or.inl h
  · exact Or.inr ⟨List.mem_cons_of_mem _ h, h'⟩

/-- A search started at the head of `fr` stands at the node `x` next. -/
lemma Rep.step_free {x : Nat} (h : Rep s bs (fl ++ x :: fr)) :
    x ≠ 0 ∧ s.nextFree x = fr.headD 0 ∧ Rep s bs ((fl ++ [x]) ++ fr) :=
  ⟨h.ne_zero_of_free (by simp), h.nextFree_eq, by simpa using h⟩

lemma Rep.firstFitFrom_found (h : Rep s bs (fl ++ fr)) (hk : fr.length < k) :
    ∃ a, s.firstFitFrom size k (fr.headD 0) = some a ∧ Found s fr size a := by
  induction k generalizing fl fr with
  | zero => simp at hk
  | succ k ih =>
    unfold State.firstFitFrom
    cases fr with
    | nil => exact ⟨0, by simp, Or.inl rfl⟩
    | cons x fr =>
      obtain ⟨hx0, hnext, h'⟩ := h.step_free
      simp only [List.headD_cons, if_neg hx0, hnext]
      by_cases hfit : s.getSize x ≥ size
      · rw [if_pos hfit]
        exact ⟨x, rfl, Or.inr ⟨by simp, hfit⟩⟩
      · rw [if_neg hfit]
        obtain ⟨a, ha, hfound⟩ := ih h' (by simpa using hk)
        exact ⟨a, ha, hfound.cons⟩

lemma Rep.bestFitFrom_found {best bestSize : Nat} (h : Rep s bs (fl ++ fr)) (hk : fr.length < k)
    (hbest : Found s fs size best) :
    ∃ a, s.bestFitFrom size k (fr.headD 0) best bestSize = some a ∧
      (Found s fs size a ∨ Found s fr size a) := by
  induction k generalizing fl fr fs best bestSize with
  | zero => simp at hk
  | succ k ih =>
    unfold State.bestFitFrom
    cases fr with
    | nil => exact ⟨best, by simp, Or.inl hbest⟩
    | cons x fr =>
      obtain ⟨hx0, hnext, h'⟩ := h.step_free
      simp only [List.headD_cons, if_neg hx0, hnext]
      by_cases hfit : s.getSize x ≥ size ∧ s.getSize x < bestSize
      · rw [if_pos hfit]
        have hx : Found s (x :: fr) size x := Or.inr ⟨by simp, hfit.1⟩
        obtain ⟨a, ha, hfound⟩ := ih h' (by simpa using hk) hx
        exact ⟨a, ha, Or.inr (hfound.elim id Found.cons)⟩
      · rw [if_neg hfit]
        obtain ⟨a, ha, hfound⟩ := ih h' (by simpa using hk) hbest
        exact ⟨a, ha, hfound.imp id Found.cons⟩

lemma Rep.worstFitFrom_found {worst worstSize : Nat} (h : Rep s bs (fl ++ fr))
    (hk : fr.length < k) (hworst : Found s fs size worst) :
    ∃ a, s.worstFitFrom size k (fr.headD 0) worst worstSize = some a ∧
      (Found s fs size a ∨ Found s fr size a) := by
  induction k generalizing fl fr fs worst worstSize with
  | zero => simp at hk
  | succ k ih =>
    unfold State.worstFitFrom
    cases fr with
    | nil => exact ⟨worst, by simp, Or.inl hworst⟩
    | cons x fr =>
      obtain ⟨hx0, hnext, h'⟩ := h.step_free
      simp only [List.headD_cons, if_neg hx0, hnext]
      by_cases hfit : s.getSize x ≥ size ∧ s.getSize x > worstSize
      · rw [if_pos hfit]
        have hx : Found s (x :: fr) size x := Or.inr ⟨by simp, hfit.1⟩
        obtain ⟨a, ha, hfound⟩ := ih h' (by simpa using hk) hx
        exact ⟨a, ha, Or.inr (hfound.elim id Found.cons)⟩
      · rw [if_neg hfit]
        obtain ⟨a, ha, hfound⟩ := ih h' (by simpa using hk) hworst
        exact ⟨a, ha, hfound.imp id Found.cons⟩

/-- Whatever the algorithm, the search returns NULL or a large enough node of the free list. -/
theorem Rep.reuseBlock_found (h : Rep s bs fs) (size : Nat) :
    ∃ a, s.reuseBlock size = some a ∧ Found s fs size a := by
  have h' : Rep s bs ([] ++ fs) := h
  have hlen := h.length_lt h.nodup h.sub
  have h0 : Found s [] size 0 := Or.inl rfl
  have hnil : ∀ a, Found s [] size a ∨ Found s fs size a → Found s fs size a := by
    rintro a ((h | ⟨h, -⟩) | h)
    · exact Or.inl h
    · simp at h
    · exact h
  unfold State.reuseBlock State.findFreeBlockFirstFit State.findFreeBlockBestFit
    State.findFreeBlockWorstFit
  rw [h.freeHead_eq]
  split
  · exact h'.firstFitFrom_found hlen
  split
  · obtain ⟨a, ha, hf⟩ := h'.bestFitFrom_found hlen h0
    exact ⟨a, ha, hnil a hf⟩
  split
  · obtain ⟨a, ha, hf⟩ := h'.worstFitFrom_found hlen h0
    exact ⟨a, ha, hnil a hf⟩
  · exact ⟨0, rfl, Or.inl rfl⟩

end FogOS.Umalloc
