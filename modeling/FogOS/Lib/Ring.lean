import Mathlib.Tactic

/-!
# Intrusive doubly linked lists

A list threaded through its own nodes is given by two functions, `nx` and `pv`. A null-terminated
list with a head and a tail variable is a ring through the null node `z`: `nx z` is the head and
`pv z` is the tail. Seen so, linking and unlinking a node need no case split on the ends.
-/

namespace Ring

variable {α : Type*}

/-- Consecutive nodes of the list are linked both ways. -/
def Links (nx pv : α → α) : List α → Prop
  | x :: y :: r => nx x = y ∧ pv y = x ∧ Links nx pv (y :: r)
  | _ => True

/-- The nodes `l` form a ring through `z`, in this order. -/
def IsRing (nx pv : α → α) (z : α) (l : List α) : Prop :=
  Links nx pv (z :: (l ++ [z]))

variable {nx pv nx' pv' : α → α} {z a : α} {l r : List α}

@[simp] lemma links_nil : Links nx pv ([] : List α) := trivial

@[simp] lemma links_singleton (x : α) : Links nx pv [x] := trivial

@[simp] lemma links_cons_cons {x y : α} :
    Links nx pv (x :: y :: r) ↔ nx x = y ∧ pv y = x ∧ Links nx pv (y :: r) := Iff.rfl

/-- Links of a concatenation: both halves, which share the node at the seam. -/
lemma links_append {x : α} :
    Links nx pv (l ++ x :: r) ↔ Links nx pv (l ++ [x]) ∧ Links nx pv (x :: r) := by
  induction l with
  | nil => simp
  | cons b l ih =>
    cases l with
    | nil => simp [and_assoc]
    | cons c l =>
      simp only [List.cons_append, links_cons_cons] at ih ⊢
      rw [ih]
      simp only [and_assoc]

/-- Links read `nx` of every node but the last and `pv` of every node but the first. -/
lemma Links.congr (h : Links nx pv l) (hnx : ∀ x ∈ l.dropLast, nx' x = nx x)
    (hpv : ∀ x ∈ l.tail, pv' x = pv x) : Links nx' pv' l := by
  induction l with
  | nil => trivial
  | cons x l ih =>
    cases l with
    | nil => trivial
    | cons y l =>
      obtain ⟨hx, hy, hl⟩ := h
      refine ⟨?_, ?_, ih hl ?_ ?_⟩
      · rw [hnx x (by simp), hx]
      · rw [hpv y (by simp), hy]
      · intro b hb
        exact hnx b (by simp [hb])
      · intro b hb
        exact hpv b (by simp only [List.tail_cons] at hb ⊢; exact List.mem_cons_of_mem _ hb)

lemma isRing_nil : IsRing nx pv z [] ↔ nx z = z ∧ pv z = z := by
  simp [IsRing]

/-- The neighbours of a node of a ring. -/
lemma IsRing.neighbours (h : IsRing nx pv z (l ++ a :: r)) :
    pv a = (z :: l).getLast (by simp) ∧ nx a = (r ++ [z]).head (by simp) := by
  have hs : Links nx pv ((z :: l) ++ a :: (r ++ [z])) := by simpa [IsRing] using h
  obtain ⟨hl, hr⟩ := links_append.mp hs
  constructor
  · rw [← List.dropLast_append_getLast (l := z :: l) (by simp), List.append_assoc] at hl
    exact (links_append.mp hl).2.2.1
  · cases r with
    | nil => exact hr.1
    | cons b r => exact hr.1

lemma IsRing.nx_eq (h : IsRing nx pv z (l ++ a :: r)) : nx a = r.headD z := by
  rw [h.neighbours.2]
  cases r <;> rfl

lemma IsRing.pv_eq (h : IsRing nx pv z (l ++ a :: r)) : pv a = l.getLastD z := by
  rw [h.neighbours.1, List.getLast_eq_getLastD]

lemma IsRing.nx_nil (h : IsRing nx pv z l) : nx z = l.headD z := by
  cases l with
  | nil => exact h.1
  | cons b l => exact h.1

lemma IsRing.pv_nil (h : IsRing nx pv z l) : pv z = l.getLastD z := by
  rcases List.eq_nil_or_concat l with rfl | ⟨k, b, rfl⟩
  · exact h.2.1
  · have hs : Links nx pv ((z :: k) ++ b :: [z]) := by simpa [IsRing] using h
    simpa using (links_append.mp hs).2.2.1

/-- A ring is the two halves around a seam, each with its outer links. -/
lemma isRing_iff_halves {p n : α} {k m : List α} (hl : z :: l = k ++ [p]) (hr : r ++ [z] = n :: m) :
    IsRing nx pv z (l ++ r) ↔ Links nx pv (k ++ [p]) ∧ nx p = n ∧ pv n = p ∧
      Links nx pv (n :: m) := by
  have hs : z :: (l ++ r ++ [z]) = k ++ p :: n :: m := by
    rw [← List.singleton_append (l := n :: m), ← List.append_assoc, ← hl, ← hr]
    simp
  rw [IsRing, hs, links_append, links_cons_cons]

private lemma halves (z : α) (l r : List α) : ∃ k p n m,
    z :: l = k ++ [p] ∧ r ++ [z] = n :: m ∧ p = l.getLastD z ∧ n = r.headD z := by
  refine ⟨(z :: l).dropLast, (z :: l).getLast (by simp), (r ++ [z]).head (by simp),
    (r ++ [z]).tail, ?_, ?_, ?_, ?_⟩
  · exact (List.dropLast_append_getLast (by simp)).symm
  · exact (List.cons_head_tail (by simp)).symm
  · rw [List.getLast_eq_getLastD]
  · cases r <;> rfl

/-- The halves around a seam survive any change of the links at the seam itself. -/
private lemma halves_congr {p n : α} {k m : List α} (hnd : (z :: (l ++ r)).Nodup)
    (hl : z :: l = k ++ [p]) (hr : r ++ [z] = n :: m)
    (hnx : ∀ x ∈ z :: (l ++ r), x ≠ p → nx' x = nx x)
    (hpv : ∀ x ∈ z :: (l ++ r), x ≠ n → pv' x = pv x)
    (h : Links nx pv (k ++ [p]) ∧ Links nx pv (n :: m)) :
    Links nx' pv' (k ++ [p]) ∧ Links nx' pv' (n :: m) := by
  have hzl : (k ++ [p]).Nodup := by
    rw [← hl]
    exact hnd.sublist (List.Sublist.cons_cons z (List.sublist_append_left l r))
  have hrz : (n :: m).Nodup := by
    rw [← hr]
    have h1 : (r ++ z :: l).Nodup := by
      have h2 := (@List.perm_append_comm _ r (z :: l)).nodup_iff
      rw [h2]
      simpa using hnd
    exact h1.sublist (List.Sublist.append_left (by simp) r)
  have hmem : ∀ x, x ∈ k ++ [p] ∨ x ∈ n :: m → x ∈ z :: (l ++ r) := by
    rintro x (hx | hx)
    · rw [← hl] at hx
      simp only [List.mem_cons, List.mem_append] at hx ⊢
      tauto
    · rw [← hr] at hx
      simp only [List.mem_append, List.mem_cons] at hx ⊢
      tauto
  have hdisj : ∀ x ∈ l, x ∉ n :: m := by
    intro x hx hx'
    rw [← hr] at hx'
    simp only [List.mem_append, List.mem_singleton] at hx'
    simp only [List.nodup_cons, List.mem_append, List.nodup_append] at hnd
    rcases hx' with hx' | rfl
    · exact hnd.2.2.2 x hx x hx' rfl
    · exact hnd.1 (Or.inl hx)
  have hdisj' : ∀ x ∈ r, x ∉ k ++ [p] := by
    intro x hx hx'
    rw [← hl] at hx'
    simp only [List.mem_cons] at hx'
    simp only [List.nodup_cons, List.mem_append, List.nodup_append] at hnd
    rcases hx' with rfl | hx'
    · exact hnd.1 (Or.inr hx)
    · exact hnd.2.2.2 x hx' x hx rfl
  constructor
  · apply h.1.congr
    · intro x hx
      rw [List.dropLast_concat] at hx
      refine hnx x (hmem x (Or.inl (by simp [hx]))) ?_
      rintro rfl
      exact (List.nodup_append.mp hzl).2.2 x hx x (by simp) rfl
    · intro x hx
      rw [← hl, List.tail_cons] at hx
      refine hpv x (by simp [hx]) ?_
      rintro rfl
      exact hdisj x hx (by simp)
  · apply h.2.congr
    · intro x hx
      rw [← hr, List.dropLast_concat] at hx
      refine hnx x (by simp [hx]) ?_
      rintro rfl
      exact hdisj' x hx (by simp)
    · intro x hx
      rw [List.tail_cons] at hx
      refine hpv x (hmem x (Or.inr (by simp [hx]))) ?_
      rintro rfl
      exact (List.nodup_cons.mp hrz).1 hx

variable [DecidableEq α]

/-- Unlinking a node: its two neighbours are made to point at each other. -/
theorem IsRing.unlink (hnd : (z :: (l ++ a :: r)).Nodup) (h : IsRing nx pv z (l ++ a :: r))
    (hnx : ∀ x ∈ z :: (l ++ r), nx' x = Function.update nx (pv a) (nx a) x)
    (hpv : ∀ x ∈ z :: (l ++ r), pv' x = Function.update pv (nx a) (pv a) x) :
    IsRing nx' pv' z (l ++ r) := by
  have hpa := h.pv_eq
  have hna := h.nx_eq
  obtain ⟨k, p, n, m, hl, hr, hp, hn⟩ := halves z l r
  have hs : z :: (l ++ a :: r ++ [z]) = k ++ p :: a :: n :: m := by
    have h1 : z :: (l ++ a :: r ++ [z]) = (z :: l) ++ a :: (r ++ [z]) := by simp
    rw [h1, hl, hr]
    simp
  rw [IsRing, hs, links_append] at h
  obtain ⟨hk, -, -, -, -, hm⟩ := h
  have hnd' : (z :: (l ++ r)).Nodup :=
    hnd.sublist (List.Sublist.cons_cons z (List.Sublist.append_left (by simp) l))
  have hpz : p ∈ z :: (l ++ r) := by
    have h1 : p ∈ z :: l := by rw [hl]; simp
    simp only [List.mem_cons, List.mem_append] at h1 ⊢
    tauto
  have hnz : n ∈ z :: (l ++ r) := by
    have h1 : n ∈ r ++ [z] := by rw [hr]; simp
    simp only [List.mem_cons, List.mem_append] at h1 ⊢
    tauto
  rw [← hp] at hpa
  rw [← hn] at hna
  rw [hpa, hna] at hnx hpv
  obtain ⟨hk', hm'⟩ := halves_congr hnd' hl hr
    (fun x hx hne => (hnx x hx).trans (Function.update_of_ne hne _ _))
    (fun x hx hne => (hpv x hx).trans (Function.update_of_ne hne _ _)) ⟨hk, hm⟩
  refine (isRing_iff_halves hl hr).mpr ⟨hk', ?_, ?_, hm'⟩
  · rw [hnx p hpz, Function.update_self]
  · rw [hpv n hnz, Function.update_self]

/-- Linking a node in between two neighbours. -/
theorem IsRing.link (hnd : (z :: (l ++ a :: r)).Nodup) (h : IsRing nx pv z (l ++ r))
    (hnxa : nx' a = r.headD z) (hpva : pv' a = l.getLastD z)
    (hnx : ∀ x ∈ z :: (l ++ r), nx' x = Function.update nx (l.getLastD z) a x)
    (hpv : ∀ x ∈ z :: (l ++ r), pv' x = Function.update pv (r.headD z) a x) :
    IsRing nx' pv' z (l ++ a :: r) := by
  obtain ⟨k, p, n, m, hl, hr, hp, hn⟩ := halves z l r
  obtain ⟨hk, -, -, hm⟩ := (isRing_iff_halves hl hr).mp h
  have hnd' : (z :: (l ++ r)).Nodup :=
    hnd.sublist (List.Sublist.cons_cons z (List.Sublist.append_left (by simp) l))
  have hpz : p ∈ z :: (l ++ r) := by
    have h1 : p ∈ z :: l := by rw [hl]; simp
    simp only [List.mem_cons, List.mem_append] at h1 ⊢
    tauto
  have hnz : n ∈ z :: (l ++ r) := by
    have h1 : n ∈ r ++ [z] := by rw [hr]; simp
    simp only [List.mem_cons, List.mem_append] at h1 ⊢
    tauto
  rw [← hp] at hpva hnx
  rw [← hn] at hnxa hpv
  have hs : z :: (l ++ a :: r ++ [z]) = k ++ p :: a :: n :: m := by
    have h1 : z :: (l ++ a :: r ++ [z]) = (z :: l) ++ a :: (r ++ [z]) := by simp
    rw [h1, hl, hr]
    simp
  obtain ⟨hk', hm'⟩ := halves_congr hnd' hl hr
    (fun x hx hne => (hnx x hx).trans (Function.update_of_ne hne _ _))
    (fun x hx hne => (hpv x hx).trans (Function.update_of_ne hne _ _)) ⟨hk, hm⟩
  rw [IsRing, hs, links_append]
  refine ⟨hk', ?_, hpva, hnxa, ?_, hm'⟩
  · rw [hnx p hpz, Function.update_self]
  · rw [hpv n hnz, Function.update_self]

omit [DecidableEq α] in
/-- A ring depends only on the links of its own nodes. -/
lemma IsRing.congr (h : IsRing nx pv z l) (hnx : ∀ x ∈ z :: l, nx' x = nx x)
    (hpv : ∀ x ∈ z :: l, pv' x = pv x) : IsRing nx' pv' z l := by
  refine Links.congr h ?_ ?_
  · intro x hx
    apply hnx
    rw [show z :: (l ++ [z]) = (z :: l) ++ [z] by simp, List.dropLast_concat] at hx
    exact hx
  · intro x hx
    apply hpv
    simp only [List.tail_cons, List.mem_append, List.mem_singleton] at hx
    simp only [List.mem_cons]
    tauto

end Ring
