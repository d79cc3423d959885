import Mathlib.Tactic

/-!
# Queues in a ring with wrapping counters

A queue of at most `N` elements lives in an array that is indexed modulo `N`. Its ends are counted
modulo `W`, so neither the counters nor the array say how many elements have passed through. That
`N` divides `W` is what makes the two moduli fit.
-/

namespace Fifo

variable {α : Type*} {N W : Nat} {b : Nat → α} {r w R : Nat} {l : List α} {c : α}

/-- The elements `l` are in the array `b`, from position `R` on; `r` and `w` count their ends. -/
structure Window (N W : Nat) (b : Nat → α) (r w R : Nat) (l : List α) : Prop where
  first : r = R % W
  last : w = (R + l.length) % W
  fits : l.length ≤ N
  data : ∀ k (h : k < l.length), b ((R + k) % N) = l[k]

/-- An index that has been reduced modulo `W`. -/
lemma mod_mod (hW : N ∣ W) (k : Nat) : k % W % N = k % N := Nat.mod_mod_of_dvd k hW

/-- Counters at most `N` apart are equal if their remainders are. -/
lemma mod_inj {a n : Nat} (hn : n < W) : (a + n) % W = a % W ↔ n = 0 := by
  constructor
  · intro h
    have hdvd : W ∣ n := by
      have hcong : a + n ≡ a + 0 [MOD W] := h
      exact (Nat.modEq_zero_iff_dvd).mp (Nat.ModEq.add_left_cancel' a hcong)
    exact Nat.eq_zero_of_dvd_of_lt hdvd hn
  · rintro rfl
    rfl

namespace Window

lemma nil (b : Nat → α) (R : Nat) : Window N W b (R % W) (R % W) R [] :=
  ⟨rfl, rfl, Nat.zero_le N, fun k h => absurd h (Nat.not_lt_zero k)⟩

/-- The counters say how many elements there are. -/
lemma length_eq (h : Window N W b r w R l) (hN : N < W) : (w + W - r) % W = l.length := by
  have hlt : l.length < W := h.fits.trans_lt hN
  have hr : r < W := by
    rw [h.first]
    exact Nat.mod_lt _ (by omega)
  have hsum : (r + l.length) % W = w := by rw [h.first, h.last, Nat.mod_add_mod]
  rcases Nat.lt_or_ge (r + l.length) W with hno | hwrap
  · rw [Nat.mod_eq_of_lt hno] at hsum
    have heq : w + W - r = l.length + W := by omega
    rw [heq, Nat.add_mod_right, Nat.mod_eq_of_lt hlt]
  · have hw : w = r + l.length - W := by
      rw [← hsum, Nat.mod_eq_sub_mod hwrap, Nat.mod_eq_of_lt (by omega)]
    have heq : w + W - r = l.length := by omega
    rw [heq, Nat.mod_eq_of_lt hlt]

lemma empty_iff (h : Window N W b r w R l) (hN : N < W) : r = w ↔ l = [] := by
  rw [h.first, h.last, eq_comm, mod_inj (h.fits.trans_lt hN), List.length_eq_zero_iff]

lemma full_iff (h : Window N W b r w R l) (hN : N < W) : w = (r + N) % W ↔ l.length = N := by
  obtain ⟨n, hn⟩ := Nat.exists_eq_add_of_le h.fits
  have hsum : (r + N) % W = (R + l.length + n) % W := by
    rw [h.first, Nat.mod_add_mod]
    congr 1
    omega
  rw [hsum, h.last, eq_comm, mod_inj (by omega)]
  omega

/-- An element is put in at the end. -/
lemma push (h : Window N W b r w R l) (hW : N ∣ W) (hroom : l.length < N) (c : α) :
    Window N W (Function.update b (w % N) c) r ((w + 1) % W) R (l ++ [c]) := by
  have hw : w % N = (R + l.length) % N := by rw [h.last, mod_mod hW]
  refine ⟨h.first, ?_, ?_, fun k hk => ?_⟩
  · rw [h.last, Nat.mod_add_mod, List.length_append, List.length_singleton, add_assoc]
  · rw [List.length_append, List.length_singleton]
    omega
  · rw [hw]
    by_cases hkl : k = l.length
    · subst hkl
      rw [Function.update_self]
      simp
    · have hlt : k < l.length := by
        rw [List.length_append, List.length_singleton] at hk
        omega
      have hne : (R + k) % N ≠ (R + l.length) % N := by
        obtain ⟨n, hn⟩ := Nat.exists_eq_add_of_lt hlt
        intro heq
        have hzero : n + 1 = 0 := by
          refine (mod_inj (a := R + k) (by omega)).mp (Eq.trans ?_ heq.symm)
          congr 1
          omega
        omega
      rw [Function.update_of_ne hne, h.data k hlt, List.getElem_append_left hlt]

/-- The element at the front. -/
lemma front (h : Window N W b r w R (c :: l)) (hW : N ∣ W) : b (r % N) = c := by
  have hdata := h.data 0 (by simp)
  rw [h.first, mod_mod hW]
  exact hdata

/-- The element at the front is taken out. -/
lemma pop (h : Window N W b r w R (c :: l)) : Window N W b ((r + 1) % W) w (R + 1) l := by
  have hfits := h.fits
  rw [List.length_cons] at hfits
  refine ⟨?_, ?_, by omega, fun k hk => ?_⟩
  · rw [h.first, Nat.mod_add_mod]
  · rw [h.last, List.length_cons]
    congr 1
    omega
  · have hdata := h.data (k + 1) (by simpa using hk)
    rw [List.getElem_cons_succ] at hdata
    rw [← hdata]
    congr 2
    omega

/-- The counter of the end, stepped back. -/
lemma prev (h : Window N W b r w R (l ++ [c])) (hN : N < W) : (w + W - 1) % W = (R + l.length) % W := by
  have hlast := h.last
  rw [List.length_append, List.length_singleton, ← add_assoc] at hlast
  have hcong : w + W - 1 + 1 ≡ R + l.length + 1 [MOD W] := by
    have hw : w + W - 1 + 1 = w + W := by omega
    rw [hw, hlast]
    simp [Nat.ModEq]
  exact Nat.ModEq.add_right_cancel' 1 hcong

/-- The element at the end. -/
lemma back (h : Window N W b r w R (l ++ [c])) (hW : N ∣ W) (hN : N < W) : b ((w + W - 1) % W % N) = c := by
  have hdata := h.data l.length (by simp)
  rw [h.prev hN, mod_mod hW, hdata]
  simp

/-- The element at the end is dropped. -/
lemma unpush (h : Window N W b r w R (l ++ [c])) (hN : N < W) : Window N W b r ((w + W - 1) % W) R l := by
  have hfits := h.fits
  rw [List.length_append, List.length_singleton] at hfits
  refine ⟨h.first, h.prev hN, by omega, fun k hk => ?_⟩
  rw [h.data k (by rw [List.length_append]; omega), List.getElem_append_left hk]

/-- The first of two parts. -/
lemma left {l' : List α} (h : Window N W b r w R (l ++ l')) : Window N W b r ((R + l.length) % W) R l := by
  have hfits := h.fits
  rw [List.length_append] at hfits
  refine ⟨h.first, rfl, by omega, fun k hk => ?_⟩
  rw [h.data k (by rw [List.length_append]; omega), List.getElem_append_left hk]

/-- The second of two parts. -/
lemma right {l' : List α} (h : Window N W b r w R (l ++ l')) :
    Window N W b ((R + l.length) % W) w (R + l.length) l' := by
  have hfits := h.fits
  have hlast := h.last
  rw [List.length_append] at hfits hlast
  refine ⟨rfl, ?_, by omega, fun k hk => ?_⟩
  · rw [hlast, add_assoc]
  · rw [add_assoc, h.data (l.length + k) (by rw [List.length_append]; omega)]
    simp

end Window

end Fifo
