import Mathlib.Data.List.MinMax
import FogOS.Umalloc.Contract

/-!
# What the fit algorithms choose

First fit takes the first free block that is large enough, best fit the first of the smallest such
blocks, and worst fit the first of the largest ones. What `malloc` does with the block it reuses
holds for all requests, those whose size wraps around included.
-/

namespace FogOS.Umalloc

open ByteMem

/-! ### The choices -/

section Choices

variable {α : Type*}

/-- The first element of size at least `size`. -/
def firstFit (f : α → Nat) (size : Nat) (l : List α) : Option α := l.find? (size ≤ f ·)

/-- The first of the smallest elements of size at least `size`. -/
def bestFit (f : α → Nat) (size : Nat) (l : List α) : Option α :=
  (l.filter (size ≤ f ·)).argmin f

/-- The first of the largest elements of size at least `size`. -/
def worstFit (f : α → Nat) (size : Nat) (l : List α) : Option α :=
  (l.filter (size ≤ f ·)).argmax f

variable {f : α → Nat} {size : Nat} {l : List α} {a : α}

lemma firstFit_eq_none : firstFit f size l = none ↔ ∀ x ∈ l, f x < size := by
  simp [firstFit]

lemma bestFit_eq_none : bestFit f size l = none ↔ ∀ x ∈ l, f x < size := by
  simp [bestFit, List.filter_eq_nil_iff]

lemma worstFit_eq_none : worstFit f size l = none ↔ ∀ x ∈ l, f x < size := by
  simp [worstFit, List.filter_eq_nil_iff]

lemma firstFit_mem (h : firstFit f size l = some a) : a ∈ l := List.mem_of_find?_eq_some h

lemma bestFit_mem (h : bestFit f size l = some a) : a ∈ l :=
  List.mem_of_mem_filter (List.argmin_mem h)

lemma worstFit_mem (h : worstFit f size l = some a) : a ∈ l :=
  List.mem_of_mem_filter (List.argmax_mem h)

lemma argAux_some (r : α → α → Prop) [DecidableRel r] (b c : α) :
    List.argAux r (some c) b = if r b c then some b else some c := rfl

end Choices

/-! ### The searches -/

section Searches

variable {s : State} {bs : List Block} {fs fl fr : List Nat} {size k : Nat}

lemma Rep.getSize_bounds (h : Rep s bs fs) {x : Nat} (hx : x ∈ fs) :
    s.getSize x % 2 = 0 ∧ s.getSize x < 2 ^ 32 := by
  obtain ⟨c, hc, rfl⟩ := List.mem_map.mp (h.sub x hx)
  rw [h.getSize_eq hc]
  exact h.fits c hc

lemma Rep.firstFitFrom_eq (h : Rep s bs (fl ++ fr)) (hk : fr.length < k) :
    s.firstFitFrom size k (fr.headD 0) = some ((firstFit s.getSize size fr).getD 0) := by
  induction k generalizing fl fr with
  | zero => exact absurd hk (Nat.not_lt_zero _)
  | succ k ih =>
    rw [State.firstFitFrom]
    cases fr with
    | nil => rfl
    | cons x fr =>
      obtain ⟨hx0, hnext, h'⟩ := h.step_free
      simp only [List.headD_cons, if_neg hx0, hnext, firstFit, List.find?_cons]
      by_cases hfit : size ≤ s.getSize x
      · simp [hfit]
      · simpa [hfit, firstFit] using ih h' (by simpa using hk)

/-- The best block so far, and its size, with the starting values for none. -/
def bestSoFar (s : State) : Option Nat → Nat × Nat
  | none => (0, 0xFFFFFFFF)
  | some x => (x, s.getSize x)

/-- The loop of best fit folds the rest of the list. -/
lemma Rep.bestFitFrom_eq (h : Rep s bs (fl ++ fr)) (hk : fr.length < k) (acc : Option Nat) :
    s.bestFitFrom size k (fr.headD 0) (bestSoFar s acc).1 (bestSoFar s acc).2 =
      some (((fr.filter (size ≤ s.getSize ·)).foldl
        (List.argAux fun b c => s.getSize b < s.getSize c) acc).getD 0) := by
  induction k generalizing fl fr acc with
  | zero => exact absurd hk (Nat.not_lt_zero _)
  | succ k ih =>
    rw [State.bestFitFrom]
    cases fr with
    | nil => cases acc <;> rfl
    | cons x fr =>
      obtain ⟨hx0, hnext, h'⟩ := h.step_free
      have hlen : fr.length < k := by simpa using hk
      have hx := h.getSize_bounds (x := x) (by simp)
      simp only [List.headD_cons, if_neg hx0, hnext]
      by_cases hfit : size ≤ s.getSize x
      · rw [List.filter_cons_of_pos (by simpa using hfit), List.foldl_cons]
        cases acc with
        | none =>
          -- the sentinel is odd, and sizes are even
          have hlt : s.getSize x < 0xFFFFFFFF := by omega
          rw [if_pos ⟨hfit, hlt⟩]
          exact ih h' hlen (some x)
        | some c =>
          by_cases hlt : s.getSize x < s.getSize c
          · rw [if_pos ⟨hfit, hlt⟩, argAux_some, if_pos hlt]
            exact ih h' hlen (some x)
          · rw [if_neg fun hboth => hlt hboth.2, argAux_some, if_neg hlt]
            exact ih h' hlen (some c)
      · rw [List.filter_cons_of_neg (by simpa using hfit), if_neg fun hboth => hfit hboth.1]
        exact ih h' hlen acc

/-- The largest block so far, and its size. -/
def worstSoFar (s : State) : Option Nat → Nat × Nat
  | none => (0, 0)
  | some x => (x, s.getSize x)

/-- The loop of worst fit folds the rest of the list. -/
lemma Rep.worstFitFrom_eq (h : Rep s bs (fl ++ fr)) (hpos : ∀ x ∈ fr, 0 < s.getSize x)
    (hk : fr.length < k) (acc : Option Nat) :
    s.worstFitFrom size k (fr.headD 0) (worstSoFar s acc).1 (worstSoFar s acc).2 =
      some (((fr.filter (size ≤ s.getSize ·)).foldl
        (List.argAux fun b c => s.getSize c < s.getSize b) acc).getD 0) := by
  induction k generalizing fl fr acc with
  | zero => exact absurd hk (Nat.not_lt_zero _)
  | succ k ih =>
    rw [State.worstFitFrom]
    cases fr with
    | nil => cases acc <;> rfl
    | cons x fr =>
      obtain ⟨hx0, hnext, h'⟩ := h.step_free
      have hlen : fr.length < k := by simpa using hk
      have hpos' : ∀ y ∈ fr, 0 < s.getSize y := fun y hy => hpos y (List.mem_cons_of_mem x hy)
      simp only [List.headD_cons, if_neg hx0, hnext]
      by_cases hfit : size ≤ s.getSize x
      · rw [List.filter_cons_of_pos (by simpa using hfit), List.foldl_cons]
        cases acc with
        | none =>
          rw [if_pos ⟨hfit, hpos x List.mem_cons_self⟩]
          exact ih h' hpos' hlen (some x)
        | some c =>
          by_cases hlt : s.getSize c < s.getSize x
          · rw [if_pos ⟨hfit, hlt⟩, argAux_some, if_pos hlt]
            exact ih h' hpos' hlen (some x)
          · rw [if_neg fun hboth => hlt hboth.2, argAux_some, if_neg hlt]
            exact ih h' hpos' hlen (some c)
      · rw [List.filter_cons_of_neg (by simpa using hfit), if_neg fun hboth => hfit hboth.1]
        exact ih h' hpos' hlen acc

lemma Rep.findFreeBlockFirstFit_eq (h : Rep s bs fs) (size : Nat) :
    s.findFreeBlockFirstFit size = some ((firstFit s.getSize size s.frees).getD 0) := by
  rw [State.findFreeBlockFirstFit, h.freeHead_eq, h.frees_eq]
  exact @Rep.firstFitFrom_eq _ _ [] _ _ _ h (h.length_lt h.nodup h.sub)

lemma Rep.findFreeBlockBestFit_eq (h : Rep s bs fs) (size : Nat) :
    s.findFreeBlockBestFit size = some ((bestFit s.getSize size s.frees).getD 0) := by
  rw [State.findFreeBlockBestFit, h.freeHead_eq, h.frees_eq]
  exact @Rep.bestFitFrom_eq _ _ [] _ _ _ h (h.length_lt h.nodup h.sub) none

lemma Rep.findFreeBlockWorstFit_eq (h : Rep s bs fs) (hpos : ∀ x ∈ fs, 0 < s.getSize x)
    (size : Nat) :
    s.findFreeBlockWorstFit size = some ((worstFit s.getSize size s.frees).getD 0) := by
  rw [State.findFreeBlockWorstFit, h.freeHead_eq, h.frees_eq]
  exact @Rep.worstFitFrom_eq _ _ [] _ _ _ h hpos (h.length_lt h.nodup h.sub) none

end Searches

/-! ### Adding to the free list -/

section Links

variable {s s' : State} {fs fr : List Nat} {a q k : Nat}

/-- From each node of the list the next one is reached. -/
def Linked (next : Nat → Nat) (fs : List Nat) : Prop :=
  ∀ l x r, fs = l ++ x :: r → x ≠ 0 ∧ next x = r.headD 0

lemma Rep.linked {bs : List Block} (h : Rep s bs fs) : Linked s.nextFree fs := by
  rintro l x r rfl
  exact ⟨h.ne_zero_of_free (by simp), h.nextFree_eq⟩

lemma linked_cons {next : Nat → Nat} {x : Nat} :
    Linked next (x :: fs) ↔ (x ≠ 0 ∧ next x = fs.headD 0) ∧ Linked next fs := by
  constructor
  · intro h
    exact ⟨h [] x fs rfl, fun l y r hfs => h (x :: l) y r (by rw [hfs, List.cons_append])⟩
  · rintro ⟨hx, h⟩ l y r hfs
    cases l with
    | nil =>
      cases hfs
      exact hx
    | cons z l =>
      exact h l y r (List.cons.inj hfs).2

lemma linked_nil (next : Nat → Nat) : Linked next [] := by
  intro l x r h
  simp at h

/-- A node at the end: only the link of the node before it is new. -/
lemma Linked.snoc {next next' : Nat → Nat} {k : List Nat} {z : Nat} (h : Linked next (k ++ [z]))
    (hkeep : ∀ x ∈ k, next' x = next x) (hz : next' z = q) (hq : q ≠ 0) (hend : next' q = 0) :
    Linked next' (k ++ [z] ++ [q]) := by
  induction k with
  | nil =>
    obtain ⟨⟨hz0, -⟩, -⟩ := linked_cons.mp h
    exact linked_cons.mpr ⟨⟨hz0, hz⟩, linked_cons.mpr ⟨⟨hq, hend⟩, linked_nil next'⟩⟩
  | cons y k ih =>
    obtain ⟨⟨hy0, hy⟩, hrest⟩ := linked_cons.mp h
    refine linked_cons.mpr ⟨⟨hy0, ?_⟩, ih hrest fun x hx => hkeep x (List.mem_cons_of_mem y hx)⟩
    rw [hkeep y List.mem_cons_self, hy]
    cases k <;> rfl

lemma Linked.freeListLast (h : Linked s.nextFree (a :: fr)) (hk : fr.length < k) :
    s.freeListLast k a = some (fr.getLastD a) := by
  induction k generalizing a fr with
  | zero => exact absurd hk (Nat.not_lt_zero _)
  | succ k ih =>
    obtain ⟨⟨-, hnext⟩, hrest⟩ := linked_cons.mp h
    rw [State.freeListLast, hnext]
    cases fr with
    | nil => simp
    | cons y fr =>
      have hy := (linked_cons.mp hrest).1.1
      simp only [List.headD_cons, ne_eq, hy, not_false_eq_true, if_true, List.getLastD_cons]
      exact ih hrest (by simpa using hk)

lemma State.nextFree_put {off v x : Nat} (h : x + 40 ≤ a + off ∨ a + off + 8 ≤ x + 32) :
    (s.put a off v).nextFree x = s.nextFree x :=
  Mem.load64_store64_ne _ _ _ _ (by omega)

lemma State.nextFree_putNextFree {v : Nat} (hv : v < 2 ^ 64) : (s.putNextFree a v).nextFree a = v :=
  Mem.load64_store64_same _ _ _ hv

lemma State.sizeField_put {off v x : Nat} (h : x + 16 ≤ a + off ∨ a + off + 8 ≤ x + 8) :
    (s.put a off v).sizeField x = s.sizeField x :=
  Mem.load64_store64_ne _ _ _ _ (by omega)

/-- Adding a node to a free list whose nodes lie apart from it and from each other. -/
lemma State.freeListAdd_linked (h : Linked s.nextFree fs) (hhead : s.freeHead = fs.headD 0)
    (hlen : fs.length < addresses - 1) (hnd : fs.Nodup)
    (hapart : ∀ x ∈ fs, ∀ y ∈ fs, x ≠ y → x + 48 ≤ y ∨ y + 48 ≤ x) (hq : q ≠ 0 ∧ q < 2 ^ 63)
    (hsep : ∀ x ∈ fs, x + 48 ≤ q ∨ q + 48 ≤ x) :
    ∃ s', s.freeListAdd q = some s' ∧ s'.frees = fs ++ [q] ∧ s'.sizeField q = s.sizeField q := by
  set s₁ := (s.putNextFree q 0).putPrevFree q 0 with hs₁
  have hnext : ∀ x ∈ fs, s₁.nextFree x = s.nextFree x := by
    intro x hx
    have hx' := hsep x hx
    rw [hs₁, putPrevFree, nextFree_put (by omega), putNextFree, nextFree_put (by omega)]
  have hend : s₁.nextFree q = 0 := by
    rw [hs₁, putPrevFree, nextFree_put (by omega), nextFree_putNextFree (by norm_num)]
  have hsize : s₁.sizeField q = s.sizeField q := by
    rw [hs₁, putPrevFree, sizeField_put (by omega), putNextFree, sizeField_put (by omega)]
  have hlinked : Linked s₁.nextFree fs := by
    intro l x r hfs
    rw [hnext x (by simp [hfs])]
    exact h l x r hfs
  rw [State.freeListAdd, ← hs₁, show s₁.freeHead = fs.headD 0 from hhead]
  rcases List.eq_nil_or_concat fs with rfl | ⟨k, z, rfl⟩
  · refine ⟨_, rfl, ?_, hsize⟩
    have hw := @walk_eq s₁.nextFree [q] addresses (by norm_num [addresses])
      (linked_cons.mpr ⟨⟨hq.1, hend⟩, linked_nil _⟩)
    exact hw
  · rw [List.concat_eq_append] at *
    have hz : z ∈ k ++ [z] := by simp
    have hlen' : k.length + 1 < addresses - 1 := by simpa using hlen
    have hz0 : z ≠ 0 := (hlinked k z [] rfl).1
    have hzq := hsep z hz
    have hhead0 : (k ++ [z]).headD 0 ≠ 0 := by
      cases k with
      | nil => exact hz0
      | cons y k => exact (linked_cons.mp hlinked).1.1
    have hwalk : s₁.freeListLast addresses ((k ++ [z]).headD 0) = some z := by
      cases k with
      | nil => exact hlinked.freeListLast (by norm_num [addresses])
      | cons y k =>
        have hk : (k ++ [z]).length < addresses := by
          rw [List.length_append, List.length_singleton]
          rw [List.length_cons] at hlen'
          omega
        have hlast : s₁.freeListLast addresses y = some ((k ++ [z]).getLastD y) :=
          Linked.freeListLast hlinked hk
        simpa using hlast
    set s₂ := (s₁.putNextFree z q).putPrevFree q z with hs₂
    have hkeep : ∀ x ∈ k, s₂.nextFree x = s₁.nextFree x := by
      intro x hx
      have hxz : x ≠ z := by
        rintro rfl
        exact absurd hx (List.nodup_concat k x |>.mp (by simpa using hnd)).1
      have h1 := hsep x (List.mem_append_left _ hx)
      have h2 := hapart x (List.mem_append_left _ hx) z hz hxz
      rw [hs₂, putPrevFree, nextFree_put (by omega), putNextFree, nextFree_put (by omega)]
    have hlast : s₂.nextFree z = q := by
      rw [hs₂, putPrevFree, nextFree_put (by omega), nextFree_putNextFree (by omega)]
    have hend₂ : s₂.nextFree q = 0 := by
      rw [hs₂, putPrevFree, nextFree_put (by omega), putNextFree, nextFree_put (by omega), hend]
    have hsize₂ : s₂.sizeField q = s₁.sizeField q := by
      rw [hs₂, putPrevFree, sizeField_put (by omega), putNextFree, sizeField_put (by omega)]
    refine ⟨s₂, ?_, ?_, hsize₂.trans hsize⟩
    · rw [if_neg hhead0, hwalk]
      rfl
    · have hlinked₂ := hlinked.snoc hkeep hlast hq.1 hend₂
      have hlen₂ : (k ++ [z] ++ [q]).length < addresses := by
        simp only [List.length_append, List.length_singleton]
        omega
      have hw := walk_eq hlen₂ hlinked₂
      have hhead₂ : (k ++ [z] ++ [q]).headD 0 = (k ++ [z]).headD 0 := by cases k <;> rfl
      rw [hhead₂, ← hhead] at hw
      exact hw

end Links

/-! ### Cutting off what is left -/

section Cut

variable {s : State} {a q n total : Nat} {own : Nat → Prop}

lemma Keeps.put {x off v : Nat} (h : ∀ y, x + off ≤ y → y < x + off + 8 → own y) :
    Keeps own s (s.put x off v) :=
  ⟨rfl, rfl, Mem.Frame.store64 h⟩

lemma Keeps.setSize_own {x : Nat} (h : ∀ y, x + 8 ≤ y → y < x + 16 → own y) :
    Keeps own s (s.setSize x n) := by
  simp only [State.setSize]
  split
  · exact (Keeps.put h).trans (Keeps.put h)
  · exact Keeps.put h

lemma State.setSize_freeHead (s : State) (x n : Nat) : (s.setSize x n).freeHead = s.freeHead := by
  simp only [State.setSize]
  split <;> rfl

lemma Keeps.clearName_own {x : Nat} (h : ∀ y, x ≤ y → y < x + 8 → own y) :
    Keeps own s (s.clearName x) := by
  refine ⟨rfl, rfl, fun y hy => Mem.fill_apply_ne _ _ _ _ ?_⟩
  by_contra hin
  exact hy (h y (by omega) (by omega))

lemma State.nextBlock_keeps {s' : State} (hk : Keeps own s s')
    (h : ∀ y, a + 16 ≤ y → y < a + 24 → ¬ own y) : s'.nextBlock a = s.nextBlock a :=
  Mem.load64_congr fun y h1 h2 => hk.frame y (h y h1 (by omega))

/-- The bytes of the name, and of the size, of the header at `q`. -/
def NameOf (q y : Nat) : Prop := q ≤ y ∧ y < q + 8

def SizeOf (q y : Nat) : Prop := q + 8 ≤ y ∧ y < q + 16

/-- The state of `split` before the new header is linked. -/
def State.headed (s : State) (a total n : Nat) : State :=
  (((s.setSize a total).clearName (a + total)).setSize (a + total) n).setFree (a + total)

lemma State.headed_keeps (s : State) (a total n : Nat) :
    Keeps (fun y => SizeOf a y ∨ NameOf (a + total) y ∨ SizeOf (a + total) y) s
      (s.headed a total n) := by
  have k1 : Keeps (SizeOf a) s (s.setSize a total) := Keeps.setSize_own fun y h1 h2 => ⟨h1, h2⟩
  have k2 : Keeps (NameOf (a + total)) (s.setSize a total)
      ((s.setSize a total).clearName (a + total)) := Keeps.clearName_own fun y h1 h2 => ⟨h1, h2⟩
  have k3 : Keeps (SizeOf (a + total)) ((s.setSize a total).clearName (a + total))
      (s.headed a total n) :=
    (Keeps.setSize_own fun y h1 h2 => ⟨h1, h2⟩).trans (Keeps.put fun y h1 h2 => ⟨h1, h2⟩)
  exact ((k1.mono fun y hy => Or.inl hy).trans (k2.mono fun y hy => Or.inr (Or.inl hy))).trans
    (k3.mono fun y hy => Or.inr (Or.inr hy))

lemma State.headed_sizeField (hq : a + total ≠ 0) (hn : n < 2 ^ 32) (he : n % 2 = 0) :
    (s.headed a total n).sizeField (a + total) = n + 1 := by
  rw [sizeField_eq hq, headed, field_setSize_setFree (by simp [Apart]) hq hn he]
  simp

/-- The link of the block that is split stays, unless its header is cut in the middle: then the
cleared name of the new header has overwritten it. -/
lemma State.headed_nextBlock (s : State) (a n : Nat) (htotal : total % 16 = 0) :
    (s.headed a total n).nextBlock a = if total = 16 then 0 else s.nextBlock a := by
  by_cases h16 : total = 16
  · subst h16
    rw [if_pos rfl]
    have k : Keeps (SizeOf (a + 16)) ((s.setSize a 16).clearName (a + 16)) (s.headed a 16 n) :=
      (Keeps.setSize_own fun y h1 h2 => ⟨h1, h2⟩).trans (Keeps.put fun y h1 h2 => ⟨h1, h2⟩)
    rw [nextBlock_keeps k fun y h1 h2 hy => by unfold SizeOf at hy; omega]
    have hzero : ∀ i, i < 8 → ((s.setSize a 16).mem.fill (a + 16) 8 0) (a + 16 + i) = 0 :=
      fun i hi => Mem.fill_apply_in _ _ _ _ (by omega) (by omega)
    have h0 := hzero 0 (by norm_num)
    rw [Nat.add_zero] at h0
    simp only [nextBlock, get, clearName, Mem.load64, h0, hzero 1 (by norm_num),
      hzero 2 (by norm_num), hzero 3 (by norm_num), hzero 4 (by norm_num), hzero 5 (by norm_num),
      hzero 6 (by norm_num), hzero 7 (by norm_num)]
    rfl
  · rw [if_neg h16]
    refine nextBlock_keeps (s.headed_keeps a total n) fun y h1 h2 hy => ?_
    unfold SizeOf NameOf at hy
    omega

/-- The bytes that `split` of `a` writes, with `d` the block after it. -/
def CutBytes (a total d y : Nat) : Prop :=
  (a ≤ y ∧ y < a + total + 32) ∨ (d ≠ 0 ∧ d + 24 ≤ y ∧ y < d + 32)

/-- The back link of the block after, or `tail`. -/
lemma Keeps.back_link {d q x : Nat} (hx : x = 0 ∨ x = d) (hfar : d = 0 ∨ q + 16 ≤ d + 24)
    (hown : d ≠ 0 → ∀ y, d + 24 ≤ y → y < d + 32 → own y) :
    ∃ s', (if x ≠ 0 then s.putPrevBlock x q else { s with tail := q }) = s' ∧ Keeps own s s' ∧
      s'.freeHead = s.freeHead ∧ s'.sizeField q = s.sizeField q := by
  by_cases h0 : x = 0
  · rw [if_neg (not_not.mpr h0)]
    exact ⟨_, rfl, ⟨rfl, rfl, Mem.Frame.refl _ _⟩, rfl, rfl⟩
  · rw [if_pos h0]
    obtain rfl := hx.resolve_left h0
    have hfar' := hfar.resolve_left h0
    exact ⟨_, rfl, Keeps.put (hown h0), rfl, State.sizeField_put (by omega)⟩

/-- Linking the new header writes into it, into the block that is split and into the one after. -/
lemma State.linkAfter_cut {d : Nat} (htotal : total % 16 = 0)
    (hd : s.nextBlock a = 0 ∨ s.nextBlock a = d) (hafter : d = 0 ∨ a + total + 48 ≤ d) :
    Keeps (CutBytes a total d) s (s.linkAfter a (a + total)) ∧
      (s.linkAfter a (a + total)).freeHead = s.freeHead ∧
      (s.linkAfter a (a + total)).sizeField (a + total) = s.sizeField (a + total) := by
  obtain ⟨s₁, hs₁⟩ : ∃ s₁, s.putPrevBlock (a + total) a = s₁ := ⟨_, rfl⟩
  obtain ⟨s₂, hs₂⟩ : ∃ s₂, s₁.putNextBlock (a + total) (s₁.nextBlock a) = s₂ := ⟨_, rfl⟩
  have hnext₁ : s₁.nextBlock a = s.nextBlock a := by
    rw [← hs₁]
    exact Mem.load64_store64_ne _ _ _ _ (by omega)
  have hnext₂ : s₂.nextBlock a = s.nextBlock a := by
    rw [← hnext₁, ← hs₂]
    by_cases h0 : total = 0
    · subst h0
      exact Mem.load64_store64_same _ _ _ (Mem.load64_lt _ _)
    · exact Mem.load64_store64_ne _ _ _ _ (by omega)
  have k₂ : Keeps (CutBytes a total d) s s₂ := by
    rw [← hs₂, ← hs₁]
    exact (Keeps.put fun y h1 h2 => Or.inl ⟨by omega, by omega⟩).trans
      (Keeps.put fun y h1 h2 => Or.inl ⟨by omega, by omega⟩)
  have hsize₂ : s₂.sizeField (a + total) = s.sizeField (a + total) := by
    rw [← hs₂, putNextBlock, sizeField_put (by omega), ← hs₁, putPrevBlock,
      sizeField_put (by omega)]
  have hhead₂ : s₂.freeHead = s.freeHead := by
    rw [← hs₂, ← hs₁]
    rfl
  obtain ⟨s₃, hs₃, k₃, hhead₃, hsize₃⟩ := @Keeps.back_link s₂ (CutBytes a total d) _
    (a + total) _ hd (by omega) fun h0 y h1 h2 => Or.inr ⟨h0, h1, h2⟩
  have heq : s.linkAfter a (a + total) = s₃.putNextBlock a (a + total) := by
    rw [← hs₃, ← hnext₂, ← hs₂, ← hs₁]
    rfl
  rw [heq]
  refine ⟨(k₂.trans k₃).trans (Keeps.put fun y h1 h2 => Or.inl ⟨by omega, by omega⟩), ?_, ?_⟩
  · exact hhead₃.trans hhead₂
  · rw [putNextBlock, sizeField_put (by omega), hsize₃, hsize₂]

/-- `split` of a block that is large enough. The part that stays need not have room for a header. -/
lemma State.split_cut (ha : a ≠ 0) (htotal : total % 16 = 0) (hle : total + 48 ≤ s.getSize a)
    (hsize : s.getSize a % 2 = 0 ∧ s.getSize a < 2 ^ 31)
    (hafter : s.nextBlock a = 0 ∨ a + total + 48 ≤ s.nextBlock a) :
    ∃ s', s.split a total = (s', a + total) ∧
      Keeps (CutBytes a total (s.nextBlock a)) s s' ∧ s'.freeHead = s.freeHead ∧
      s'.sizeField (a + total) = s.getSize a - total + 1 := by
  have hn : u32 (s.getSize a + 2 ^ 32 - total) = s.getSize a - total := by
    unfold u32
    omega
  have hmin : ¬ s.getSize a < u32 (total + memBlockSize + 16) := by
    unfold u32 memBlockSize
    omega
  set t := s.headed a total (s.getSize a - total) with ht
  have heq : s.split a total = (t.linkAfter a (a + total), a + total) := by
    simp only [split, if_neg ha, if_neg hmin, hn]
    rfl
  have hnext : t.nextBlock a = 0 ∨ t.nextBlock a = s.nextBlock a := by
    rw [ht, headed_nextBlock s a _ htotal]
    split
    · exact Or.inl rfl
    · exact Or.inr rfl
  obtain ⟨k, hhead, hfield⟩ := linkAfter_cut htotal hnext hafter
  have kt : Keeps (CutBytes a total (s.nextBlock a)) s t := by
    refine (s.headed_keeps a total _).mono fun y hy => Or.inl ?_
    unfold SizeOf NameOf at hy
    omega
  refine ⟨_, heq, kt.trans k, ?_, ?_⟩
  · rw [hhead, ht, headed]
    show ((State.setSize _ _ _)).freeHead = _
    rw [setSize_freeHead]
    exact setSize_freeHead s a total
  · rw [hfield, ht, headed_sizeField (by omega) (by omega) (by omega)]

end Cut

/-! ### Reusing a block -/

section Reuse

variable {base a total size : Nat} {s s' : State} {h : Heap}

/-- `malloc` takes the free block `a` for `total` bytes: if 48 bytes are left or more, the block is
split and what is left is a free block of its own, at the end of the free list; otherwise the block
stays whole. -/
structure Reused (s : State) (a total : Nat) (s' : State) : Prop where
  split : total + 48 ≤ s.getSize a →
    (((s.setUsed a).freeListRemove a).split a total).2 = a + total ∧
      s'.frees = s.frees.erase a ++ [a + total] ∧ s'.isFree (a + total) = true ∧
      s'.getSize (a + total) = s.getSize a - total
  whole : s.getSize a < total + 48 →
    (((s.setUsed a).freeListRemove a).split a total).2 = 0 ∧
      s'.frees = s.frees.erase a ∧ s'.isFree a = false ∧ s'.getSize a = s.getSize a

lemma State.isFree_of_word {n : Nat} (hw : s.sizeField a = n + 1) (he : n % 2 = 0) :
    s.isFree a = true := by
  unfold State.isFree
  rw [hw, Nat.and_one_is_mod]
  simp
  omega

lemma State.getSize_of_word {n : Nat} (hw : s.sizeField a = n + 1) (he : n % 2 = 0)
    (hn : n < 2 ^ 32) : s.getSize a = n := by
  unfold State.getSize u32
  rw [hw, and_mask_eq _ (by omega)]
  omega

/-- Two nodes of the heap are one or lie apart. -/
lemma Rep.far {bs : List Block} {fs : List Nat} (hr : Rep s bs fs) {x y : Nat} (hx : x ∈ addrs bs)
    (hy : y ∈ addrs bs) (hne : x ≠ y) : x + 48 ≤ y ∨ y + 48 ≤ x := by
  obtain ⟨b, hb, rfl⟩ := List.mem_map.mp hx
  obtain ⟨c, hc, rfl⟩ := List.mem_map.mp hy
  have h1 := hr.ne_zero hb
  have h2 := hr.ne_zero hc
  rcases hr.apart (mem_addrs hb) (mem_addrs hc) with h | h | h | h
  · exact absurd h h1
  · exact absurd h h2
  · exact absurd h hne
  · exact h

/-- Cutting `total` bytes off a block in use, even where no header fits into them. -/
lemma Holds.splitOff_cut {l r : List Block} {c : Block} {fs : List Nat} {brk : Nat}
    (hh : Holds base s ⟨l ++ c :: r, fs, brk⟩) (hused : c.free = false) (htotal : total % 16 = 0)
    (hle : total + 48 ≤ c.size) (hlen : fs.length < addresses - 1) :
    ∃ s', s.splitOff c.addr total = some s' ∧ (s.split c.addr total).2 = c.addr + total ∧
      s'.frees = fs ++ [c.addr + total] ∧ s'.isFree (c.addr + total) = true ∧
      s'.getSize (c.addr + total) = c.size - total := by
  have hc : c ∈ l ++ c :: r := by simp
  have hc0 := hh.rep.ne_zero hc
  have hsz := hh.rep.getSize_eq hc
  have heven := (hh.rep.fits c hc).1
  have hlt := hh.wf.size_lt hc
  have htop := hh.wf.addr_lt hc
  obtain ⟨hbefore, hafter, -⟩ := hh.wf.order_around
  -- the block after, where there is one
  have hnext := hh.rep.nextBlock_eq
  have hd : s.nextBlock c.addr = 0 ∨
      s.nextBlock c.addr ∈ addrs (l ++ c :: r) ∧ c.addr + c.size ≤ s.nextBlock c.addr := by
    rw [hnext]
    cases r with
    | nil => exact Or.inl rfl
    | cons d r => exact Or.inr ⟨by simp, hafter d List.mem_cons_self⟩
  -- a free node is the address of another block
  have hother : ∀ x ∈ fs, x ∈ addrs (l ++ c :: r) ∧ (x + 48 ≤ c.addr ∨ c.addr + c.size ≤ x) := by
    intro x hx
    have hmem := hh.rep.sub x hx
    refine ⟨hmem, ?_⟩
    obtain ⟨b, hb, rfl⟩ := List.mem_map.mp hmem
    rcases List.mem_append.mp hb with hb | hb
    · have h48 := (hh.wf.size b (by simp [hb])).2
      have hord := hbefore b hb
      exact Or.inl (by omega)
    · rcases List.mem_cons.mp hb with rfl | hb
      · have hfree := (hh.wf.marked b hc).mpr hx
        rw [hused] at hfree
        cases hfree
      · exact Or.inr (hafter b hb)
  obtain ⟨s₁, hs₁, k₁, hhead₁, hword₁⟩ := State.split_cut hc0 htotal (by rw [hsz]; exact hle)
    (by rw [hsz]; exact ⟨heven, hlt⟩) (hd.imp id fun h => by omega)
  have hnext₁ : ∀ x ∈ fs, s₁.nextFree x = s.nextFree x := by
    intro x hx
    obtain ⟨hmem, hfar⟩ := hother x hx
    refine Mem.load64_congr fun y h1 h2 => k₁.frame y ?_
    rintro (⟨h3, h4⟩ | ⟨hd0, h3, h4⟩)
    · omega
    · by_cases hxd : x = s.nextBlock c.addr
      · omega
      · have := hh.rep.far hmem (hd.resolve_left hd0).1 hxd
        omega
  have hlinked : Linked s₁.nextFree fs := by
    intro k x m hfs
    rw [hnext₁ x (by simp [hfs])]
    exact hh.rep.linked k x m hfs
  obtain ⟨s', hs', hfrees, hword⟩ := State.freeListAdd_linked hlinked
    (hhead₁.trans hh.rep.freeHead_eq) hlen hh.rep.nodup
    (fun x hx y hy hne => hh.rep.far (hother x hx).1 (hother y hy).1 hne)
    (q := c.addr + total) ⟨by omega, by omega⟩ fun x hx => by have := (hother x hx).2; omega
  rw [hword₁, hsz] at hword
  refine ⟨s', ?_, ?_, hfrees, State.isFree_of_word hword (by omega),
    State.getSize_of_word hword (by omega) (by omega)⟩
  · have hq : c.addr + total ≠ 0 := by omega
    simp only [State.splitOff, hs₁, ne_eq, hq, not_false_eq_true, if_true, hs']
  · rw [hs₁]

/-- Whatever the total is, `malloc` splits the block if it is larger by 48 bytes or more. -/
lemma Holds.reused (hh : Holds base s h) (ha : a ∈ h.frees) (htotal : total % 16 = 0)
    (hle : total ≤ s.getSize a) :
    ∃ s', ((s.setUsed a).freeListRemove a).splitOff a total = some s' ∧ Reused s a total s' := by
  have hlen := hh.rep.length_lt hh.rep.nodup hh.rep.sub
  have hfrees := hh.rep.frees_eq
  obtain ⟨l, c, r, fl, fr, hheap, rfl, -⟩ := hh.mem_free ha
  generalize h.brk = brk at hheap
  subst hheap
  have hsz := hh.rep.getSize_eq (c := c) (by simp)
  have hm := hh.use (F := [c.addr]) (by simp)
  have hsz₁ := hm.holds.rep.getSize_eq (c := c.use) (by simp)
  have hfree₁ := hm.holds.rep.isFree_eq (c := c.use) (by simp)
  have herase : s.frees.erase c.addr = fl ++ fr := by
    rw [hfrees]
    have hnot : c.addr ∉ fl := by
      have hnd := List.nodup_middle.mp hh.rep.nodup
      exact fun hin => (List.nodup_cons.mp hnd).1 (List.mem_append_left _ hin)
    rw [List.erase_append_right _ hnot, List.erase_cons_head]
  rw [hsz] at hle
  by_cases hbig : total + 48 ≤ c.size
  · have hlen₁ : (fl ++ fr).length < addresses - 1 := by
      simp only [List.length_append, List.length_cons] at hlen ⊢
      omega
    obtain ⟨s', hs', hq, hf, hfree, hsize⟩ :=
      hm.holds.splitOff_cut (c := c.use) rfl htotal hbig hlen₁
    refine ⟨s', hs', fun _ => ⟨hq, ?_, hfree, ?_⟩, fun hsmall => ?_⟩
    · rw [hf, herase]
      rfl
    · rw [hsz]
      exact hsize
    · rw [hsz] at hsmall
      omega
  · have hsmall : c.size < total + 48 := by omega
    have hsplit := hm.holds.split_small (c := c.use) (by simp) hle hsmall
    refine ⟨(s.setUsed c.addr).freeListRemove c.addr, ?_, fun hlarge => ?_,
      fun _ => ⟨?_, ?_, ?_, ?_⟩⟩
    · have hs : ((s.setUsed c.addr).freeListRemove c.addr).split c.addr total = (_, 0) := hsplit
      simp [State.splitOff, hs]
    · rw [hsz] at hlarge
      omega
    · exact congrArg Prod.snd hsplit
    · rw [hm.holds.rep.frees_eq, herase]
    · exact hfree₁
    · rw [hsz]
      exact hsz₁

/-- What the three searches return on a heap as the allocator leaves it, and what `malloc` does with
the block that the current one finds, for every request. -/
theorem fit_policies (hh : Holds base s h) (size : Nat) :
    s.findFreeBlockFirstFit size = some ((firstFit s.getSize size s.frees).getD 0) ∧
      s.findFreeBlockBestFit size = some ((bestFit s.getSize size s.frees).getD 0) ∧
      s.findFreeBlockWorstFit size = some ((worstFit s.getSize size s.frees).getD 0) ∧
      (s.findFreeBlockFirstFit size = some 0 ↔ ∀ a ∈ s.frees, s.getSize a < size) ∧
      (s.findFreeBlockBestFit size = some 0 ↔ ∀ a ∈ s.frees, s.getSize a < size) ∧
      (s.findFreeBlockWorstFit size = some 0 ↔ ∀ a ∈ s.frees, s.getSize a < size) ∧
      ∀ a grant, size ≠ 0 → s.reuseBlock (u32 (memBlockSize + alignSize size)) = some a → a ≠ 0 →
        ∃ s', s.malloc grant size = some (s', a + memBlockSize) ∧
          Reused s a (u32 (memBlockSize + alignSize size)) s' := by
  have hpos : ∀ x ∈ h.frees, 0 < s.getSize x := by
    intro x hx
    obtain ⟨c, hc, rfl⟩ := List.mem_map.mp (hh.rep.sub x hx)
    rw [hh.rep.getSize_eq hc]
    have := (hh.wf.size c hc).2
    omega
  have hfirst := hh.rep.findFreeBlockFirstFit_eq size
  have hbest := hh.rep.findFreeBlockBestFit_eq size
  have hworst := hh.rep.findFreeBlockWorstFit_eq hpos size
  -- NULL is no node, so it is returned only where nothing is chosen
  have hnull : ∀ o : Option Nat, (∀ x, o = some x → x ∈ s.frees) →
      (some (o.getD 0) = some 0 ↔ o = none) := by
    intro o ho
    cases o with
    | none => simp
    | some x =>
      have hx := ho x rfl
      rw [hh.rep.frees_eq] at hx
      simpa using hh.rep.ne_zero_of_free hx
  refine ⟨hfirst, hbest, hworst, ?_, ?_, ?_, ?_⟩
  · rw [hfirst, hnull _ fun x hx => firstFit_mem hx, firstFit_eq_none]
  · rw [hbest, hnull _ fun x hx => bestFit_mem hx, bestFit_eq_none]
  · rw [hworst, hnull _ fun x hx => worstFit_mem hx, worstFit_eq_none]
  · intro a grant hsize ha ha0
    obtain ⟨b, hb, hfound⟩ := hh.rep.reuseBlock_found (u32 (memBlockSize + alignSize size))
    obtain rfl : a = b := Option.some.inj (ha.symm.trans hb)
    obtain ⟨hmem, hle⟩ := hfound.resolve_left ha0
    have htotal : u32 (memBlockSize + alignSize size) % 16 = 0 := by
      unfold u32 memBlockSize alignSize u32
      split <;> omega
    obtain ⟨s', hs', hreused⟩ := hh.reused hmem htotal hle
    refine ⟨s', ?_, hreused⟩
    rw [State.malloc, if_neg hsize]
    simp only [ha, Option.bind_eq_bind, Option.bind_some, ne_eq, ha0, not_false_eq_true, if_true,
      hs']

/-- Five free blocks of three sizes. First fit takes the oldest, best fit the first of the two
smallest, worst fit the first of the two largest, and `malloc` under worst fit splits it. -/
theorem fit_policies_tie : ∃ as p s', Steps (Calls 20480) (Process.init 20480) as p ∧
    p.s.frees.map p.s.getSize = [336, 240, 432, 240, 432] ∧
    p.s.findFreeBlockFirstFit 144 = some 20480 ∧ p.s.findFreeBlockBestFit 144 = some 20864 ∧
    p.s.findFreeBlockWorstFit 144 = some 21152 ∧ p.s.malloc true 100 = some (s', 21184) ∧
    s'.frees = [20480, 20864, 21632, 21920, 21296] ∧ s'.getSize 21296 = 288 := by
  have hsome : (List.foldlM (Process.call 20480) (Process.init 20480)
      [.malloc 300 true, .malloc 16 true, .malloc 200 true, .malloc 16 true, .malloc 400 true,
        .malloc 16 true, .malloc 200 true, .malloc 16 true, .malloc 400 true, .malloc 16 true,
        .malloc 2144 true, .free 20512 true, .free 20896 true, .free 21184 true,
        .free 21664 true, .free 21952 true, .mallocSetfsm 2]).any
      (fun p => p.s.frees = [20480, 20864, 21152, 21632, 21920] ∧
        p.s.frees.map p.s.getSize = [336, 240, 432, 240, 432] ∧ p.s.currentFsm = 2 ∧
        firstFit p.s.getSize 144 p.s.frees = some 20480 ∧
        bestFit p.s.getSize 144 p.s.frees = some 20864 ∧
        worstFit p.s.getSize 144 p.s.frees = some 21152) = true := by
    decide +kernel
  obtain ⟨p, hp, hbits⟩ := (Option.any_eq_true _ _).mp hsome
  rw [decide_eq_true_eq] at hbits
  obtain ⟨hfrees, hsizes, hfsm, hf, hb, hw⟩ := hbits
  have hrun := Steps.of_foldlM (fun _ _ _ => Process.call_calls) hp
  have hstart : Start 20480 (Process.init 20480) := Process.start_init (by decide) (by decide)
  obtain ⟨h, hg, -⟩ := Sound.of_run hstart hrun
  obtain ⟨hfirst, hbest, hworst, -⟩ := fit_policies hg.holds 144
  rw [hf] at hfirst
  rw [hb] at hbest
  rw [hw] at hworst
  have hreuse : p.s.reuseBlock 144 = some 21152 := by
    rw [State.reuseBlock, hfsm]
    exact hworst
  obtain ⟨s', hs', hreused⟩ := (fit_policies hg.holds 100).2.2.2.2.2.2 21152 true (by decide)
    hreuse (by decide)
  have hsize : p.s.getSize 21152 = 432 := by
    rw [hfrees] at hsizes
    simp only [List.map_cons, List.cons.injEq] at hsizes
    exact hsizes.2.2.1
  -- 432 bytes less the 144 that are asked for leave a block of 288
  obtain ⟨-, hfrees', -, hsize'⟩ := hreused.split (by rw [hsize]; decide)
  rw [hfrees] at hfrees'
  rw [hsize] at hsize'
  exact ⟨_, p, s', hrun, hsizes, hfirst, hbest, hworst, hs', hfrees', hsize'⟩

end Reuse

end FogOS.Umalloc
