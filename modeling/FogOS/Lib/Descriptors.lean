import Mathlib

/-!
# Programs that set up descriptors

A process has a table of descriptors, of which a new one is always the lowest that is free. A program closes and
duplicates descriptors, opens files, makes pipes and forks; what a descriptor refers to is named after the place
in the program where it was made, so that the table of a process can be computed without the other processes.
`Leads` is a judgement about every process that a program gives rise to, with one rule for each instruction.
-/

namespace Descriptors

variable {n : Nat} {α ι β γ ω : Type*}

/-- What the descriptors refer to. -/
abbrev Table (n : Nat) (α : Type*) := Fin n → Option α

/-! ### Tables -/

/-- The lowest descriptor that is free. -/
def lowest (T : Table n α) : Option (Fin n) := (List.finRange n).find? fun d => (T d).isNone

/-- Descriptor `d` is closed. -/
def shut (T : Table n α) (d : Nat) : Table n α := fun e => if e.val = d then none else T e

/-- Descriptor `d`, if there is such a descriptor. -/
def get (T : Table n α) (d : Nat) : Option α := if h : d < n then T ⟨d, h⟩ else none

/-- A new descriptor refers to `x`, if one is free. -/
def place (T : Table n α) (x : α) : Table n α := (lowest T).elim T fun e => Function.update T e (some x)

/-- Descriptor `d` is duplicated. -/
def copied (T : Table n α) (d : Nat) : Table n α := (get T d).elim T (place T)

lemma lowest_free {T : Table n α} {d : Fin n} (h : lowest T = some d) : T d = none := by
  simpa using List.find?_some h

lemma get_coe (T : Table n α) (d : Fin n) : get T d = T d := by
  simp [get]

lemma shut_self (T : Table n α) (d : Fin n) : shut T d d = none := by
  simp [shut]

lemma shut_of_ne (T : Table n α) {d : Nat} {e : Fin n} (h : e.val ≠ d) : shut T d e = T e := by
  simp [shut, h]

/-- A free descriptor with none free below it is the lowest one. -/
lemma lowest_eq {T : Table n α} {d : Fin n} (hfree : T d = none) (hbelow : ∀ e < d, T e ≠ none) : lowest T = some d := by
  rw [lowest, List.find?_eq_some_iff_getElem]
  refine ⟨by simp [hfree], d, by simp, by simp, ?_⟩
  intro j hj
  have hlt : (⟨j, hj.trans d.isLt⟩ : Fin n) < d := hj
  simpa [Option.isSome_iff_ne_none] using hbelow _ hlt

lemma place_eq {T : Table n α} {d : Fin n} (h : lowest T = some d) (x : α) : place T x = Function.update T d (some x) := by
  simp [place, h]

/-- Tables of which one is the image of the other have the same descriptors free. -/
lemma lowest_congr {α' : Type*} {T : Table n α} {T' : Table n α'} (h : ∀ d, (T d).isNone = (T' d).isNone) :
    lowest T = lowest T' := by
  simp only [lowest, h]

/-- Descriptor `z` is taken by one of two new ones, `x`, and both new ones are closed. -/
lemma plug {T : Table n α} {d e z : Fin n} {x y v : α} (hd : lowest T = some d) (he : lowest (Function.update T d (some x)) = some e)
    (hz : T z ≠ none) (hbelow : ∀ a < z, T a ≠ none) {c : Fin n}
    (hc : Function.update (Function.update T d (some x)) e (some y) c = some v) (hcd : c = d ∨ c = e) :
    shut (shut (copied (shut (Function.update (Function.update T d (some x)) e (some y)) z) c) d) e = Function.update T z (some v) := by
  have hfree := lowest_free hd
  have hne : e ≠ d := by
    rintro rfl
    have hbusy := lowest_free he
    simp at hbusy
  have hfree' : T e = none := by
    have hbusy := lowest_free he
    rwa [Function.update_of_ne hne] at hbusy
  have hzd : z ≠ d := fun h => hz (h ▸ hfree)
  have hze : z ≠ e := fun h => hz (h ▸ hfree')
  have hcz : c ≠ z := by
    rintro rfl
    exact hcd.elim hzd hze
  have hget : get (shut (Function.update (Function.update T d (some x)) e (some y)) z) c = some v := by
    rw [get_coe, shut_of_ne _ (Fin.val_ne_of_ne hcz), hc]
  have hlow : lowest (shut (Function.update (Function.update T d (some x)) e (some y)) z) = some z := by
    apply lowest_eq (shut_self _ _)
    intro a ha
    have had : a ≠ d := fun h => hbelow a ha (h ▸ hfree)
    have hae : a ≠ e := fun h => hbelow a ha (h ▸ hfree')
    rw [shut_of_ne _ (Fin.val_ne_of_ne ha.ne), Function.update_of_ne hae, Function.update_of_ne had]
    exact hbelow a ha
  rw [copied, hget, Option.elim_some, place_eq hlow]
  ext a
  by_cases hae : a = e
  · rw [hae, shut_self, Function.update_of_ne hze.symm, hfree']
  rw [shut_of_ne _ (Fin.val_ne_of_ne hae)]
  by_cases had : a = d
  · rw [had, shut_self, Function.update_of_ne hzd.symm, hfree]
  rw [shut_of_ne _ (Fin.val_ne_of_ne had)]
  by_cases haz : a = z
  · simp [haz]
  · rw [Function.update_of_ne haz, Function.update_of_ne haz, shut_of_ne _ (Fin.val_ne_of_ne haz), Function.update_of_ne hae,
      Function.update_of_ne had]

/-- Both new descriptors are closed again. -/
lemma unplug {T : Table n α} {d e : Fin n} {x y : α} (hd : lowest T = some d) (he : lowest (Function.update T d (some x)) = some e) :
    shut (shut (Function.update (Function.update T d (some x)) e (some y)) d) e = T := by
  have hfree := lowest_free hd
  have hbusy := lowest_free he
  ext a
  by_cases hae : a = e
  · by_cases hed : e = d
    · simp [hed] at hbusy
    · rw [Function.update_of_ne hed] at hbusy
      rw [hae, shut_self, hbusy]
  rw [shut_of_ne _ (Fin.val_ne_of_ne hae)]
  by_cases had : a = d
  · rw [had, shut_self, hfree]
  · rw [shut_of_ne _ (Fin.val_ne_of_ne had), Function.update_of_ne hae, Function.update_of_ne had]

/-- Descriptor `z` is closed, and opened anew. -/
lemma reopen {T : Table n α} {d : Fin n} {z : Nat} {x : α} (hlt : z < n → ∀ a : Fin n, a.val ≤ z → T a ≠ none) (hz : z < n)
    (hd : lowest (shut T z) = some d) : d.val = z ∧ Function.update (shut T z) d (some x) = Function.update T d (some x) := by
  have hlow : lowest (shut T z) = some ⟨z, hz⟩ := by
    apply lowest_eq (d := ⟨z, hz⟩)
    · exact shut_self T ⟨z, hz⟩
    · intro a ha
      have hval : a.val < z := ha
      rw [shut_of_ne _ hval.ne]
      exact hlt hz a hval.le
  obtain rfl : (⟨z, hz⟩ : Fin n) = d := Option.some.inj (hlow.symm.trans hd)
  refine ⟨rfl, ?_⟩
  ext a
  by_cases ha : a = ⟨z, hz⟩
  · simp [ha]
  · have hval : a.val ≠ z := fun h => ha (Fin.ext h)
    rw [Function.update_of_ne ha, Function.update_of_ne ha, shut_of_ne _ hval]

/-! ### Programs -/

/-- What a descriptor can refer to: something that was there before, a file, or one end of a pipe. -/
inductive Source (ω ι : Type*)
  | old (x : ω)
  | opened (p : ι)
  | stem (p : ι) (w : Bool)
  deriving DecidableEq

/-- The calls of a program, each with what follows it. A call at which something is made carries its place `p`. -/
inductive Prog (ι β γ : Type*)
  | exit (status : Int)
  | exec (p : ι) (args : β) (k : Prog ι β γ)
  | close (d : Nat) (k : Prog ι β γ)
  | dup (d : Nat) (k : Prog ι β γ)
  | open (p : ι) (file : γ) (k fail : Prog ι β γ)
  | pipe (p : ι) (k : Nat → Nat → Prog ι β γ) (fail : Prog ι β γ)
  | fork (child parent fail : Prog ι β γ)
  | wait (p : ι) (k : Prog ι β γ)

/-- A process: its program, and its table. -/
structure Config (n : Nat) (ω ι β γ : Type*) where
  prog : Prog ι β γ
  table : Table n (Source ω ι)

/-- What can become of a process in one call. A fork leads to the child and to the parent. -/
inductive Next : Config n ω ι β γ → Config n ω ι β γ → Prop
  | failed {p : ι} {args : β} {k : Prog ι β γ} {T : Table n (Source ω ι)} : Next ⟨.exec p args k, T⟩ ⟨k, T⟩
  | close {d : Nat} {k : Prog ι β γ} {T : Table n (Source ω ι)} : Next ⟨.close d k, T⟩ ⟨k, shut T d⟩
  | dup {d : Nat} {k : Prog ι β γ} {T : Table n (Source ω ι)} : Next ⟨.dup d k, T⟩ ⟨k, copied T d⟩
  | opened {p : ι} {file : γ} {k fail : Prog ι β γ} {T : Table n (Source ω ι)} {d : Fin n} (h : lowest T = some d) :
      Next ⟨.open p file k fail, T⟩ ⟨k, Function.update T d (some (.opened p))⟩
  | notOpened {p : ι} {file : γ} {k fail : Prog ι β γ} {T : Table n (Source ω ι)} : Next ⟨.open p file k fail, T⟩ ⟨fail, T⟩
  | piped {p : ι} {k : Nat → Nat → Prog ι β γ} {fail : Prog ι β γ} {T : Table n (Source ω ι)} {d e : Fin n} (hd : lowest T = some d)
      (he : lowest (Function.update T d (some (.stem p false))) = some e) :
      Next ⟨.pipe p k fail, T⟩ ⟨k d e, Function.update (Function.update T d (some (.stem p false))) e (some (.stem p true))⟩
  | notPiped {p : ι} {k : Nat → Nat → Prog ι β γ} {fail : Prog ι β γ} {T : Table n (Source ω ι)} :
      Next ⟨.pipe p k fail, T⟩ ⟨fail, T⟩
  | child {child parent fail : Prog ι β γ} {T : Table n (Source ω ι)} : Next ⟨.fork child parent fail, T⟩ ⟨child, T⟩
  | parent {child parent fail : Prog ι β γ} {T : Table n (Source ω ι)} : Next ⟨.fork child parent fail, T⟩ ⟨parent, T⟩
  | notForked {child parent fail : Prog ι β γ} {T : Table n (Source ω ι)} : Next ⟨.fork child parent fail, T⟩ ⟨fail, T⟩
  | waited {p : ι} {k : Prog ι β γ} {T : Table n (Source ω ι)} : Next ⟨.wait p k, T⟩ ⟨k, T⟩

/-- Every process that comes out of `c` has the property. -/
def Leads (Q : Config n ω ι β γ → Prop) (c : Config n ω ι β γ) : Prop := ∀ c', Relation.ReflTransGen Next c c' → Q c'

namespace Leads

variable {Q Q' : Config n ω ι β γ → Prop} {c c' : Config n ω ι β γ} {T : Table n (Source ω ι)} {k fail child parent : Prog ι β γ}
  {p : ι} {args : β} {file : γ} {d : Nat}

lemma next (h : Leads Q c) (hc : Next c c') : Leads Q c' := fun _ hreach => h _ (.head hc hreach)

lemma mono (h : Leads Q c) (hQ : ∀ c, Q c → Q' c) : Leads Q' c := fun _ hreach => hQ _ (h _ hreach)

/-- The property holds at once and after every call. -/
lemma of_next (h : Q c) (hnext : ∀ c', Next c c' → Leads Q c') : Leads Q c := by
  intro c' hreach
  rcases Relation.ReflTransGen.cases_head hreach with rfl | ⟨c₁, hc₁, hreach⟩
  · exact h
  · exact hnext c₁ hc₁ c' hreach

lemma exit {status : Int} (h : Q ⟨.exit status, T⟩) : Leads Q ⟨.exit status, T⟩ := by
  apply of_next h
  intro c' hc
  cases hc

lemma exec (h : Q ⟨.exec p args k, T⟩) (hk : Leads Q ⟨k, T⟩) : Leads Q ⟨.exec p args k, T⟩ := by
  apply of_next h
  intro c' hc
  cases hc
  exact hk

lemma close (h : Q ⟨.close d k, T⟩) (hk : Leads Q ⟨k, shut T d⟩) : Leads Q ⟨.close d k, T⟩ := by
  apply of_next h
  intro c' hc
  cases hc
  exact hk

lemma dup (h : Q ⟨.dup d k, T⟩) (hk : Leads Q ⟨k, copied T d⟩) : Leads Q ⟨.dup d k, T⟩ := by
  apply of_next h
  intro c' hc
  cases hc
  exact hk

lemma «open» (h : Q ⟨.open p file k fail, T⟩)
    (hk : ∀ e, lowest T = some e → Leads Q ⟨k, Function.update T e (some (.opened p))⟩) (hfail : Leads Q ⟨fail, T⟩) :
    Leads Q ⟨.open p file k fail, T⟩ := by
  apply of_next h
  intro c' hc
  cases hc with
  | opened he => exact hk _ he
  | notOpened => exact hfail

lemma pipe {k : Nat → Nat → Prog ι β γ} (h : Q ⟨.pipe p k fail, T⟩)
    (hk : ∀ d e : Fin n, lowest T = some d → lowest (Function.update T d (some (.stem p false))) = some e →
      Leads Q ⟨k d e, Function.update (Function.update T d (some (.stem p false))) e (some (.stem p true))⟩)
    (hfail : Leads Q ⟨fail, T⟩) : Leads Q ⟨.pipe p k fail, T⟩ := by
  apply of_next h
  intro c' hc
  cases hc with
  | piped hd he => exact hk _ _ hd he
  | notPiped => exact hfail

lemma fork (h : Q ⟨.fork child parent fail, T⟩) (hchild : Leads Q ⟨child, T⟩) (hparent : Leads Q ⟨parent, T⟩)
    (hfail : Leads Q ⟨fail, T⟩) : Leads Q ⟨.fork child parent fail, T⟩ := by
  apply of_next h
  intro c' hc
  cases hc with
  | child => exact hchild
  | parent => exact hparent
  | notForked => exact hfail

lemma wait (h : Q ⟨.wait p k, T⟩) (hk : Leads Q ⟨k, T⟩) : Leads Q ⟨.wait p k, T⟩ := by
  apply of_next h
  intro c' hc
  cases hc
  exact hk

end Leads

/-! ### Each place once -/

/-- The places at which a program, or a child of it, may make something. -/
def uses : Prog ι β γ → Set ι
  | .exit _ => ∅
  | .exec _ _ k => uses k
  | .close _ k => uses k
  | .dup _ k => uses k
  | .open p _ k fail => {p} ∪ (uses k ∪ uses fail)
  | .pipe p k fail => {p} ∪ ((⋃ d, ⋃ e, uses (k d e)) ∪ uses fail)
  | .fork child parent fail => uses child ∪ uses parent ∪ uses fail
  | .wait _ k => uses k

/-- At no place does the program, or a child of it, make something twice. -/
def Linear : Prog ι β γ → Prop
  | .exit _ => True
  | .exec _ _ k => Linear k
  | .close _ k => Linear k
  | .dup _ k => Linear k
  | .open p _ k fail => p ∉ uses k ∧ Linear k ∧ Linear fail
  | .pipe p k fail => (∀ d e, p ∉ uses (k d e) ∧ Linear (k d e)) ∧ Linear fail
  | .fork child parent fail => Disjoint (uses child) (uses parent) ∧ Linear child ∧ Linear parent ∧ Linear fail
  | .wait _ k => Linear k

end Descriptors
