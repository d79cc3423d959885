import FogOS.Shell.Parser
import FogOS.Kernel.Basic
import FogOS.Lib.Descriptors

/-!
# Running a command

`runcmd` of `user/sh.c`. The parts of a command are named by the way that leads to them, and the processes of the
shell are followed by `Descriptors`: every one of them that waits, or that executes a program, has the input and the
output that the pipes and redirections around its part of the command give it, and no other descriptor that the
shell has made.
-/

namespace FogOS.Shell.Sh

open Descriptors FogOS.Kernel

/-- The way from a command to one of its parts; the right part of two is `true`. -/
abbrev Place := List Bool

abbrev Code := Prog Place (List (Nat × Nat)) Redir

/-- `fork1`, which panics when it fails. -/
def fork1 (child parent : Code) : Code := .fork child parent (.exit 1)

/-- `runcmd` of the part at `p`. -/
def runcmd (p : Place) : Cmd → Code
  | .exec args => if args = [] then .exit 1 else .exec p args (.exit 0)
  | .redir cmd r => .close r.fd (.open p r (runcmd (p ++ [false]) cmd) (.exit 1))
  | .list left right => fork1 (runcmd (p ++ [false]) left) (.wait p (runcmd (p ++ [true]) right))
  | .pipe left right =>
    .pipe p (fun p0 p1 =>
      fork1 (.close 1 (.dup p1 (.close p0 (.close p1 (runcmd (p ++ [false]) left)))))
        (fork1 (.close 0 (.dup p0 (.close p0 (.close p1 (runcmd (p ++ [true]) right)))))
          (.close p0 (.close p1 (.wait p (.wait p (.exit 0)))))))
      (.exit 1)
  | .back cmd => fork1 (runcmd (p ++ [false]) cmd) (.exit 0)

/-- Redirections are of descriptor 0 or 1. -/
def Cmd.Standard : Cmd → Prop
  | .exec _ => True
  | .redir cmd r => r.fd ≤ 1 ∧ cmd.Standard
  | .pipe left right => left.Standard ∧ right.Standard
  | .list left right => left.Standard ∧ right.Standard
  | .back cmd => cmd.Standard

lemma wrap_standard {c : Cmd} {redirs : List Redir} (hc : c.Standard) (hr : ∀ r ∈ redirs, r.fd ≤ 1) : (wrap c redirs).Standard := by
  induction redirs generalizing c with
  | nil => exact hc
  | cons r redirs ih =>
    apply ih
    · exact ⟨hr r List.mem_cons_self, hc⟩
    · intro r' hr'
      exact hr r' (List.mem_cons_of_mem _ hr')

lemma redircmd_fd {tok : Kind} {file efile : Nat} {r : Redir} (h : redircmd tok file efile = some r) : r.fd ≤ 1 := by
  simp only [redircmd] at h
  split at h <;> cases h <;> simp

section Parser

variable {σ : Type} {S : Scanner σ} {s s' : σ} {redirs redirs' : List Redir} {k : Nat}

lemma parseredirs_fd (hr : ∀ r ∈ redirs, r.fd ≤ 1) (h : parseredirs S k redirs s = .ok (redirs', s')) : ∀ r ∈ redirs', r.fd ≤ 1 := by
  induction k generalizing redirs s with
  | zero => cases h
  | succ k ih =>
    simp only [parseredirs] at h
    obtain ⟨⟨more, s₁⟩, -, h⟩ := bind_ok h
    dsimp only at h
    split at h
    · obtain ⟨⟨tok, s₂⟩, -, h⟩ := bind_ok h
      obtain ⟨⟨file, s₃⟩, -, h⟩ := bind_ok h
      dsimp only at h
      split at h
      · cases h
      · apply ih _ h
        intro r hmem
        rcases List.mem_append.mp hmem with hold | hnew
        · exact hr r hold
        · exact redircmd_fd (Option.mem_toList.mp hnew)
    · cases h
      exact hr

lemma parseargs_fd {args args' : List (Nat × Nat)} (hr : ∀ r ∈ redirs, r.fd ≤ 1)
    (h : parseargs S k args redirs s = .ok ((args', redirs'), s')) : ∀ r ∈ redirs', r.fd ≤ 1 := by
  induction k generalizing args redirs s with
  | zero => cases h
  | succ k ih =>
    simp only [parseargs] at h
    obtain ⟨⟨done, s₁⟩, -, h⟩ := bind_ok h
    dsimp only at h
    split at h
    · cases h
      exact hr
    obtain ⟨⟨tok, s₂⟩, -, h⟩ := bind_ok h
    dsimp only at h
    split at h
    · cases h
      exact hr
    split at h
    · cases h
    split at h
    · cases h
    · obtain ⟨⟨redirs₁, s₃⟩, hredirs, h⟩ := bind_ok h
      exact ih (parseredirs_fd hr hredirs) h

lemma parsebacks_standard {c c' : Cmd} (hc : c.Standard) (h : parsebacks S k c s = .ok (c', s')) : c'.Standard := by
  induction k generalizing c s with
  | zero => cases h
  | succ k ih =>
    simp only [parsebacks] at h
    obtain ⟨⟨more, s₁⟩, -, h⟩ := bind_ok h
    dsimp only at h
    split at h
    · obtain ⟨⟨tok, s₂⟩, -, h⟩ := bind_ok h
      exact ih (c := .back c) hc h
    · cases h
      exact hc

/-- The parser makes redirections of descriptors 0 and 1 only. -/
lemma parse_standard (S : Scanner σ) (fuel : Nat) : (∀ s c s', parseline S fuel s = .ok (c, s') → c.Standard) ∧
    (∀ s c s', parsepipe S fuel s = .ok (c, s') → c.Standard) ∧ (∀ s c s', parseblock S fuel s = .ok (c, s') → c.Standard) ∧
    ∀ s c s', parseexec S fuel s = .ok (c, s') → c.Standard := by
  induction fuel with
  | zero =>
    refine ⟨?_, ?_, ?_, ?_⟩
    all_goals
      intro s c s' h
      simp [parseline, parsepipe, parseblock, parseexec] at h
  | succ fuel ih =>
    obtain ⟨hline, hpipe, hblock, hexec⟩ := ih
    refine ⟨fun s c s' h => ?_, fun s c s' h => ?_, fun s c s' h => ?_, fun s c s' h => ?_⟩
    · simp only [parseline] at h
      obtain ⟨⟨left, s₁⟩, hleft, h⟩ := bind_ok h
      obtain ⟨⟨left', s₂⟩, hbacks, h⟩ := bind_ok h
      obtain ⟨⟨more, s₃⟩, -, h⟩ := bind_ok h
      have hstd := parsebacks_standard (hpipe _ _ _ hleft) hbacks
      dsimp only at h
      split at h
      · obtain ⟨⟨tok, s₄⟩, -, h⟩ := bind_ok h
        obtain ⟨⟨right, s₅⟩, hright, h⟩ := bind_ok h
        cases h
        exact ⟨hstd, hline _ _ _ hright⟩
      · cases h
        exact hstd
    · simp only [parsepipe] at h
      obtain ⟨⟨left, s₁⟩, hleft, h⟩ := bind_ok h
      obtain ⟨⟨more, s₂⟩, -, h⟩ := bind_ok h
      have hstd := hexec _ _ _ hleft
      dsimp only at h
      split at h
      · obtain ⟨⟨tok, s₃⟩, -, h⟩ := bind_ok h
        obtain ⟨⟨right, s₄⟩, hright, h⟩ := bind_ok h
        cases h
        exact ⟨hstd, hpipe _ _ _ hright⟩
      · cases h
        exact hstd
    · simp only [parseblock] at h
      obtain ⟨⟨opens, s₁⟩, -, h⟩ := bind_ok h
      dsimp only at h
      split at h
      · cases h
      obtain ⟨⟨tok, s₂⟩, -, h⟩ := bind_ok h
      obtain ⟨⟨inner, s₃⟩, hinner, h⟩ := bind_ok h
      obtain ⟨⟨closes, s₄⟩, -, h⟩ := bind_ok h
      dsimp only at h
      split at h
      · cases h
      obtain ⟨⟨tok', s₅⟩, -, h⟩ := bind_ok h
      obtain ⟨⟨redirs, s₆⟩, hredirs, h⟩ := bind_ok h
      cases h
      exact wrap_standard (hline _ _ _ hinner) (parseredirs_fd (by simp) hredirs)
    · simp only [parseexec] at h
      obtain ⟨⟨opens, s₁⟩, -, h⟩ := bind_ok h
      dsimp only at h
      split at h
      · exact hblock _ _ _ h
      obtain ⟨⟨redirs, s₂⟩, hredirs, h⟩ := bind_ok h
      obtain ⟨⟨⟨args, redirs₁⟩, s₃⟩, hargs, h⟩ := bind_ok h
      cases h
      exact wrap_standard trivial (parseargs_fd (parseredirs_fd (by simp) hredirs) hargs)

lemma parsecmd_standard {fuel : Nat} {buf buf' : Str} {c : Cmd} (h : parsecmd fuel buf = .ok (c, buf')) : c.Standard := by
  simp only [parsecmd] at h
  obtain ⟨⟨cmd, s₁⟩, hline, h⟩ := bind_ok h
  obtain ⟨⟨more, s₂⟩, -, h⟩ := bind_ok h
  dsimp only at h
  split at h
  · cases h
  · obtain ⟨buf₁, -, h⟩ := bind_ok h
    cases h
    exact (parse_standard _ fuel).1 _ _ _ hline

end Parser

/-! ### What the parts are connected to -/

/-- Standard input and output. -/
structure Streams where
  input : Source Nat Place
  output : Source Nat Place

/-- The streams after a redirection at `p`. -/
def Streams.redirect (io : Streams) (r : Redir) (p : Place) : Streams :=
  if r.fd = 0 then { io with input := .opened p } else { io with output := .opened p }

/-- The part that the way `q` leads to, and its streams. The command is at `p` and has the streams `io`. -/
def part : Cmd → Place → Streams → Place → Option (Cmd × Streams)
  | cmd, _, io, [] => some (cmd, io)
  | .redir cmd r, p, io, false :: q => part cmd (p ++ [false]) (io.redirect r p) q
  | .list left _, p, io, false :: q => part left (p ++ [false]) io q
  | .list _ right, p, io, true :: q => part right (p ++ [true]) io q
  | .pipe left _, p, io, false :: q => part left (p ++ [false]) { io with output := .stem p true } q
  | .pipe _ right, p, io, true :: q => part right (p ++ [true]) { io with input := .stem p false } q
  | .back cmd, p, io, false :: q => part cmd (p ++ [false]) io q
  | _, _, _, _ => none

/-- The table with these streams. -/
def Streams.table {n : Nat} (io : Streams) (T : Table n (Source Nat Place)) : Table n (Source Nat Place) := fun d =>
  if d.val = 0 then some io.input else if d.val = 1 then some io.output else T d

variable {n : Nat} {T₀ : Table n (Source Nat Place)} {cmd c : Cmd} {io io₀ : Streams} {p q : Place}

lemma part_nil (c : Cmd) (p : Place) (io : Streams) : part c p io [] = some (c, io) := by
  cases c <;> rfl

lemma part_append (p : Place) (io : Streams) (q : Place) (b : Bool) :
    part cmd p io (q ++ [b]) = (part cmd p io q).bind fun x => part x.1 (p ++ q) x.2 [b] := by
  induction q generalizing cmd p io with
  | nil =>
    rw [List.nil_append, List.append_nil]
    cases cmd <;> rfl
  | cons a q ih =>
    have hway : ∀ x : Cmd × Streams, part x.1 (p ++ a :: q) x.2 [b] = part x.1 (p ++ [a] ++ q) x.2 [b] := by
      intro x
      rw [List.append_assoc, List.singleton_append]
    simp only [hway, List.cons_append]
    cases cmd <;> cases a <;> first | exact ih _ _ | rfl

/-- A settled process is one that waits or executes a program. It has the streams of its part. -/
def Settled (cmd : Cmd) (io₀ : Streams) (T₀ : Table n (Source Nat Place)) :
    Config n Nat Place (List (Nat × Nat)) Redir → Prop
  | ⟨.exec p args _, T⟩ => ∃ io, part cmd [] io₀ p = some (.exec args, io) ∧ T = io.table T₀
  | ⟨.wait p _, T⟩ => ∃ c io, part cmd [] io₀ p = some (c, io) ∧ T = io.table T₀
  | _ => True

lemma table_some {d : Fin n} (io : Streams) (h : d.val ≤ 1) : io.table T₀ d ≠ none := by
  simp only [Streams.table]
  split
  · simp
  · rw [if_pos (by omega)]
    simp

lemma table_input {d : Fin n} (io : Streams) (h : d.val = 0) (x : Source Nat Place) :
    Function.update (io.table T₀) d (some x) = { io with input := x : Streams }.table T₀ := by
  ext e
  by_cases he : e = d
  · simp [he, h, Streams.table]
  · have hne : e.val ≠ 0 := by
      intro hzero
      exact he (Fin.ext (hzero.trans h.symm))
    simp [he, hne, Streams.table]

lemma table_output {d : Fin n} (io : Streams) (h : d.val = 1) (x : Source Nat Place) :
    Function.update (io.table T₀) d (some x) = { io with output := x : Streams }.table T₀ := by
  ext e
  by_cases he : e = d
  · simp [he, h, Streams.table]
  · have hne : e.val ≠ 1 := by
      intro hone
      exact he (Fin.ext (hone.trans h.symm))
    simp [he, hne, Streams.table]

lemma part_step (hpart : part cmd [] io₀ p = some (c, io)) (b : Bool) : part cmd [] io₀ (p ++ [b]) = part c p io [b] := by
  rw [part_append, hpart, List.nil_append, Option.bind_some]

/-- A redirection connects the descriptor that it names. -/
lemma redirect_table {r : Redir} {d : Fin n} (hr : r.fd ≤ 1) (hd : lowest (shut (io.table T₀) r.fd) = some d) :
    Function.update (shut (io.table T₀) r.fd) d (some (.opened p)) = (io.redirect r p).table T₀ := by
  have hbusy : ∀ a : Fin n, a.val ≤ r.fd → io.table T₀ a ≠ none := fun a ha => table_some io (ha.trans hr)
  have hlt : r.fd < n := by
    by_contra hge
    have hfree := lowest_free hd
    rw [shut_of_ne _ (by omega)] at hfree
    exact hbusy d (by omega) hfree
  obtain ⟨hval, heq⟩ := reopen (x := Source.opened p) (fun _ => hbusy) hlt hd
  rw [heq, Streams.redirect]
  split
  · next hzero => exact table_input io (hval.trans hzero) _
  · exact table_output io (by omega) _

/-- The processes that `runcmd` gives rise to. -/
lemma runcmd_leads (hstd : c.Standard) (hpart : part cmd [] io₀ p = some (c, io)) :
    Leads (Settled cmd io₀ T₀) ⟨runcmd p c, io.table T₀⟩ := by
  induction c generalizing p io with
  | exec args =>
    simp only [runcmd]
    split
    · exact .exit trivial
    · exact .exec ⟨io, hpart, rfl⟩ (.exit trivial)
  | redir c r ih =>
    simp only [runcmd]
    refine Leads.close trivial ?_
    refine Leads.open trivial ?_ ?_
    · intro d hd
      rw [redirect_table hstd.1 hd]
      exact ih hstd.2 ((part_step hpart false).trans (part_nil _ _ _))
    · exact .exit trivial
  | list left right ihl ihr =>
    simp only [runcmd, fork1]
    refine Leads.fork trivial ?_ ?_ ?_
    · exact ihl hstd.1 ((part_step hpart false).trans (part_nil _ _ _))
    · exact .wait ⟨_, io, hpart, rfl⟩ (ihr hstd.2 ((part_step hpart true).trans (part_nil _ _ _)))
    · exact .exit trivial
  | pipe left right ihl ihr =>
    simp only [runcmd, fork1]
    refine Leads.pipe trivial ?_ ?_
    · intro d e hd he
      have hfree := lowest_free hd
      have hlt : 1 < d.val := by
        by_contra hge
        exact table_some io (by omega) hfree
      have hne : e ≠ d := by
        rintro rfl
        have hbusy := lowest_free he
        simp at hbusy
      have hzero : (⟨0, by omega⟩ : Fin n).val = 0 := rfl
      have hone : (⟨1, by omega⟩ : Fin n).val = 1 := rfl
      have hbelow : ∀ z : Fin n, z.val ≤ 1 → ∀ a < z, io.table T₀ a ≠ none := by
        intro z hz a ha
        have hval : a.val < z.val := ha
        exact table_some io (by omega)
      refine Leads.fork trivial ?_ ?_ ?_
      · -- the left side writes to the pipe
        refine Leads.close trivial ?_
        refine Leads.dup trivial ?_
        refine Leads.close trivial ?_
        refine Leads.close trivial ?_
        have hwrite : Function.update (Function.update (io.table T₀) d (some (Source.stem p false))) e (some (Source.stem p true)) e =
            some (Source.stem p true) := Function.update_self _ _ _
        have hplug := plug hd he (table_some io hone.le) (hbelow _ hone.le) hwrite (Or.inr rfl)
        rw [table_output io hone] at hplug
        rw [hplug]
        exact ihl hstd.1 ((part_step hpart false).trans (part_nil _ _ _))
      · refine Leads.fork trivial ?_ ?_ ?_
        · -- the right side reads from it
          refine Leads.close trivial ?_
          refine Leads.dup trivial ?_
          refine Leads.close trivial ?_
          refine Leads.close trivial ?_
          have hread : Function.update (Function.update (io.table T₀) d (some (Source.stem p false))) e (some (Source.stem p true)) d =
              some (Source.stem p false) := by
            rw [Function.update_of_ne hne.symm, Function.update_self]
          have hplug := plug hd he (table_some io (hzero.le.trans zero_le_one)) (hbelow _ (hzero.le.trans zero_le_one)) hread (Or.inl rfl)
          rw [table_input io hzero] at hplug
          rw [hplug]
          exact ihr hstd.2 ((part_step hpart true).trans (part_nil _ _ _))
        · refine Leads.close trivial ?_
          refine Leads.close trivial ?_
          rw [unplug hd he]
          exact .wait ⟨_, io, hpart, rfl⟩ (.wait ⟨_, io, hpart, rfl⟩ (.exit trivial))
        · exact .exit trivial
      · exact .exit trivial
    · exact .exit trivial
  | back c ih =>
    simp only [runcmd, fork1]
    refine Leads.fork trivial ?_ ?_ ?_
    · exact ih hstd ((part_step hpart false).trans (part_nil _ _ _))
    · exact .exit trivial
    · exact .exit trivial

lemma redirect_stem {r : Redir} {w : Bool} {q₀ : Place} : ((io.redirect r p).input = .stem q₀ w → io.input = .stem q₀ w) ∧
    ((io.redirect r p).output = .stem q₀ w → io.output = .stem q₀ w) := by
  simp only [Streams.redirect]
  split
  · exact ⟨fun h => (by cases h), id⟩
  · exact ⟨id, fun h => (by cases h)⟩

/-- An end of a pipe is a stream of that side of the pipe only. -/
lemma part_stem {w : Bool} {q₀ : Place} (h : part cmd p io₀ q = some (c, io)) :
    (io.input = .stem q₀ w → io₀.input = .stem q₀ w ∨ w = false ∧ q₀ ++ [true] <+: p ++ q) ∧
      (io.output = .stem q₀ w → io₀.output = .stem q₀ w ∨ w = true ∧ q₀ ++ [false] <+: p ++ q) := by
  induction q generalizing cmd p io₀ with
  | nil =>
    rw [part_nil] at h
    cases h
    exact ⟨Or.inl, Or.inl⟩
  | cons b q ih =>
    have hway : p ++ b :: q = p ++ [b] ++ q := by simp
    have hchild : ∀ {c' : Cmd} {io' : Streams}, part c' (p ++ [b]) io' q = some (c, io) →
        (io.input = .stem q₀ w → io'.input = .stem q₀ w ∨ w = false ∧ q₀ ++ [true] <+: p ++ b :: q) ∧
        (io.output = .stem q₀ w → io'.output = .stem q₀ w ∨ w = true ∧ q₀ ++ [false] <+: p ++ b :: q) := by
      intro c' io' h'
      rw [hway]
      exact ih h'
    have hhere : ∀ b', p ++ [b'] <+: p ++ b' :: q := by
      intro b'
      exact ⟨q, by simp⟩
    cases cmd with
    | exec args => cases b <;> cases h
    | redir c' r =>
      cases b with
      | true => cases h
      | false =>
        obtain ⟨hin, hout⟩ := hchild h
        exact ⟨fun heq => (hin heq).imp_left redirect_stem.1, fun heq => (hout heq).imp_left redirect_stem.2⟩
    | pipe left right =>
      cases b with
      | true =>
        obtain ⟨hin, hout⟩ := hchild h
        refine ⟨fun heq => ?_, hout⟩
        rcases hin heq with hstem | hbelow
        · cases hstem
          exact Or.inr ⟨rfl, hhere true⟩
        · exact Or.inr hbelow
      | false =>
        obtain ⟨hin, hout⟩ := hchild h
        refine ⟨hin, fun heq => ?_⟩
        rcases hout heq with hstem | hbelow
        · cases hstem
          exact Or.inr ⟨rfl, hhere false⟩
        · exact Or.inr hbelow
    | list left right =>
      cases b with
      | true => exact hchild h
      | false => exact hchild h
    | back c' =>
      cases b with
      | true => cases h
      | false => exact hchild h

/-! ### Each part once -/

lemma below_of_child {b : Bool} (h : p ++ [b] <+: q) : p <+: q := (List.prefix_append _ _).trans h

lemma not_below_child {b : Bool} : ¬ p ++ [b] <+: p := by
  intro h
  have hlen := h.length_le
  simp at hlen

/-- What is below the one side is not below the other. -/
lemma sides_disjoint (p : Place) : Disjoint {q | p ++ [false] <+: q} {q : Place | p ++ [true] <+: q} := by
  rw [Set.disjoint_left]
  intro q hleft hright
  obtain ⟨l, rfl⟩ := hleft
  obtain ⟨r, hr⟩ := hright
  simp at hr

/-- A part makes things at places below its own only. -/
lemma uses_runcmd (p : Place) (c : Cmd) : uses (runcmd p c) ⊆ {q | p <+: q} := by
  have hself : ∀ p : Place, {p} ⊆ {q : Place | p <+: q} := by
    intro p q hq
    rw [Set.mem_singleton_iff.mp hq]
    exact List.prefix_refl p
  have hside : ∀ {p : Place} {b : Bool} {U : Set Place}, U ⊆ {q | p ++ [b] <+: q} → U ⊆ {q | p <+: q} :=
    fun h q hq => below_of_child (h hq)
  induction c generalizing p with
  | exec args =>
    simp only [runcmd]
    split <;> simp [uses]
  | redir c r ih =>
    simp only [runcmd, uses, Set.union_empty]
    exact Set.union_subset (hself p) (hside (ih _))
  | list left right ihl ihr =>
    simp only [runcmd, fork1, uses, Set.union_empty]
    exact Set.union_subset (hside (ihl _)) (hside (ihr _))
  | pipe left right ihl ihr =>
    simp only [runcmd, fork1, uses, Set.union_empty]
    apply Set.union_subset (hself p)
    intro q hq
    simp only [Set.mem_iUnion, Set.mem_union] at hq
    obtain ⟨-, -, hq | hq⟩ := hq
    · exact hside (ihl _) hq
    · exact hside (ihr _) hq
  | back c ih =>
    simp only [runcmd, fork1, uses, Set.union_empty]
    exact hside (ih _)

lemma linear_runcmd (p : Place) (c : Cmd) : Linear (runcmd p c) := by
  have hapart : ∀ (p : Place) (l r : Cmd), Disjoint (uses (runcmd (p ++ [false]) l)) (uses (runcmd (p ++ [true]) r)) :=
    fun p l r => (sides_disjoint p).mono (uses_runcmd _ l) (uses_runcmd _ r)
  have hnot : ∀ (p : Place) (b : Bool) (c : Cmd), p ∉ uses (runcmd (p ++ [b]) c) :=
    fun p b c hp => not_below_child (uses_runcmd _ c hp)
  induction c generalizing p with
  | exec args =>
    simp only [runcmd]
    split <;> simp [Linear]
  | redir c r ih => simp [runcmd, Linear, hnot, ih]
  | list left right ihl ihr => simp [runcmd, fork1, Linear, uses, hapart, ihl, ihr]
  | pipe left right ihl ihr => simp [runcmd, fork1, Linear, uses, hapart, hnot, ihl, ihr]
  | back c ih => simp [runcmd, fork1, Linear, uses, ih]

end FogOS.Shell.Sh
