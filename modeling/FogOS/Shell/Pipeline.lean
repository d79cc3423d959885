import FogOS.Shell.Runcmd
import FogOS.Kernel.Descriptors

/-!
# Pipelines

The processes of a command, among all others and in any order: the shell's processes make the calls of `runcmd`, and
the programs that they execute make any calls they like. `role` and `made` are history: what an open file has been
made for, and the inode or the pipe that has been opened or made at a place of the command.
-/

namespace FogOS.Shell.Sh

open Descriptors FogOS.Kernel

/-- What runs in a process: a program that is not part of the command, the shell, or a program that has been executed
at a place of the command, or a descendant of one. -/
inductive Actor
  | outside
  | shell (code : Code)
  | program (p : Place)

/-- The files, what runs in the processes, and the history. -/
structure Sys where
  files : Files
  actor : Fin nproc → Actor
  role : Nat → Option (Source Nat Place)
  made : Place → Option Nat

namespace Sys

/-- A descriptor refers to the file. -/
def IsOpen (t : Files) (f : Nat) : Prop := ∃ x, t.ofile x = some f

lemma isOpen_iff_exists (t : Files) (f : Nat) :
    (∃ i ∈ List.finRange nproc, ∃ d ∈ List.finRange nofile, t.ofile (i, d) = some f) ↔ IsOpen t f := by
  simp [IsOpen]

instance (t : Files) (f : Nat) : Decidable (IsOpen t f) := decidable_of_iff _ (isOpen_iff_exists t f)

/-- Files that are not open have no role. -/
def prune (t : Files) (role : Nat → Option (Source Nat Place)) (f : Nat) : Option (Source Nat Place) :=
  if IsOpen t f then role f else none

/-- The files are `t` now, and process `i` goes on with `a`. -/
def goes (s : Sys) (t : Files) (i : Fin nproc) (a : Actor) : Sys :=
  { s with files := t, actor := Function.update s.actor i a, role := prune t s.role }

/-- Process `i` runs the command, and no other one has to do with it. -/
def start (t : Files) (i : Fin nproc) (cmd : Cmd) : Sys where
  files := t
  actor := Function.update (fun _ => .outside) i (.shell (runcmd [] cmd))
  role := prune t fun f => some (.old f)
  made _ := none

/-- What runs in the processes after a call of process `i`, of which the result is `r`. -/
def after (s : Sys) (i : Fin nproc) (r : Int) : FileCall → Fin nproc → Actor
  | .fork _ => fun j => if (j.val : Int) = r then s.actor i else s.actor j
  | .exit => Function.update s.actor i .outside
  | _ => s.actor

/-- A process of the shell makes its next call, another one makes any call, or the kernel does something by itself.
A zombie may be reaped at any time, whoever waits for it. -/
inductive Step (V : Arena) : Sys → Sys → Prop
  | close {s : Sys} {t : Files} {i : Fin nproc} {d : Nat} {k : Code} {r : Int} {evs : List FileEvent} (hi : s.files.Awake i)
      (ha : s.actor i = .shell (.close d k)) (h : s.files.sysClose i d = .ok (r, evs, t)) : Step V s (s.goes t i (.shell k))
  | dup {s : Sys} {t : Files} {i : Fin nproc} {d : Nat} {k : Code} {r : Int} {evs : List FileEvent} (hi : s.files.Awake i)
      (ha : s.actor i = .shell (.dup d k)) (h : s.files.sysDup i d = .ok (r, evs, t)) : Step V s (s.goes t i (.shell k))
  | opened {s : Sys} {t : Files} {i : Fin nproc} {p : Place} {file : Redir} {k fail : Code} {d : Fin nofile} {f : Nat}
      {found : Option (Nat × InodeType × Int)} {evs : List FileEvent} (hi : s.files.Awake i)
      (ha : s.actor i = .shell (.open p file k fail)) (h : s.files.sysOpen i file.mode found = .ok (d.val, evs, t))
      (hf : t.table i d = some f) :
      Step V s { s.goes t i (.shell k) with
        role := prune t (Function.update s.role f (some (.opened p)))
        made := Function.update s.made p (some (t.file f).ip) }
  | notOpened {s : Sys} {t : Files} {i : Fin nproc} {p : Place} {file : Redir} {k fail : Code} {r : Int}
      {found : Option (Nat × InodeType × Int)} {evs : List FileEvent} (hi : s.files.Awake i)
      (ha : s.actor i = .shell (.open p file k fail)) (h : s.files.sysOpen i file.mode found = .ok (r, evs, t)) (hr : r < 0) :
      Step V s (s.goes t i (.shell fail))
  | piped {s : Sys} {t : Files} {i : Fin nproc} {p : Place} {k : Nat → Nat → Code} {fail : Code} {d e : Fin nofile} {f g : Nat}
      {evs : List FileEvent} (hi : s.files.Awake i) (ha : s.actor i = .shell (.pipe p k fail))
      (h : s.files.sysPipe i true = .ok (0, evs, t)) (hd : lowest (s.files.table i) = some d) (hf : t.table i d = some f)
      (he : lowest (Function.update (s.files.table i) d (some f)) = some e) (hg : t.table i e = some g) :
      Step V s { s.goes t i (.shell (k d e)) with
        role := prune t (Function.update (Function.update s.role f (some (.stem p false))) g (some (.stem p true)))
        made := Function.update s.made p (some (t.file f).pipe) }
  | notPiped {s : Sys} {t : Files} {i : Fin nproc} {p : Place} {k : Nat → Nat → Code} {fail : Code} {r : Int} {evs : List FileEvent}
      (hi : s.files.Awake i) (ha : s.actor i = .shell (.pipe p k fail)) (h : s.files.sysPipe i true = .ok (r, evs, t)) (hr : r < 0) :
      Step V s (s.goes t i (.shell fail))
  | forked {s : Sys} {t : Files} {i j : Fin nproc} {child parent fail : Code} {memory : Bool} {evs : List FileEvent}
      (hi : s.files.Awake i) (ha : s.actor i = .shell (.fork child parent fail))
      (h : s.files.kfork i memory = .ok (j.val, evs, t)) :
      Step V s { s.goes t i (.shell parent) with actor := Function.update (Function.update s.actor i (.shell parent)) j (.shell child) }
  | notForked {s : Sys} {t : Files} {i : Fin nproc} {child parent fail : Code} {memory : Bool} {r : Int} {evs : List FileEvent}
      (hi : s.files.Awake i) (ha : s.actor i = .shell (.fork child parent fail)) (h : s.files.kfork i memory = .ok (r, evs, t))
      (hr : r < 0) : Step V s (s.goes t i (.shell fail))
  | waited {s : Sys} {i : Fin nproc} {p : Place} {k : Code} (hi : s.files.Awake i) (ha : s.actor i = .shell (.wait p k)) :
      Step V s (s.goes s.files i (.shell k))
  | executed {s : Sys} {i : Fin nproc} {p : Place} {args : List (Nat × Nat)} {k : Code} (hi : s.files.Awake i)
      (ha : s.actor i = .shell (.exec p args k)) : Step V s (s.goes s.files i (.program p))
  | notExecuted {s : Sys} {i : Fin nproc} {p : Place} {args : List (Nat × Nat)} {k : Code} (hi : s.files.Awake i)
      (ha : s.actor i = .shell (.exec p args k)) : Step V s (s.goes s.files i (.shell k))
  | exited {s : Sys} {t : Files} {i : Fin nproc} {status r : Int} {evs : List FileEvent} (hi : s.files.Awake i)
      (ha : s.actor i = .shell (.exit status)) (h : s.files.kexit i = .ok (r, evs, t)) : Step V s (s.goes t i .outside)
  | call {s : Sys} {t : Files} {i : Fin nproc} {c : FileCall} {r : Int} {evs : List FileEvent} (hi : s.files.Awake i)
      (ha : ∀ code, s.actor i ≠ .shell code) (h : s.files.call i c = .ok (r, evs, t)) :
      Step V s { s with files := t, actor := s.after i r c, role := prune t s.role }
  | reap {s : Sys} {i : Fin nproc} (hi : s.files.state i = .ZOMBIE) :
      Step V s { s with files := { s.files with state := Function.update s.files.state i .UNUSED } }
  | transfer {s : Sys} {pi : Nat} {p : Kernel.Pipe} (hread : p.readopen = (s.files.pipe pi).readopen)
      (hwrite : p.writeopen = (s.files.pipe pi).writeopen) :
      Step V s { s with files := { s.files with pipe := Function.update s.files.pipe pi p } }
  | other {s : Sys} {k : Kmem} {H : Multiset Nat} (h : Kmem.Trades V s.files.kmem k s.files.held H) :
      Step V s { s with files := { s.files with kmem := k, held := H } }

variable {V : Arena} {s s' : Sys}

lemma goes_files (s : Sys) (t : Files) (i : Fin nproc) (a : Actor) : (s.goes t i a).files = t := rfl

lemma goes_role (s : Sys) (t : Files) (i : Fin nproc) (a : Actor) : (s.goes t i a).role = prune t s.role := by
  simp only [goes]

lemma start_role (t : Files) (i : Fin nproc) (cmd : Cmd) : (start t i cmd).role = prune t fun f => some (.old f) := by
  simp only [start]

lemma start_actor (t : Files) (i : Fin nproc) (cmd : Cmd) :
    (start t i cmd).actor = Function.update (fun _ => .outside) i (.shell (runcmd [] cmd)) := by
  simp only [start]

lemma prune_of_open {t : Files} {role : Nat → Option (Source Nat Place)} {f : Nat} (h : IsOpen t f) : prune t role f = role f := by
  rw [prune, if_pos h]

lemma prune_eq_some {t : Files} {role : Nat → Option (Source Nat Place)} {f : Nat} {σ : Source Nat Place} (h : prune t role f = some σ) :
    IsOpen t f ∧ role f = some σ := by
  rw [prune] at h
  split at h
  · next hopen => exact ⟨hopen, h⟩
  · cases h

/-- What the system does is what the kernel's files allow. -/
lemma Step.files_step (h : Step V s s') : (∃ evs, Files.Step V s.files evs s'.files) ∨ s'.files = s.files := by
  cases h with
  | @close t i d k r evs hi ha h => exact Or.inl ⟨evs, .call (c := .close d) hi h⟩
  | @dup t i d k r evs hi ha h => exact Or.inl ⟨evs, .call (c := .dup d) hi h⟩
  | @opened t i p file k fail d f found evs hi ha h hf => exact Or.inl ⟨evs, .call (c := .open file.mode found) hi h⟩
  | @notOpened t i p file k fail r found evs hi ha h hr => exact Or.inl ⟨evs, .call (c := .open file.mode found) hi h⟩
  | @piped t i p k fail d e f g evs hi ha h hd hf he hg => exact Or.inl ⟨evs, .call (c := .pipe true) hi h⟩
  | @notPiped t i p k fail r evs hi ha h hr => exact Or.inl ⟨evs, .call (c := .pipe true) hi h⟩
  | @forked t i j child parent fail memory evs hi ha h => exact Or.inl ⟨evs, .call (c := .fork memory) hi h⟩
  | @notForked t i child parent fail memory r evs hi ha h hr => exact Or.inl ⟨evs, .call (c := .fork memory) hi h⟩
  | waited hi ha => exact Or.inr rfl
  | executed hi ha => exact Or.inr rfl
  | notExecuted hi ha => exact Or.inr rfl
  | @exited t i status r evs hi ha h => exact Or.inl ⟨evs, .call (c := .exit) hi h⟩
  | @call t i c r evs hi ha h => exact Or.inl ⟨evs, .call hi h⟩
  | reap hi => exact Or.inl ⟨[], .wait hi⟩
  | transfer hread hwrite => exact Or.inl ⟨[], .transfer hread hwrite⟩
  | other h => exact Or.inl ⟨[], .other h⟩

lemma Step.holds {P : Finset Nat} (h : Step V s s') (hs : s.files.Holds V 0 P) : ∃ P', s'.files.Holds V 0 P' := by
  rcases h.files_step with ⟨evs, hstep⟩ | heq
  · obtain ⟨P', ht, -⟩ := hs.step hstep
    exact ⟨P', ht⟩
  · exact ⟨P, heq ▸ hs⟩

instance (t : Files) (i : Fin nproc) : Decidable (t.Awake i) := inferInstanceAs (Decidable (_ ∧ _))

/-- The next call of a process of the shell, when nothing fails and a redirection finds the file `found`. -/
def next (s : Sys) (found : Option (Nat × InodeType × Int)) (i : Fin nproc) : Option Sys :=
  if ¬ s.files.Awake i then none
  else
    match s.actor i with
    | .shell (.close d k) =>
      match s.files.sysClose i d with
      | .ok (_, _, t) => some (s.goes t i (.shell k))
      | .error _ => none
    | .shell (.dup d k) =>
      match s.files.sysDup i d with
      | .ok (_, _, t) => some (s.goes t i (.shell k))
      | .error _ => none
    | .shell (.open p file k _) =>
      match s.files.sysOpen i file.mode found, lowest (s.files.table i) with
      | .ok (r, _, t), some d =>
        match t.table i d with
        | some f =>
          if r = d.val then
            some { s.goes t i (.shell k) with
              role := prune t (Function.update s.role f (some (.opened p)))
              made := Function.update s.made p (some (t.file f).ip) }
          else none
        | none => none
      | _, _ => none
    | .shell (.pipe p k _) =>
      match s.files.sysPipe i true, lowest (s.files.table i) with
      | .ok (r, _, t), some d =>
        match t.table i d with
        | some f =>
          match lowest (Function.update (s.files.table i) d (some f)) with
          | some e =>
            match t.table i e with
            | some g =>
              if r = 0 then
                some { s.goes t i (.shell (k d e)) with
                  role := prune t (Function.update (Function.update s.role f (some (.stem p false))) g (some (.stem p true)))
                  made := Function.update s.made p (some (t.file f).pipe) }
              else none
            | none => none
          | none => none
        | none => none
      | _, _ => none
    | .shell (.fork child parent _) =>
      match s.files.kfork i true with
      | .ok (r, _, t) =>
        match (List.finRange nproc).find? fun j => decide ((j.val : Int) = r) with
        | some j =>
          some { s.goes t i (.shell parent) with
            actor := Function.update (Function.update s.actor i (.shell parent)) j (.shell child) }
        | none => none
      | .error _ => none
    | .shell (.wait _ k) => some (s.goes s.files i (.shell k))
    | .shell (.exec p _ _) => some (s.goes s.files i (.program p))
    | .shell (.exit _) =>
      match s.files.kexit i with
      | .ok (_, _, t) => some (s.goes t i .outside)
      | .error _ => none
    | _ => none

lemma next_step {V : Arena} {s s' : Sys} {i : Fin nproc} {found : Option (Nat × InodeType × Int)} (h : s.next found i = some s') : Step V s s' := by
  unfold next at h
  split at h
  · cases h
  next hno =>
  have hi : s.files.Awake i := not_not.mp hno
  split at h
  · next d k ha =>
    split at h
    · next r evs t hcall =>
      cases h
      exact .close hi ha hcall
    · cases h
  · next d k ha =>
    split at h
    · next r evs t hcall =>
      cases h
      exact .dup hi ha hcall
    · cases h
  · next p file k fail ha =>
    split at h
    · next r evs t d hcall hlow =>
      split at h
      · next f hf =>
        split at h
        · next hr =>
          cases h
          subst hr
          exact .opened hi ha hcall hf
        · cases h
      · cases h
    · cases h
  · next p k fail ha =>
    split at h
    · next r evs t d hcall hd =>
      split at h
      · next f hf =>
        split at h
        · next e he =>
          split at h
          · next g hg =>
            split at h
            · next hr =>
              cases h
              subst hr
              exact .piped hi ha hcall hd hf he hg
            · cases h
          · cases h
        · cases h
      · cases h
    · cases h
  · next child parent fail ha =>
    split at h
    · next r evs t hcall =>
      split at h
      · next j hj =>
        cases h
        obtain rfl : (j.val : Int) = r := by simpa using List.find?_some hj
        exact .forked hi ha hcall
      · cases h
    · cases h
  · next p k ha =>
    cases h
    exact .waited hi ha
  · next p args k ha =>
    cases h
    exact .executed hi ha
  · next status ha =>
    split at h
    · next r evs t hcall =>
      cases h
      exact .exited hi ha hcall
    · cases h
  · cases h

/-- The processes make their calls in this order. -/
def runs (s : Sys) (found : Option (Nat × InodeType × Int)) : List (Fin nproc) → Option Sys
  | [] => some s
  | i :: order => (s.next found i).bind fun s => s.runs found order

lemma runs_steps {V : Arena} {s s' : Sys} {found : Option (Nat × InodeType × Int)} {order : List (Fin nproc)} (h : s.runs found order = some s') :
    Relation.ReflTransGen (Step V) s s' := by
  induction order generalizing s with
  | nil =>
    cases h
    exact .refl
  | cons i order ih =>
    obtain ⟨s₁, hnext, hruns⟩ := Option.bind_eq_some_iff.mp h
    exact .head (next_step hnext) (ih hruns)

/-! ### No place is used twice -/

/-- The processes of the shell share no places, and have made nothing yet at the places that they have still before
them. -/
structure Once (s : Sys) : Prop where
  linear : ∀ j code, s.actor j = .shell code → Linear code
  fresh : ∀ j code, s.actor j = .shell code → ∀ p ∈ uses code, s.made p = none
  apart : ∀ j k code code', j ≠ k → s.actor j = .shell code → s.actor k = .shell code' → Disjoint (uses code) (uses code')

variable {i j : Fin nproc} {code code' : Code} {t : Files} {d e : Fin nofile}

/-- A process of the shell goes on. -/
lemma Once.goes (h : Once s) (ha : s.actor i = .shell code) (hlin : Linear code') (hsub : uses code' ⊆ uses code)
    (hactor : s'.actor = Function.update s.actor i (.shell code')) (hmade : ∀ p ∈ uses code', s'.made p = none)
    (hother : ∀ p, p ∉ uses code → s'.made p = s.made p) : Once s' := by
  have hself : ∀ {c}, s'.actor i = .shell c → c = code' := by
    intro c hc
    rw [hactor, Function.update_self] at hc
    exact (Actor.shell.inj hc).symm
  have hothers : ∀ {j c}, j ≠ i → s'.actor j = .shell c → s.actor j = .shell c := by
    intro j c hj hc
    rwa [hactor, Function.update_of_ne hj] at hc
  refine ⟨fun j c hc => ?_, fun j c hc p hp => ?_, fun j k c c' hjk hc hc' => ?_⟩
  · by_cases hj : j = i
    · subst hj
      exact hself hc ▸ hlin
    · exact h.linear j c (hothers hj hc)
  · by_cases hj : j = i
    · subst hj
      exact hmade p (hself hc ▸ hp)
    · have hdisj := h.apart j i c code hj (hothers hj hc) ha
      rw [hother p (Set.disjoint_left.mp hdisj hp)]
      exact h.fresh j c (hothers hj hc) p hp
  · by_cases hj : j = i
    · subst hj
      rw [hself hc]
      exact (h.apart j k code c' hjk ha (hothers hjk.symm hc')).mono_left hsub
    · by_cases hk : k = i
      · subst hk
        rw [hself hc']
        exact (h.apart j k c code hj (hothers hj hc) ha).mono_right hsub
      · exact h.apart j k c c' hjk (hothers hj hc) (hothers hk hc')

/-- A process of the shell forks. -/
lemma Once.forks {child parent : Code} (h : Once s) (ha : s.actor i = .shell code) (hij : j ≠ i) (hchild : Linear child)
    (hparent : Linear parent) (hdisj : Disjoint (uses child) (uses parent)) (hsub : uses child ⊆ uses code)
    (hsub' : uses parent ⊆ uses code)
    (hactor : s'.actor = Function.update (Function.update s.actor i (.shell parent)) j (.shell child)) (hmade : s'.made = s.made) :
    Once s' := by
  have hj : ∀ {c}, s'.actor j = .shell c → c = child := by
    intro c hc
    rw [hactor, Function.update_self] at hc
    exact (Actor.shell.inj hc).symm
  have hi : ∀ {c}, s'.actor i = .shell c → c = parent := by
    intro c hc
    rw [hactor, Function.update_of_ne hij.symm, Function.update_self] at hc
    exact (Actor.shell.inj hc).symm
  have hothers : ∀ {k c}, k ≠ i → k ≠ j → s'.actor k = .shell c → s.actor k = .shell c := by
    intro k c hki hkj hc
    rwa [hactor, Function.update_of_ne hkj, Function.update_of_ne hki] at hc
  have hold : ∀ {k c}, s'.actor k = .shell c → Linear c ∧ (∀ p ∈ uses c, s.made p = none) ∧
      (k = i ∨ k = j → uses c ⊆ uses code) ∧ (k ≠ i → k ≠ j → s.actor k = .shell c) := by
    intro k c hc
    by_cases hkj : k = j
    · subst hkj
      obtain rfl := hj hc
      exact ⟨hchild, fun p hp => h.fresh i code ha p (hsub hp), fun _ => hsub, fun _ hne => absurd rfl hne⟩
    by_cases hki : k = i
    · subst hki
      obtain rfl := hi hc
      exact ⟨hparent, fun p hp => h.fresh k code ha p (hsub' hp), fun _ => hsub', fun hne => absurd rfl hne⟩
    · have hk := hothers hki hkj hc
      exact ⟨h.linear k c hk, h.fresh k c hk, fun hor => absurd hor (by simp [hki, hkj]), fun _ _ => hk⟩
  refine ⟨fun k c hc => (hold hc).1, fun k c hc p hp => by rw [hmade, (hold hc).2.1 p hp], fun k l c c' hkl hc hc' => ?_⟩
  obtain ⟨-, -, hsubk, holdk⟩ := hold hc
  obtain ⟨-, -, hsubl, holdl⟩ := hold hc'
  by_cases hk : k = i ∨ k = j
  · by_cases hl : l = i ∨ l = j
    · -- the parent and the child
      rcases hk with rfl | rfl <;> rcases hl with rfl | rfl
      · exact absurd rfl hkl
      · rw [hi hc, hj hc']
        exact hdisj.symm
      · rw [hj hc, hi hc']
        exact hdisj
      · exact absurd rfl hkl
    · push Not at hl
      exact (h.apart i l code c' hl.1.symm ha (holdl hl.1 hl.2)).mono_left (hsubk hk)
  · push Not at hk
    by_cases hl : l = i ∨ l = j
    · exact (h.apart k i c code hk.1 (holdk hk.1 hk.2) ha).mono_right (hsubl hl)
    · push Not at hl
      exact h.apart k l c c' hkl (holdk hk.1 hk.2) (holdl hl.1 hl.2)

/-- Processes leave the shell. -/
lemma Once.leaves (h : Once s) (hactor : ∀ j code, s'.actor j = .shell code → s.actor j = .shell code)
    (hmade : s'.made = s.made) : Once s' :=
  ⟨fun j c hc => h.linear j c (hactor j c hc), fun j c hc p hp => by rw [hmade, h.fresh j c (hactor j c hc) p hp],
    fun j k c c' hjk hc hc' => h.apart j k c c' hjk (hactor j c hc) (hactor k c' hc')⟩

lemma Once.step {P : Finset Nat} (h : Once s) (hs : s.files.Holds V 0 P) (hstep : Step V s s') : Once s' := by
  cases hstep with
  | @close t i d k r evs hi ha hcall =>
    have hlin := h.linear _ _ ha
    change Linear k at hlin
    have hsub : uses k ⊆ uses (Prog.close d k) := fun q hq => hq
    exact h.goes ha hlin hsub rfl (fun q hq => h.fresh _ _ ha q (hsub hq)) fun _ _ => rfl
  | @dup t i d k r evs hi ha hcall =>
    have hlin := h.linear _ _ ha
    change Linear k at hlin
    have hsub : uses k ⊆ uses (Prog.dup d k) := fun q hq => hq
    exact h.goes ha hlin hsub rfl (fun q hq => h.fresh _ _ ha q (hsub hq)) fun _ _ => rfl
  | @opened t i p file k fail d f found evs hi ha hcall hf =>
    obtain ⟨hnot, hk, -⟩ := h.linear _ _ ha
    have hsub : uses k ⊆ uses (Prog.open p file k fail) := fun q hq => Or.inr (Or.inl hq)
    refine h.goes ha hk hsub rfl (fun q hq => ?_) fun q hq => ?_
    · have hne : q ≠ p := fun heq => hnot (heq ▸ hq)
      exact (Function.update_of_ne hne _ _).trans (h.fresh _ _ ha q (hsub hq))
    · have hne : q ≠ p := fun heq => hq (Or.inl heq)
      exact Function.update_of_ne hne _ _
  | @notOpened t i p file k fail r found evs hi ha hcall hr =>
    have hsub : uses fail ⊆ uses (Prog.open p file k fail) := fun q hq => Or.inr (Or.inr hq)
    exact h.goes ha (h.linear _ _ ha).2.2 hsub rfl (fun q hq => h.fresh _ _ ha q (hsub hq)) fun _ _ => rfl
  | @piped t i p k fail d e f g evs hi ha hcall hd hf he hg =>
    obtain ⟨hk, -⟩ := h.linear _ _ ha
    obtain ⟨hnot, hlin⟩ := hk d e
    have hsub : uses (k d e) ⊆ uses (Prog.pipe p k fail) :=
      fun q hq => Or.inr (Or.inl (Set.mem_iUnion₂.mpr ⟨d.val, e.val, hq⟩))
    refine h.goes ha hlin hsub rfl (fun q hq => ?_) fun q hq => ?_
    · have hne : q ≠ p := fun heq => hnot (heq ▸ hq)
      exact (Function.update_of_ne hne _ _).trans (h.fresh _ _ ha q (hsub hq))
    · have hne : q ≠ p := fun heq => hq (Or.inl heq)
      exact Function.update_of_ne hne _ _
  | @notPiped t i p k fail r evs hi ha hcall hr =>
    have hsub : uses fail ⊆ uses (Prog.pipe p k fail) := fun q hq => Or.inr (Or.inr hq)
    exact h.goes ha (h.linear _ _ ha).2 hsub rfl (fun q hq => h.fresh _ _ ha q (hsub hq)) fun _ _ => rfl
  | @forked t i j child parent fail memory evs hi ha hcall =>
    obtain ⟨hdisj, hchild, hparent, -⟩ := h.linear _ _ ha
    have hij : j ≠ i := by
      rcases Files.kfork_ok hs hi hcall with ⟨hneg, -⟩ | ⟨j', hij, hj, -⟩
      · exact absurd hneg (by omega)
      · obtain rfl : j = j' := Fin.ext (by omega)
        exact hij
    exact h.forks ha hij hchild hparent hdisj (fun q hq => Or.inl (Or.inl hq)) (fun q hq => Or.inl (Or.inr hq)) rfl rfl
  | @notForked t i child parent fail memory r evs hi ha hcall hr =>
    have hsub : uses fail ⊆ uses (Prog.fork child parent fail) := fun q hq => Or.inr hq
    exact h.goes ha (h.linear _ _ ha).2.2.2 hsub rfl (fun q hq => h.fresh _ _ ha q (hsub hq)) fun _ _ => rfl
  | @waited i p k hi ha =>
    have hlin := h.linear _ _ ha
    change Linear k at hlin
    have hsub : uses k ⊆ uses (Prog.wait p k) := fun q hq => hq
    exact h.goes ha hlin hsub rfl (fun q hq => h.fresh _ _ ha q (hsub hq)) fun _ _ => rfl
  | @executed i p args k hi ha =>
    refine h.leaves (fun j c hc => ?_) rfl
    by_cases hj : j = i
    · subst hj
      change Function.update s.actor j _ j = _ at hc
      rw [Function.update_self] at hc
      cases hc
    · exact (Function.update_of_ne hj _ _).symm.trans hc
  | @notExecuted i p args k hi ha =>
    have hlin := h.linear _ _ ha
    change Linear k at hlin
    have hsub : uses k ⊆ uses (Prog.exec p args k) := fun q hq => hq
    exact h.goes ha hlin hsub rfl (fun q hq => h.fresh _ _ ha q (hsub hq)) fun _ _ => rfl
  | @exited t i status r evs hi ha hcall =>
    refine h.leaves (fun j c hc => ?_) rfl
    by_cases hj : j = i
    · subst hj
      change Function.update s.actor j _ j = _ at hc
      rw [Function.update_self] at hc
      cases hc
    · exact (Function.update_of_ne hj _ _).symm.trans hc
  | @call t i c r evs hi ha hcall =>
    refine h.leaves (fun j code hc => ?_) rfl
    change s.after i r c j = _ at hc
    cases c with
    | fork memory =>
      simp only [after] at hc
      split at hc
      · exact absurd hc (ha code)
      · exact hc
    | exit =>
      by_cases hj : j = i
      · subst hj
        simp [after] at hc
      · rwa [after, Function.update_of_ne hj] at hc
    | «open» omode found => exact hc
    | dup n => exact hc
    | close n => exact hc
    | pipe copied => exact hc
  | reap hi => exact h.leaves (fun _ _ hc => hc) rfl
  | transfer hread hwrite => exact h.leaves (fun _ _ hc => hc) rfl
  | other hother => exact h.leaves (fun _ _ hc => hc) rfl

/-! ### What the open files are -/

/-- The file is what its role says. `t₀` are the files at the start. -/
def Means (t₀ : Files) (s : Sys) (f : Nat) : Source Nat Place → Prop
  | .old g => f = g ∧ (t₀.file g).Same (s.files.file f)
  | .opened p => s.made p = some (s.files.file f).ip ∧ (s.files.file f).type ≠ .FD_PIPE
  | .stem p w => ∃ pi, s.made p = some pi ∧ s.files.IsEnd pi w f

abbrev Start := Config nofile Nat Place (List (Nat × Nat)) Redir

/-- A process that has come out of `c₀` executes a program at `p` with a descriptor for `σ`. -/
def Gave (c₀ : Start) (p : Place) (σ : Source Nat Place) : Prop :=
  ∃ args k T e, Relation.ReflTransGen Next c₀ ⟨.exec p args k, T⟩ ∧ T e = some σ

/-- The descriptors `X` are those of a process in which `a` runs. -/
def Plays (c₀ : Start) (role : Nat → Option (Source Nat Place)) (X : Descriptors.Table nofile Nat) : Actor → Prop
  | .outside => ∀ d f σ, X d = some f → role f = some σ → ∃ g, σ = .old g
  | .shell code => ∃ T, Relation.ReflTransGen Next c₀ ⟨code, T⟩ ∧ ∀ d, (X d).map role = (T d).map some
  | .program p => ∀ d f σ, X d = some f → role f = some σ → Gave c₀ p σ

/-- The processes of the shell have the tables that are computed without the others, and no one else has a descriptor for
what the shell has made, the programs that it has executed apart. -/
structure Wired (V : Arena) (t₀ : Files) (c₀ : Start) (s : Sys) : Prop where
  holds : ∃ P, s.files.Holds V 0 P
  means : ∀ f σ, s.role f = some σ → IsOpen s.files f ∧ Means t₀ s f σ
  paired : ∀ p w f pi w' g, s.role f = some (.stem p w) → s.files.IsEnd pi w f → s.files.IsEnd pi w' g → s.role g = some (.stem p w')
  plays : ∀ j, s.files.Awake j → Plays c₀ s.role (s.files.table j) (s.actor j)

variable {t₀ : Files} {c₀ : Start} {role role' : Nat → Option (Source Nat Place)} {X X' : Descriptors.Table nofile Nat} {a : Actor}
  {f g : Nat} {σ : Source Nat Place} {P : Finset Nat}

lemma isOpen_iff (h : t.Holds V 0 P) : IsOpen t f ↔ f < nfile ∧ (t.file f).ref ≠ 0 := by
  constructor
  · rintro ⟨x, hx⟩
    have hpos := h.ref_pos hx le_rfl
    exact ⟨h.range x f hx, by omega⟩
  · rintro ⟨hlt, href⟩
    by_contra hno
    have hzero : Pointers.count Finset.univ t.ofile f = 0 :=
      Pointers.count_eq_zero fun x _ hx => hno ⟨x, hx⟩
    have hcount := h.refs f hlt
    rw [hzero] at hcount
    exact href (by simpa using hcount)

lemma isOpen_of_table (h : t.table j d = some f) : IsOpen t f := ⟨(j, d), h⟩

lemma isOpen_of_isEnd {pi : Nat} {w : Bool} (h : t.Holds V 0 P) (hf : t.IsEnd pi w f) : IsOpen t f := by
  rw [isOpen_iff h]
  refine ⟨hf.lt, fun hzero => ?_⟩
  have htype := h.free f hf.lt hzero
  rw [hf.type] at htype
  cases htype

lemma Plays.congr (h : Plays c₀ role X a) (hrole : ∀ d f, X d = some f → role' f = role f) : Plays c₀ role' X a := by
  cases a with
  | outside =>
    intro d f σ hd hf
    exact h d f σ hd (by rwa [hrole d f hd] at hf)
  | shell code =>
    obtain ⟨T, hreach, hT⟩ := h
    refine ⟨T, hreach, fun d => ?_⟩
    rw [← hT d]
    cases hd : X d with
    | none => rfl
    | some f => simp [hrole d f hd]
  | program p =>
    intro d f σ hd hf
    exact h d f σ hd (by rwa [hrole d f hd] at hf)

/-- A process that is not one of the shell's may get descriptors for files without a role. -/
lemma Plays.less (h : Plays c₀ role X a) (ha : ∀ code, a ≠ .shell code)
    (hX : ∀ d f, X' d = some f → (∃ e, X e = some f) ∨ role f = none) : Plays c₀ role X' a := by
  have hback : ∀ d f σ, X' d = some f → role f = some σ → ∃ e, X e = some f := by
    intro d f σ hd hf
    apply (hX d f hd).resolve_right
    simp [hf]
  cases a with
  | outside =>
    intro d f σ hd hf
    obtain ⟨e, he⟩ := hback d f σ hd hf
    exact h e f σ he hf
  | shell code => exact absurd rfl (ha code)
  | program p =>
    intro d f σ hd hf
    obtain ⟨e, he⟩ := hback d f σ hd hf
    exact h e f σ he hf

lemma Means.kept (h : Means t₀ s f σ) (hsame : (s.files.file f).Same (s'.files.file f))
    (hmade : ∀ p x, s.made p = some x → s'.made p = some x) : Means t₀ s' f σ := by
  unfold File.Same at hsame
  cases σ with
  | old g =>
    obtain ⟨rfl, hold⟩ := h
    refine ⟨rfl, ?_⟩
    unfold File.Same at hold ⊢
    rw [hsame, hold]
  | opened p =>
    obtain ⟨hip, htype⟩ := h
    refine ⟨?_, ?_⟩
    · rw [hsame]
      exact hmade _ _ hip
    · rw [hsame]
      exact htype
  | stem p w =>
    obtain ⟨pi, hpi, hend⟩ := h
    refine ⟨pi, hmade _ _ hpi, hend.lt, ?_, ?_, ?_⟩
    · rw [hsame]
      exact hend.type
    · rw [hsame]
      exact hend.pipe
    · rw [hsame]
      exact hend.writable

/-- Where a file was and stays open, it is the same. -/
lemma same_of_open {P' : Finset Nat} (hs : s.files.Holds V 0 P) (hs' : s'.files.Holds V 0 P')
    (hfiles : ∀ f, (s.files.file f).Same (s'.files.file f) ∨ (s.files.file f).ref = 0 ∨ (s'.files.file f).ref = 0)
    (hf : IsOpen s.files f) (hf' : IsOpen s'.files f) : (s.files.file f).Same (s'.files.file f) := by
  rcases hfiles f with hsame | hzero | hzero
  · exact hsame
  · exact absurd hzero ((isOpen_iff hs).mp hf).2
  · exact absurd hzero ((isOpen_iff hs').mp hf').2

/-- A step after which the open files have their old roles, or new ones that they deserve. -/
lemma Wired.next (role : Nat → Option (Source Nat Place)) (h : Wired V t₀ c₀ s) (hs' : ∃ P, s'.files.Holds V 0 P)
    (hfiles : ∀ f, (s.files.file f).Same (s'.files.file f) ∨ (s.files.file f).ref = 0 ∨ (s'.files.file f).ref = 0)
    (hrole : s'.role = prune s'.files role) (hkept : ∀ f, IsOpen s.files f → role f = s.role f)
    (hnew : ∀ f σ, role f = some σ → IsOpen s'.files f → IsOpen s.files f ∨ Means t₀ s' f σ)
    (hmade : ∀ p x, s.made p = some x → s'.made p = some x)
    (hpaired : ∀ p w f pi w' g, role f = some (.stem p w) → s'.files.IsEnd pi w f → s'.files.IsEnd pi w' g →
      IsOpen s.files f → IsOpen s.files g ∨ role g = some (.stem p w'))
    (hpaired' : ∀ p w f pi w' g, role f = some (.stem p w) → s'.files.IsEnd pi w f → s'.files.IsEnd pi w' g →
      ¬ IsOpen s.files f → role g = some (.stem p w'))
    (hplays : ∀ j, s'.files.Awake j → Plays c₀ role (s'.files.table j) (s'.actor j)) : Wired V t₀ c₀ s' := by
  obtain ⟨P, hP⟩ := h.holds
  obtain ⟨P', hP'⟩ := hs'
  have hopen : ∀ {f}, IsOpen s'.files f → s'.role f = role f := by
    intro f hf
    rw [hrole, prune_of_open hf]
  have hpruned : ∀ {f σ}, s'.role f = some σ → IsOpen s'.files f ∧ role f = some σ := by
    intro f σ hf
    rw [hrole] at hf
    exact prune_eq_some hf
  refine ⟨⟨P', hP'⟩, fun f σ hf => ?_, fun p w f pi w' g hf hend hend' => ?_, fun j hj => ?_⟩
  · obtain ⟨hf', hσ⟩ := hpruned hf
    refine ⟨hf', ?_⟩
    rcases hnew f σ hσ hf' with hold | hmeans
    · have hσ' : s.role f = some σ := (hkept f hold).symm.trans hσ
      exact (h.means f σ hσ').2.kept (same_of_open hP hP' hfiles hold hf') hmade
    · exact hmeans
  · obtain ⟨hf', hσ⟩ := hpruned hf
    have hg' := isOpen_of_isEnd hP' hend'
    rw [hopen hg']
    by_cases hfo : IsOpen s.files f
    · rcases hpaired p w f pi w' g hσ hend hend' hfo with hgo | hg
      · have hback : ∀ {k w}, IsOpen s.files k → IsOpen s'.files k → s'.files.IsEnd pi w k → s.files.IsEnd pi w k := by
          intro k w hk hk' hkend
          have hsame := same_of_open hP hP' hfiles hk hk'
          unfold File.Same at hsame
          have htype := hkend.type
          have hpipe := hkend.pipe
          have hwrite := hkend.writable
          rw [hsame] at htype hpipe hwrite
          exact ⟨hkend.lt, htype, hpipe, hwrite⟩
        rw [hkept g hgo]
        exact h.paired p w f pi w' g ((hkept f hfo).symm.trans hσ) (hback hfo hf' hend) (hback hgo hg' hend')
      · exact hg
    · exact hpaired' p w f pi w' g hσ hend hend' hfo
  · refine (hplays j hj).congr fun d f hd => hopen (isOpen_of_table hd)

/-- A step at which nothing is made at a place of the command. -/
lemma Wired.calm (h : Wired V t₀ c₀ s) (hs' : ∃ P, s'.files.Holds V 0 P)
    (hfiles : ∀ f, (s.files.file f).Same (s'.files.file f) ∨ (s.files.file f).ref = 0 ∨ (s'.files.file f).ref = 0)
    (hends : s.files.NoEnds s'.files) (hrole : s'.role = prune s'.files s.role) (hmade : s'.made = s.made)
    (hplays : ∀ j, s'.files.Awake j → Plays c₀ s.role (s'.files.table j) (s'.actor j)) : Wired V t₀ c₀ s' := by
  obtain ⟨P, hP⟩ := h.holds
  refine Wired.next s.role h hs' hfiles hrole (fun _ _ => rfl) (fun f σ hf _ => Or.inl (h.means f σ hf).1) (fun p x hx => hmade ▸ hx)
    (fun p w f pi w' g _ _ hend _ => Or.inl ?_) (fun p w f pi w' g hf _ _ hno => absurd (h.means f _ hf).1 hno) hplays
  exact isOpen_of_isEnd hP ⟨hend.lt, hends g hend.type, rfl, rfl⟩

/-- Process `i` goes on, and no other process is affected. -/
lemma Wired.goes (h : Wired V t₀ c₀ s) (ht : ∃ P, t.Holds V 0 P) (hch : Files.Changed s.files t i X) (hstate : ∀ j, j ≠ i → t.Awake j → s.files.Awake j)
    (hends : s.files.NoEnds t) (hplays : t.Awake i → Plays c₀ s.role X a) : Wired V t₀ c₀ (s.goes t i a) := by
  refine Wired.calm h ?_ ?_ ?_ (goes_role s t i a) rfl fun j hj => ?_
  · exact ht
  · exact hch.files
  · exact hends
  by_cases hji : j = i
  · subst hji
    change Plays c₀ s.role (t.table j) (Function.update s.actor j a j)
    rw [hch.own, Function.update_self]
    exact hplays hj
  · change Plays c₀ s.role (t.table j) (Function.update s.actor i a j)
    rw [hch.others j hji, Function.update_of_ne hji]
    exact h.plays j (hstate j hji hj)

/-- The descriptors of a process of the shell, as they are and as they are computed. -/
lemma Wired.table (h : Wired V t₀ c₀ s) (hi : s.files.Awake i) (ha : s.actor i = .shell code) :
    ∃ T, Relation.ReflTransGen Next c₀ ⟨code, T⟩ ∧ ∀ d, (s.files.table i d).map s.role = (T d).map some := by
  have hplays := h.plays i hi
  rw [ha] at hplays
  exact hplays

lemma lowest_shows {T : Descriptors.Table nofile (Source Nat Place)} (h : ∀ d, (X d).map role = (T d).map some) : lowest T = lowest X := by
  apply lowest_congr
  intro d
  have hd := congrArg Option.isNone (h d)
  simpa using hd.symm

/-- Computing a new descriptor. -/
lemma update_shows {T : Descriptors.Table nofile (Source Nat Place)} (h : ∀ d, (X d).map role = (T d).map some) (hf : role f = some σ) (d e : Fin nofile) :
    (Function.update X d (some f) e).map role = (Function.update T d (some σ) e).map some := by
  by_cases hed : e = d
  · simp [hed, hf]
  · simp [hed, h e]

lemma shut_shows {T : Descriptors.Table nofile (Source Nat Place)} (h : ∀ d, (X d).map role = (T d).map some) (n : Nat) (e : Fin nofile) :
    (shut X n e).map role = (shut T n e).map some := by
  by_cases hen : e.val = n
  · rw [← hen, shut_self, shut_self]
    rfl
  · rw [shut_of_ne _ hen, shut_of_ne _ hen, h e]

lemma get_shows {T : Descriptors.Table nofile (Source Nat Place)} (h : ∀ d, (X d).map role = (T d).map some) (n : Nat) :
    (Descriptors.get X n).map role = (Descriptors.get T n).map some := by
  simp only [Descriptors.get]
  split
  · exact h _
  · rfl

lemma copied_shows {T : Descriptors.Table nofile (Source Nat Place)} (h : ∀ d, (X d).map role = (T d).map some) (n : Nat) (e : Fin nofile) :
    (copied X n e).map role = (copied T n e).map some := by
  have hget := get_shows h n
  have hlow := lowest_shows h
  simp only [copied]
  cases hX : Descriptors.get X n with
  | none =>
    rw [hX] at hget
    have hT : Descriptors.get T n = none := by simpa using hget.symm
    rw [hT]
    exact h e
  | some f =>
    rw [hX] at hget
    cases hT : Descriptors.get T n with
    | none =>
      rw [hT] at hget
      cases hget
    | some σ =>
      rw [hT] at hget
      have hf : role f = some σ := Option.some.inj hget
      simp only [Option.elim_some, place]
      rw [hlow]
      cases lowest X with
      | none => exact h e
      | some d => exact update_shows h hf d e

lemma exists_of_shut {n : Nat} (h : shut X n d = some f) : ∃ e, X e = some f := by
  by_cases hd : d.val = n
  · rw [← hd, shut_self] at h
    cases h
  · rw [shut_of_ne _ hd] at h
    exact ⟨d, h⟩

lemma exists_of_copied {n : Nat} (h : copied X n d = some f) : ∃ e, X e = some f := by
  simp only [copied] at h
  cases hget : Descriptors.get X n with
  | none =>
    rw [hget] at h
    exact ⟨d, h⟩
  | some g =>
    rw [hget, Option.elim_some, place] at h
    cases hlow : lowest X with
    | none =>
      rw [hlow] at h
      exact ⟨d, h⟩
    | some e =>
      rw [hlow, Option.elim_some] at h
      by_cases hd : d = e
      · rw [hd, Function.update_self] at h
        cases h
        simp only [Descriptors.get] at hget
        split at hget
        · exact ⟨_, hget⟩
        · cases hget
      · rw [Function.update_of_ne hd] at h
        exact ⟨d, h⟩

/-- The files of a new pipe are not the other end of an old one. -/
lemma apart_of_piped {P P' : Finset Nat} {f0 f1 pi₀ pi : Nat} {w w' : Bool} (hP : s.files.Holds V 0 P) (hP' : t.Holds V 0 P')
    (hends : ∀ f, (t.file f).type = .FD_PIPE → (s.files.file f).type = .FD_PIPE ∨ f = f0 ∨ f = f1)
    (hzero0 : (s.files.file f0).ref = 0) (hzero1 : (s.files.file f1).ref = 0) (hend0 : t.IsEnd pi₀ false f0)
    (hend1 : t.IsEnd pi₀ true f1) (hf : IsOpen s.files f) (hend : t.IsEnd pi w f) (hend' : t.IsEnd pi w' g) : IsOpen s.files g := by
  have hnew : ∀ {k}, k = f0 ∨ k = f1 → ¬ IsOpen s.files k := by
    rintro k (rfl | rfl) hk
    · exact ((isOpen_iff hP).mp hk).2 hzero0
    · exact ((isOpen_iff hP).mp hk).2 hzero1
  rcases hends g hend'.type with htype | hg
  · exact isOpen_of_isEnd hP ⟨hend'.lt, htype, rfl, rfl⟩
  · exfalso
    have hpi : pi₀ = pi := by
      rcases hg with rfl | rfl
      · exact hend0.pipe.symm.trans hend'.pipe
      · exact hend1.pipe.symm.trans hend'.pipe
    subst hpi
    cases w with
    | false => exact hnew (Or.inl (hP'.unique _ _ _ _ hend0 hend)) hf
    | true => exact hnew (Or.inr (hP'.unique _ _ _ _ hend1 hend)) hf

/-- A call of a process that is not one of the shell's. -/
lemma Wired.free {P' : Finset Nat} (h : Wired V t₀ c₀ s) (ht : t.Holds V 0 P') (hi : s.files.Awake i) (ha : ∀ code, s.actor i ≠ .shell code)
    (hch : Files.Changed s.files t i X) (hstate : t.state = s.files.state)
    (hX : ∀ d f, X d = some f → (∃ e, s.files.table i e = some f) ∨ s.role f = none)
    (hapart : ∀ f pi w w' g, IsOpen s.files f → t.IsEnd pi w f → t.IsEnd pi w' g → IsOpen s.files g) :
    Wired V t₀ c₀ { s with files := t, actor := s.actor, role := prune t s.role } := by
  refine Wired.next s.role h ⟨P', ht⟩ hch.files ?_ (fun _ _ => rfl) (fun f σ hf _ => Or.inl (h.means f σ hf).1)
    (fun _ _ => id) (fun p w f pi w' g _ hend hend' hf => Or.inl (hapart f pi w w' g hf hend hend'))
    (fun p w f pi w' g hf _ _ hno => absurd (h.means f _ hf).1 hno) fun j hj => ?_
  · simp only
  · have hawake : s.files.Awake j := by
      simp only [Files.Awake] at hj ⊢
      rwa [hstate] at hj
    change Plays c₀ s.role (t.table j) (s.actor j)
    by_cases hji : j = i
    · subst hji
      rw [hch.own]
      exact (h.plays j hawake).less ha hX
    · rw [hch.others j hji]
      exact h.plays j hawake

lemma Wired.role_none {P : Finset Nat} (h : Wired V t₀ c₀ s) (hP : s.files.Holds V 0 P) (hzero : (s.files.file f).ref = 0) :
    s.role f = none := by
  cases hf : s.role f with
  | none => rfl
  | some σ => exact absurd hzero ((isOpen_iff hP).mp (h.means f σ hf).1).2

lemma awake_congr (h : t.state = s.files.state) (hj : t.Awake j) : s.files.Awake j := by
  simp only [Files.Awake] at hj ⊢
  rwa [h] at hj

/-- Processes that are not the shell's make any calls. -/
lemma Wired.call {P P' : Finset Nat} {c : FileCall} {r : Int} {evs : List FileEvent} (h : Wired V t₀ c₀ s) (hP : s.files.Holds V 0 P)
    (ht : t.Holds V 0 P') (hi : s.files.Awake i) (ha : ∀ code, s.actor i ≠ .shell code) (hcall : s.files.call i c = .ok (r, evs, t)) :
    Wired V t₀ c₀ { s with files := t, actor := s.after i r c, role := prune t s.role } := by
  have hquiet : s.files.NoEnds t → ∀ f pi w w' g, IsOpen s.files f → t.IsEnd pi w f → t.IsEnd pi w' g → IsOpen s.files g :=
    fun hends f pi w w' g _ _ hend => isOpen_of_isEnd hP ⟨hend.lt, hends g hend.type, rfl, rfl⟩
  have hown : ∀ d f, s.files.table i d = some f → (∃ e, s.files.table i e = some f) ∨ s.role f = none :=
    fun d f hd => Or.inl ⟨d, hd⟩
  cases c with
  | «open» omode found =>
    obtain ⟨hstate, hends, hor⟩ := Files.sysOpen_ok hcall
    rcases hor with ⟨-, hch⟩ | ⟨d, f, ip, -, -, -, hch, hzero, -⟩
    · exact h.free ht hi ha hch hstate hown (hquiet hends)
    · refine h.free ht hi ha hch hstate (fun e g he => ?_) (hquiet hends)
      by_cases hed : e = d
      · rw [hed, Function.update_self] at he
        cases he
        exact Or.inr (h.role_none hP hzero)
      · rw [Function.update_of_ne hed] at he
        exact hown e g he
  | dup n =>
    rcases lt_or_ge n 0 with hneg | hpos
    · change s.files.sysDup i n = _ at hcall
      rw [Files.sysDup, Files.argfd_neg hneg] at hcall
      cases hcall
      exact h.free ht hi ha (.refl _ _) rfl hown (hquiet fun _ => id)
    · obtain ⟨m, rfl⟩ := Int.eq_ofNat_of_zero_le hpos
      obtain ⟨hch, hstate, hends⟩ := Files.sysDup_ok hcall
      exact h.free ht hi ha hch hstate (fun d f hd => Or.inl (exists_of_copied hd)) (hquiet hends)
  | close n =>
    rcases lt_or_ge n 0 with hneg | hpos
    · change s.files.sysClose i n = _ at hcall
      rw [Files.sysClose, Files.argfd_neg hneg] at hcall
      cases hcall
      exact h.free ht hi ha (.refl _ _) rfl hown (hquiet fun _ => id)
    · obtain ⟨m, rfl⟩ := Int.eq_ofNat_of_zero_le hpos
      obtain ⟨hch, hstate, hends⟩ := Files.sysClose_ok hcall
      exact h.free ht hi ha hch hstate (fun d f hd => Or.inl (exists_of_shut hd)) (hquiet hends)
  | pipe copied =>
    obtain ⟨hstate, hor⟩ := Files.sysPipe_ok hcall
    rcases hor with ⟨-, hch, hends⟩ | ⟨d, e, f0, f1, pi₀, -, -, -, hch, -, hzero0, hzero1, hend0, hend1, hends⟩
    · exact h.free ht hi ha hch hstate hown (hquiet hends)
    · refine h.free ht hi ha hch hstate (fun k g hk => ?_) fun f pi w w' g hf hend hend' =>
        apart_of_piped hP ht hends hzero0 hzero1 hend0 hend1 hf hend hend'
      by_cases hke : k = e
      · rw [hke, Function.update_self] at hk
        cases hk
        exact Or.inr (h.role_none hP hzero1)
      rw [Function.update_of_ne hke] at hk
      by_cases hkd : k = d
      · rw [hkd, Function.update_self] at hk
        cases hk
        exact Or.inr (h.role_none hP hzero0)
      · rw [Function.update_of_ne hkd] at hk
        exact hown k g hk
  | fork memory =>
    rcases Files.kfork_ok hP hi hcall with ⟨hneg, rfl⟩ | ⟨j, hji, rfl, hunused, hstate, hch, hends⟩
    · have hsame : s.after i r (.fork memory) = s.actor := by
        funext k
        simp only [after]
        rw [if_neg (by omega)]
      rw [hsame]
      exact h.free ht hi ha (.refl _ _) rfl hown (hquiet fun _ => id)
    · refine Wired.calm h ⟨P', ht⟩ hch.files hends ?_ rfl fun k hk => ?_
      · simp only
      · change Plays c₀ s.role (t.table k) (s.after i j.val (.fork memory) k)
        simp only [after]
        by_cases hkj : k = j
        · subst hkj
          rw [if_pos rfl, hch.own]
          exact h.plays i hi
        · rw [if_neg (fun heq => hkj (Fin.ext (by omega))), hch.others k hkj]
          apply h.plays k
          simp only [Files.Awake] at hk ⊢
          rwa [hstate, Function.update_of_ne hkj] at hk
  | exit =>
    obtain ⟨hstate, hch, hends⟩ := Files.kexit_ok hcall
    refine Wired.calm h ⟨P', ht⟩ hch.files hends ?_ rfl fun k hk => ?_
    · simp only
    · change Plays c₀ s.role (t.table k) (s.after i r .exit k)
      simp only [after]
      by_cases hki : k = i
      · subst hki
        rw [Function.update_self, hch.own]
        intro d f σ hd
        cases hd
      · rw [Function.update_of_ne hki, hch.others k hki]
        apply h.plays k
        simp only [Files.Awake] at hk ⊢
        rwa [hstate, Function.update_of_ne hki] at hk

/-- A redirection opens its file. -/
lemma Wired.opens {P P' : Finset Nat} {p : Place} {file : Redir} {k fail : Code} {found : Option (Nat × InodeType × Int)}
    {evs : List FileEvent} (h : Wired V t₀ c₀ s) (hP : s.files.Holds V 0 P) (ht : t.Holds V 0 P') (hi : s.files.Awake i)
    (ha : s.actor i = .shell (.open p file k fail)) (hfresh : s.made p = none)
    (hcall : s.files.sysOpen i file.mode found = .ok (d.val, evs, t)) (hf : t.table i d = some f) :
    Wired V t₀ c₀ { s.goes t i (.shell k) with
      role := prune t (Function.update s.role f (some (.opened p)))
      made := Function.update s.made p (some (t.file f).ip) } := by
  obtain ⟨hstate, hends, hor⟩ := Files.sysOpen_ok hcall
  obtain ⟨d', f', ip, -, hlow, hr, hch, hzero, -, hip, htype⟩ := hor.resolve_left (by omega)
  obtain rfl : d = d' := Fin.ext (by omega)
  rw [hch.own, Function.update_self] at hf
  cases hf
  have hne : ∀ {g}, IsOpen s.files g → g ≠ f := by
    rintro g hg rfl
    exact ((isOpen_iff hP).mp hg).2 hzero
  have hrole : ∀ {g σ}, Function.update s.role f (some (.opened p)) g = some σ → g = f ∧ σ = .opened p ∨ s.role g = some σ := by
    intro g σ hg
    by_cases hgf : g = f
    · rw [hgf, Function.update_self] at hg
      exact Or.inl ⟨hgf, (Option.some.inj hg).symm⟩
    · rw [Function.update_of_ne hgf] at hg
      exact Or.inr hg
  have hkept : ∀ g, IsOpen s.files g → Function.update s.role f (some (.opened p)) g = s.role g :=
    fun g hg => Function.update_of_ne (hne hg) _ _
  refine Wired.next (Function.update s.role f (some (.opened p))) h ⟨P', ht⟩ hch.files ?_ hkept ?_ ?_ ?_ ?_ fun j hj => ?_
  · simp only [goes_files]
  · intro g σ hg _
    rcases hrole hg with ⟨rfl, rfl⟩ | hold
    · exact Or.inr ⟨Function.update_self _ _ _, htype⟩
    · exact Or.inl (h.means g σ hold).1
  · intro q x hq
    have hqp : q ≠ p := by
      rintro rfl
      rw [hfresh] at hq
      cases hq
    exact (Function.update_of_ne hqp _ _).trans hq
  · intro q w g pi w' g' _ _ hend _
    exact Or.inl (isOpen_of_isEnd hP ⟨hend.lt, hends g' hend.type, rfl, rfl⟩)
  · intro q w g pi w' g' hg _ _ hno
    rcases hrole hg with ⟨-, hσ⟩ | hold
    · cases hσ
    · exact absurd (h.means g _ hold).1 hno
  · change Plays c₀ _ (t.table j) (Function.update s.actor i (.shell k) j)
    by_cases hji : j = i
    · subst hji
      obtain ⟨T, hreach, hT⟩ := h.table hi ha
      rw [hch.own, Function.update_self]
      refine ⟨_, hreach.tail (.opened ((lowest_shows hT).trans hlow)), fun e => ?_⟩
      by_cases hed : e = d
      · simp [hed]
      · rw [Function.update_of_ne hed, Function.update_of_ne hed, ← hT e]
        cases hX : s.files.table j e with
        | none => rfl
        | some g => simp [hkept g (isOpen_of_table hX)]
    · rw [Function.update_of_ne hji, hch.others j hji]
      exact (h.plays j (awake_congr hstate hj)).congr fun e g hg => hkept g (isOpen_of_table hg)

/-- A pipe is made. -/
lemma Wired.pipes {P P' : Finset Nat} {p : Place} {k : Nat → Nat → Code} {fail : Code} {evs : List FileEvent}
    (h : Wired V t₀ c₀ s) (hP : s.files.Holds V 0 P) (ht : t.Holds V 0 P') (hi : s.files.Awake i)
    (ha : s.actor i = .shell (.pipe p k fail)) (hfresh : s.made p = none) (hcall : s.files.sysPipe i true = .ok (0, evs, t))
    (hd : lowest (s.files.table i) = some d) (hf : t.table i d = some f)
    (he : lowest (Function.update (s.files.table i) d (some f)) = some e) (hg : t.table i e = some g) :
    Wired V t₀ c₀ { s.goes t i (.shell (k d e)) with
      role := prune t (Function.update (Function.update s.role f (some (.stem p false))) g (some (.stem p true)))
      made := Function.update s.made p (some (t.file f).pipe) } := by
  obtain ⟨hstate, hor⟩ := Files.sysPipe_ok hcall
  obtain ⟨d', e', f', g', pi₀, hd', he', -, hch, hne, hzero, hzero', hend, hend', hends⟩ := hor.resolve_left (by simp)
  obtain rfl : d = d' := Option.some.inj (hd.symm.trans hd')
  have hlow : ∀ {x y : Nat}, lowest (Function.update (s.files.table i) d (some x)) = lowest (Function.update (s.files.table i) d (some y)) := by
    intro x y
    apply lowest_congr
    intro a
    by_cases had : a = d
    · simp [had]
    · simp [had]
  obtain rfl : e = e' := Option.some.inj (he.symm.trans (hlow.trans he'))
  have hed : e ≠ d := by
    rintro rfl
    have hbusy := lowest_free he
    simp at hbusy
  rw [hch.own, Function.update_of_ne hed.symm, Function.update_self] at hf
  rw [hch.own, Function.update_self] at hg
  cases hf
  cases hg
  obtain ⟨role₁, hrole₁⟩ : ∃ role₁, role₁ = Function.update (Function.update s.role f (some (.stem p false))) g (some (.stem p true)) :=
    ⟨_, rfl⟩
  rw [← hrole₁]
  have hread : role₁ f = some (.stem p false) := by
    rw [hrole₁, Function.update_of_ne hne, Function.update_self]
  have hwrite : role₁ g = some (.stem p true) := by
    rw [hrole₁, Function.update_self]
  have hkept : ∀ a, IsOpen s.files a → role₁ a = s.role a := by
    intro a ha'
    have haf : a ≠ f := by
      rintro rfl
      exact ((isOpen_iff hP).mp ha').2 hzero
    have hag : a ≠ g := by
      rintro rfl
      exact ((isOpen_iff hP).mp ha').2 hzero'
    rw [hrole₁, Function.update_of_ne hag, Function.update_of_ne haf]
  have hrole : ∀ {a σ}, role₁ a = some σ → a = f ∧ σ = .stem p false ∨ a = g ∧ σ = .stem p true ∨ s.role a = some σ := by
    intro a σ hσ
    by_cases hag : a = g
    · rw [hag, hwrite] at hσ
      exact Or.inr (Or.inl ⟨hag, (Option.some.inj hσ).symm⟩)
    by_cases haf : a = f
    · rw [haf, hread] at hσ
      exact Or.inl ⟨haf, (Option.some.inj hσ).symm⟩
    · rw [hrole₁, Function.update_of_ne hag, Function.update_of_ne haf] at hσ
      exact Or.inr (Or.inr hσ)
  have hpipe : (t.file f).pipe = pi₀ := hend.pipe
  refine Wired.next role₁ h ⟨P', ht⟩ hch.files ?_ hkept ?_ ?_ ?_ ?_ fun j hj => ?_
  · simp only [goes_files]
  · intro a σ hσ _
    rcases hrole hσ with ⟨rfl, rfl⟩ | ⟨rfl, rfl⟩ | hold
    · exact Or.inr ⟨pi₀, (Function.update_self _ _ _).trans (congrArg some hpipe), hend⟩
    · exact Or.inr ⟨pi₀, (Function.update_self _ _ _).trans (congrArg some hpipe), hend'⟩
    · exact Or.inl (h.means a σ hold).1
  · intro q x hq
    have hqp : q ≠ p := by
      rintro rfl
      rw [hfresh] at hq
      cases hq
    exact (Function.update_of_ne hqp _ _).trans hq
  · intro q w a pi w' a' _ haend haend' hopen
    exact Or.inl (apart_of_piped hP ht hends hzero hzero' hend hend' hopen haend haend')
  · intro q w a pi w' a' hσ haend haend' hno
    have hends' : ∀ {w'}, t.IsEnd pi₀ w' a' → role₁ a' = some (.stem p w') := by
      intro w' ha'
      cases w' with
      | false =>
        rw [ht.unique _ _ _ _ hend ha', hread]
      | true =>
        rw [ht.unique _ _ _ _ hend' ha', hwrite]
    rcases hrole hσ with ⟨rfl, heq⟩ | ⟨rfl, heq⟩ | hold
    · cases heq
      have hpi : pi = pi₀ := haend.pipe.symm.trans hend.pipe
      exact hends' (hpi ▸ haend')
    · cases heq
      have hpi : pi = pi₀ := haend.pipe.symm.trans hend'.pipe
      exact hends' (hpi ▸ haend')
    · exact absurd (h.means a _ hold).1 hno
  · change Plays c₀ _ (t.table j) (Function.update s.actor i (.shell (k d e)) j)
    by_cases hji : j = i
    · subst hji
      obtain ⟨T, hreach, hT⟩ := h.table hi ha
      rw [hch.own, Function.update_self]
      have hT' : ∀ a, (Function.update (s.files.table j) d (some f) a).isNone =
          (Function.update T d (some (Source.stem p false)) a).isNone := by
        intro a
        have ha' := congrArg Option.isNone (hT a)
        by_cases had : a = d
        · simp [had]
        · simpa [had] using ha'
      refine ⟨_, hreach.tail (.piped ((lowest_shows hT).trans hd) ((lowest_congr hT').symm.trans he)), fun a => ?_⟩
      by_cases hae : a = e
      · simp [hae, hwrite]
      by_cases had : a = d
      · rw [Function.update_of_ne hae, Function.update_of_ne hae]
        simp [had, hread]
      · rw [Function.update_of_ne hae, Function.update_of_ne hae, Function.update_of_ne had, Function.update_of_ne had, ← hT a]
        cases hX : s.files.table j a with
        | none => rfl
        | some b => simp [hkept b (isOpen_of_table hX)]
    · rw [Function.update_of_ne hji, hch.others j hji]
      exact (h.plays j (awake_congr hstate hj)).congr fun a b hb => hkept b (isOpen_of_table hb)

/-- The process of the shell and all others after any step. -/
lemma Wired.step (h : Wired V t₀ c₀ s) (ho : Once s) (hstep : Step V s s') : Wired V t₀ c₀ s' := by
  obtain ⟨P, hP⟩ := h.holds
  obtain ⟨P', hP'⟩ := hstep.holds hP
  have hprune : prune s.files s.role = s.role := by
    funext f
    unfold prune
    split
    · rfl
    · next hno =>
      cases hf : s.role f with
      | none => rfl
      | some σ => exact absurd (h.means f σ hf).1 hno
  cases hstep with
  | @close t i d k r evs hi ha hcall =>
    obtain ⟨hch, hstate, hends⟩ := Files.sysClose_ok hcall
    obtain ⟨T, hreach, hT⟩ := h.table hi ha
    exact h.goes ⟨P', hP'⟩ hch (fun _ _ hj => awake_congr hstate hj) hends fun _ => ⟨_, hreach.tail .close, shut_shows hT d⟩
  | @dup t i d k r evs hi ha hcall =>
    obtain ⟨hch, hstate, hends⟩ := Files.sysDup_ok hcall
    obtain ⟨T, hreach, hT⟩ := h.table hi ha
    exact h.goes ⟨P', hP'⟩ hch (fun _ _ hj => awake_congr hstate hj) hends fun _ => ⟨_, hreach.tail .dup, copied_shows hT d⟩
  | @opened t i p file k fail d f found evs hi ha hcall hf =>
    exact h.opens hP hP' hi ha (ho.fresh _ _ ha p (Or.inl rfl)) hcall hf
  | @notOpened t i p file k fail r found evs hi ha hcall hr =>
    obtain ⟨hstate, hends, hor⟩ := Files.sysOpen_ok hcall
    obtain ⟨T, hreach, hT⟩ := h.table hi ha
    rcases hor with ⟨-, hch⟩ | ⟨d', f', ip, -, -, heq, -⟩
    · exact h.goes ⟨P', hP'⟩ hch (fun _ _ hj => awake_congr hstate hj) hends fun _ => ⟨T, hreach.tail .notOpened, hT⟩
    · omega
  | @piped t i p k fail d e f g evs hi ha hcall hd hf he hg =>
    exact h.pipes hP hP' hi ha (ho.fresh _ _ ha p (Or.inl rfl)) hcall hd hf he hg
  | @notPiped t i p k fail r evs hi ha hcall hr =>
    obtain ⟨hstate, hor⟩ := Files.sysPipe_ok hcall
    obtain ⟨T, hreach, hT⟩ := h.table hi ha
    rcases hor with ⟨-, hch, hends⟩ | ⟨d', e', f', g', pi₀, -, -, heq, -⟩
    · exact h.goes ⟨P', hP'⟩ hch (fun _ _ hj => awake_congr hstate hj) hends fun _ => ⟨T, hreach.tail .notPiped, hT⟩
    · omega
  | @forked t i j child parent fail memory evs hi ha hcall =>
    obtain ⟨T, hreach, hT⟩ := h.table hi ha
    rcases Files.kfork_ok hP hi hcall with ⟨hneg, -⟩ | ⟨j', hji, hj, -, hstate, hch, hends⟩
    · omega
    obtain rfl : j = j' := Fin.ext (by omega)
    refine Wired.calm h ⟨P', hP'⟩ hch.files hends ?_ rfl fun k hk => ?_
    · simp only [goes_files, goes_role]
    · change Plays c₀ s.role (t.table k) (Function.update (Function.update s.actor i (.shell parent)) j (.shell child) k)
      by_cases hkj : k = j
      · subst hkj
        rw [Function.update_self, hch.own]
        exact ⟨T, hreach.tail .child, hT⟩
      rw [Function.update_of_ne hkj, hch.others k hkj]
      by_cases hki : k = i
      · subst hki
        rw [Function.update_self]
        exact ⟨T, hreach.tail .parent, hT⟩
      · rw [Function.update_of_ne hki]
        apply h.plays k
        change t.Awake k at hk
        simp only [Files.Awake] at hk ⊢
        rwa [hstate, Function.update_of_ne hkj] at hk
  | @notForked t i child parent fail memory r evs hi ha hcall hr =>
    obtain ⟨T, hreach, hT⟩ := h.table hi ha
    rcases Files.kfork_ok hP hi hcall with ⟨-, rfl⟩ | ⟨j', -, hj, -⟩
    · exact h.goes ⟨P', hP'⟩ (.refl _ _) (fun _ _ hj => hj) (fun _ => id) fun _ => ⟨T, hreach.tail .notForked, hT⟩
    · omega
  | @waited i p k hi ha =>
    obtain ⟨T, hreach, hT⟩ := h.table hi ha
    exact h.goes ⟨P', hP'⟩ (.refl _ _) (fun _ _ hj => hj) (fun _ => id) fun _ => ⟨T, hreach.tail .waited, hT⟩
  | @executed i p args k hi ha =>
    obtain ⟨T, hreach, hT⟩ := h.table hi ha
    refine h.goes ⟨P', hP'⟩ (.refl _ _) (fun _ _ hj => hj) (fun _ => id) fun _ d f σ hd hf => ?_
    have hTd := hT d
    rw [hd, Option.map_some, hf] at hTd
    cases hσ : T d with
    | none =>
      rw [hσ] at hTd
      cases hTd
    | some τ =>
      rw [hσ] at hTd
      cases hTd
      exact ⟨args, k, T, d, hreach, hσ⟩
  | @notExecuted i p args k hi ha =>
    obtain ⟨T, hreach, hT⟩ := h.table hi ha
    exact h.goes ⟨P', hP'⟩ (.refl _ _) (fun _ _ hj => hj) (fun _ => id) fun _ => ⟨T, hreach.tail .failed, hT⟩
  | @exited t i status r evs hi ha hcall =>
    obtain ⟨hstate, hch, hends⟩ := Files.kexit_ok hcall
    refine h.goes ⟨P', hP'⟩ hch (fun j hji hj => ?_) hends fun _ d f σ hd => (by cases hd)
    simp only [Files.Awake] at hj ⊢
    rwa [hstate, Function.update_of_ne hji] at hj
  | @call t i c r evs hi ha hcall => exact h.call hP hP' hi ha hcall
  | @reap i hi =>
    refine Wired.calm h ⟨P', hP'⟩ (fun _ => Or.inl rfl) (fun _ => id) ?_ rfl fun j hj => ?_
    · exact hprune.symm
    · apply h.plays j
      by_cases hji : j = i
      · subst hji
        exact absurd (Function.update_self _ _ _) hj.1
      · simp only [Files.Awake] at hj ⊢
        rwa [Function.update_of_ne hji] at hj
  | transfer hread hwrite =>
    exact Wired.calm h ⟨P', hP'⟩ (fun _ => Or.inl rfl) (fun _ => id) hprune.symm rfl fun j hj => h.plays j hj
  | other hother =>
    exact Wired.calm h ⟨P', hP'⟩ (fun _ => Or.inl rfl) (fun _ => id) hprune.symm rfl fun j hj => h.plays j hj

/-! ### Runs -/

/-- The descriptors that were there before. -/
def given (t : Files) (i : Fin nproc) : Descriptors.Table nofile (Source Nat Place) := fun d => (t.table i d).map .old

lemma wired_start {P : Finset Nat} (hP : t.Holds V 0 P) (i : Fin nproc) (cmd : Cmd) :
    Wired V t ⟨runcmd [] cmd, given t i⟩ (start t i cmd) ∧ Once (start t i cmd) := by
  have hrole : ∀ {f σ}, (start t i cmd).role f = some σ → IsOpen t f ∧ σ = .old f := by
    intro f σ hf
    rw [start_role] at hf
    obtain ⟨hopen, hσ⟩ := prune_eq_some hf
    exact ⟨hopen, (Option.some.inj hσ).symm⟩
  have hshell : ∀ {j code}, (start t i cmd).actor j = .shell code → j = i ∧ code = runcmd [] cmd := by
    intro j code hj
    rw [start_actor] at hj
    by_cases hji : j = i
    · subst hji
      rw [Function.update_self] at hj
      cases hj
      exact ⟨rfl, rfl⟩
    · rw [Function.update_of_ne hji] at hj
      cases hj
  refine ⟨⟨⟨P, hP⟩, fun f σ hf => ?_, fun p w f pi w' g hf => ?_, fun j hj => ?_⟩, fun j code hj => ?_, fun j code hj p _ => rfl,
    fun j k code code' hjk hj hk => ?_⟩
  · obtain ⟨hopen, rfl⟩ := hrole hf
    exact ⟨hopen, rfl, rfl⟩
  · cases (hrole hf).2
  · rw [start_actor]
    by_cases hji : j = i
    · subst hji
      rw [Function.update_self, start_role]
      refine ⟨_, .refl, fun d => ?_⟩
      change (t.table j d).map _ = ((t.table j d).map Source.old).map some
      cases hX : t.table j d with
      | none => rfl
      | some f => simp [prune_of_open (isOpen_of_table hX)]
    · rw [Function.update_of_ne hji]
      intro d f σ _ hf
      exact ⟨f, (hrole hf).2⟩
  · rw [(hshell hj).2]
    exact linear_runcmd _ _
  · exact absurd ((hshell hj).1.trans (hshell hk).1.symm) hjk

lemma wired_run {P : Finset Nat} {cmd : Cmd} (hP : t.Holds V 0 P) (hrun : Relation.ReflTransGen (Step V) (start t i cmd) s) :
    Wired V t ⟨runcmd [] cmd, given t i⟩ s ∧ Once s := by
  induction hrun with
  | refl => exact wired_start hP i cmd
  | tail _ hstep ih =>
    obtain ⟨hw, ho⟩ := ih
    obtain ⟨P', hP'⟩ := hw.holds
    exact ⟨hw.step ho hstep, ho.step hP' hstep⟩

lemma given_table {f0 f1 : Nat} (hin : Descriptors.get (t.table i) 0 = some f0) (hout : Descriptors.get (t.table i) 1 = some f1) :
    (⟨.old f0, .old f1⟩ : Streams).table (given t i) = given t i := by
  ext d
  simp only [Streams.table]
  split
  · next hd =>
    rw [← hd, get_coe] at hin
    simp [given, hin]
  split
  · next hd =>
    rw [← hd, get_coe] at hout
    simp [given, hout]
  · rfl

/-- The arguments of a process that is about to execute a program, and its place. -/
def executes : Actor → Option (Place × List (Nat × Nat))
  | .shell (.exec p args _) => some (p, args)
  | _ => none

/-- Where in the command a process has come to, once it executes a program or waits. -/
def place : Actor → Option Place
  | .program p => some p
  | .shell (.exec p _ _) => some p
  | .shell (.wait p _) => some p
  | _ => none

/-- Not a process of the shell that is still on its way to a part of the command. -/
def calm : Actor → Bool
  | .shell (.exec _ _ _) => true
  | .shell (.wait _ _) => true
  | .shell _ => false
  | _ => true

/-- Calls one after another. -/
def calls (t : Files) : List (Fin nproc × FileCall) → Option Files
  | [] => some t
  | (i, c) :: l =>
    if ¬ t.Awake i then none
    else
      match t.call i c with
      | .ok (_, _, t) => calls t l
      | .error _ => none

lemma calls_holds {P : Finset Nat} {t t' : Files} {l : List (Fin nproc × FileCall)} (hP : t.Holds V 0 P) (h : calls t l = some t') :
    ∃ P', t'.Holds V 0 P' := by
  induction l generalizing t P with
  | nil =>
    cases h
    exact ⟨P, hP⟩
  | cons x l ih =>
    obtain ⟨i, c⟩ := x
    simp only [calls] at h
    split at h
    · cases h
    next hno =>
    split at h
    · next r evs t₁ hcall =>
      obtain ⟨P₁, hP₁, -⟩ := hP.step (.call (not_not.mp hno) hcall)
      exact ih hP₁ h
    · cases h

/-- The console is open as 0 and 1, in the first process and in the shell. -/
def console : Option Files := calls onePageFiles [(0, .open 2 (some (5, .T_DEVICE, 1))), (0, .dup 0), (0, .fork true)]

/-- The line `|b`. -/
def upstream : Cmd := .pipe (.exec []) (.exec [(1, 2)])

/-- The shell forks twice and waits, the left side has nothing to execute, and the right side is ready. -/
def upstreamRun : Option (Files × Sys) :=
  console.bind fun t => ((start t 1 upstream).runs none [1, 1, 1, 1, 1, 2, 2, 2, 2, 2, 3, 3, 3, 3]).map fun s => (t, s)

lemma onePage_books : onePageFree.Books onePage 0 := by
  refine ⟨List.nodup_singleton _, fun a => ?_, fun a ha => absurd ha (Multiset.notMem_zero a),
    fun a ha => absurd ha (Multiset.notMem_zero a)⟩
  change a ∈ [kernbase] ↔ a ∈ ({kernbase} : Set Nat) ∧ a ∉ (0 : Multiset Nat)
  simp

lemma upstream_parsed : parsecmd 20 [124, 98, 0] = .ok (upstream, [124, 98, 0]) := by
  rfl

lemma upstreamRun_run (h : upstreamRun = some (t, s)) :
    (∃ P, t.Holds onePage 0 P) ∧ Relation.ReflTransGen (Step onePage) (start t 1 upstream) s := by
  obtain ⟨t', hconsole, hmap⟩ := Option.bind_eq_some_iff.mp h
  obtain ⟨s', hruns, heq⟩ := Option.map_eq_some_iff.mp hmap
  cases heq
  exact ⟨calls_holds (Files.holds_boot onePage_books) hconsole, runs_steps hruns⟩

lemma upstream_facts : ∃ t s, upstreamRun = some (t, s) ∧
    (Descriptors.get (t.table 1) 0 = some 0 ∧ Descriptors.get (t.table 1) 1 = some 0) ∧
    (s.files.Awake 3 ∧ executes (s.actor 3) = some ([true], [(1, 2)])) ∧
    (∀ j, s.files.Awake j → calm (s.actor j) = true) ∧
    (∀ j, s.files.Awake j → ∀ q ∈ place (s.actor j), ¬ [] ++ [!true] <+: q) ∧
    s.role 1 = some (.stem [] (!true)) := by
  have hany : upstreamRun.any (fun x => decide
      ((Descriptors.get (x.1.table 1) 0 = some 0 ∧ Descriptors.get (x.1.table 1) 1 = some 0) ∧
        (x.2.files.Awake 3 ∧ executes (x.2.actor 3) = some ([true], [(1, 2)])) ∧
        (∀ j, x.2.files.Awake j → calm (x.2.actor j) = true) ∧
        (∀ j, x.2.files.Awake j → ∀ q ∈ place (x.2.actor j), ¬ [] ++ [!true] <+: q) ∧
        x.2.role 1 = some (.stem [] (!true)))) = true := by
    decide +kernel
  obtain ⟨⟨t, s⟩, hrun, hcheck⟩ := (Option.any_eq_true _ _).mp hany
  exact ⟨t, s, hrun, of_decide_eq_true hcheck⟩

lemma awake_of_table {P : Finset Nat} (h : t.Holds V 0 P) (hd : t.table j d = some f) : t.Awake j := by
  constructor
  · intro hunused
    have hnone := h.idle j (Or.inl hunused) d
    rw [Files.table] at hd
    rw [hnone] at hd
    cases hd
  · intro hzombie
    have hnone := h.idle j (Or.inr hzombie) d
    rw [Files.table] at hd
    rw [hnone] at hd
    cases hd

/-- A stream of a part of the command is an end of a pipe only on that side of the pipe. -/
lemma stem_below {io₀ io : Streams} {cmd c : Cmd} {p q : Place} {w : Bool} {x y : Nat} (hin : io₀.input = .old x) (hout : io₀.output = .old y)
    (hpart : part cmd [] io₀ q = some (c, io)) (hd : io.table (given t i) d = some (.stem p w)) : p ++ [!w] <+: q := by
  obtain ⟨hinput, houtput⟩ : (io.input = .stem p w → _) ∧ (io.output = .stem p w → _) := part_stem hpart
  rw [hin] at hinput
  rw [hout] at houtput
  simp only [Streams.table] at hd
  split at hd
  · rcases hinput (Option.some.inj hd) with hold | ⟨rfl, hbelow⟩
    · cases hold
    · exact hbelow
  split at hd
  · rcases houtput (Option.some.inj hd) with hold | ⟨rfl, hbelow⟩
    · cases hold
    · exact hbelow
  · simp only [given] at hd
    cases htable : t.table i d <;> rw [htable] at hd <;> cases hd

/-- One side of a pipe that still exists on the other: when no process is left that has come out of that side of the
command, and those of the shell wait or are about to execute a program, its end is closed, whoever ran when. -/
theorem pipeline_hangs_up {P : Finset Nat} {fuel f0 f1 : Nat} {buf buf' : Str} {cmd : Cmd} {p : Place} {w : Bool}
    (hparse : parsecmd fuel buf = .ok (cmd, buf')) (hP : t.Holds V 0 P) (hin : Descriptors.get (t.table i) 0 = some f0)
    (hout : Descriptors.get (t.table i) 1 = some f1) (hrun : Relation.ReflTransGen (Step V) (start t i cmd) s)
    (hcalm : ∀ j, s.files.Awake j → calm (s.actor j) = true)
    (hgone : ∀ j, s.files.Awake j → ∀ q ∈ place (s.actor j), ¬ p ++ [!w] <+: q)
    (hf : s.role f = some (.stem p (!w))) : (s.files.pipe (s.files.file f).pipe).isOpen w = false := by
  obtain ⟨hw, -⟩ := wired_run hP hrun
  obtain ⟨P', hP'⟩ := hw.holds
  obtain ⟨-, pi, -, hend⟩ := hw.means f _ hf
  rw [hend.pipe, ← Bool.not_eq_true]
  intro hopen
  obtain ⟨g, hend'⟩ := hP'.ends pi w (hP'.live pi _ f hend).1 hopen
  have hg := hw.paired p _ f pi w g hf hend hend'
  obtain ⟨⟨j, d⟩, hjd⟩ := (hw.means g _ hg).1
  have hj := awake_of_table hP' hjd
  have hleads : Leads (Settled cmd ⟨.old f0, .old f1⟩ (given t i)) ⟨runcmd [] cmd, Streams.table ⟨.old f0, .old f1⟩ (given t i)⟩ :=
    runcmd_leads (parsecmd_standard hparse) (part_nil cmd [] _)
  rw [given_table hin hout] at hleads
  have hplays := hw.plays j hj
  cases ha : s.actor j with
  | outside =>
    rw [ha] at hplays
    obtain ⟨x, hx⟩ := hplays d g _ hjd hg
    cases hx
  | shell code =>
    obtain ⟨T, hreach, hT⟩ := hw.table hj ha
    have hd := hT d
    rw [show s.files.table j d = some g from hjd, Option.map_some, hg] at hd
    have hTd : T d = some (.stem p w) := by
      cases hTd : T d with
      | none =>
        rw [hTd] at hd
        cases hd
      | some σ =>
        rw [hTd] at hd
        cases hd
        rfl
    have hsettled := hleads _ hreach
    have hplace := hcalm j hj
    rw [ha] at hplace
    cases code with
    | exec q args k =>
      obtain ⟨io, hpart, rfl⟩ := hsettled
      exact hgone j hj q (by rw [ha]; rfl) (stem_below rfl rfl hpart hTd)
    | wait q k =>
      obtain ⟨c, io, hpart, rfl⟩ := hsettled
      exact hgone j hj q (by rw [ha]; rfl) (stem_below rfl rfl hpart hTd)
    | exit status => cases hplace
    | close d' k => cases hplace
    | dup d' k => cases hplace
    | «open» q file k fail => cases hplace
    | pipe q k fail => cases hplace
    | fork child parent fail => cases hplace
  | program q =>
    rw [ha] at hplays
    obtain ⟨args, k, T, e, hreach, hTe⟩ := hplays d g _ hjd hg
    obtain ⟨io, hpart, rfl⟩ := hleads _ hreach
    exact hgone j hj q (by rw [ha]; rfl) (stem_below rfl rfl hpart hTe)

/-- The left side has ended. -/
theorem pipeline_hangs_up_upstream : ∃ t s, upstreamRun = some (t, s) ∧ (s.files.pipe (s.files.file 1).pipe).isOpen true = false := by
  obtain ⟨t, s, hrun, ⟨hin, hout⟩, -, hcalm, hgone, hrole⟩ := upstream_facts
  obtain ⟨⟨P, hP⟩, hsteps⟩ := upstreamRun_run hrun
  exact ⟨t, s, hrun, pipeline_hangs_up upstream_parsed hP hin hout hsteps hcalm hgone hrole⟩

end Sys

end FogOS.Shell.Sh
