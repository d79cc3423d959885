import FogOS.Kernel.OpenFiles
import FogOS.Lib.Descriptors

/-!
# The tables of descriptors

What the calls that deal with open files do to the descriptors of the processes: a new descriptor is the lowest that
is free, the table of another process changes only when that process is forked, and a file that stays open stays
what it is.
-/

namespace FogOS.Kernel

open Descriptors

/-- Apart from its count the file is the same. -/
def File.Same (x y : File) : Prop := y = { x with ref := y.ref }

namespace Files

variable {V : Arena} {s t u : Files} {P : Finset Nat} {i j : Fin nproc} {evs : List FileEvent} {f g n : Nat} {r : Int}

/-- The descriptors of a process. -/
def table (s : Files) (i : Fin nproc) : Descriptors.Table nofile Nat := fun fd => s.ofile (i, fd)

/-- From `s` to `t` the table of one process has become `T`. A file that is open before and after is the same. -/
structure Changed (s t : Files) (i : Fin nproc) (T : Descriptors.Table nofile Nat) : Prop where
  own : t.table i = T
  others : ∀ j, j ≠ i → t.table j = s.table j
  files : ∀ f, (s.file f).Same (t.file f) ∨ (s.file f).ref = 0 ∨ (t.file f).ref = 0

lemma Changed.refl (s : Files) (i : Fin nproc) : Changed s s i (s.table i) := ⟨rfl, fun _ _ => rfl, fun _ => Or.inl rfl⟩

/-! ### Descriptors -/

lemma table_setOfile (s : Files) (i : Fin nproc) (fd : Fin nofile) (v : Option Nat) :
    (s.setOfile (i, fd) v).table i = Function.update (s.table i) fd v := by
  ext e
  by_cases he : e = fd
  · simp [table, setOfile, he]
  · simp [table, setOfile, he]

lemma table_setOfile_of_ne (s : Files) {i j : Fin nproc} (h : j ≠ i) (fd : Fin nofile) (v : Option Nat) :
    (s.setOfile (i, fd) v).table j = s.table j := by
  ext e
  simp [table, setOfile, h]

lemma fdalloc_none (h : lowest (s.table i) = none) (f : Nat) : s.fdalloc i f = (none, s) := by
  have hfind : ((List.finRange nofile).find? fun fd => (s.ofile (i, fd)).isNone) = none := h
  rw [fdalloc, hfind]

lemma fdalloc_some {fd : Fin nofile} (h : lowest (s.table i) = some fd) (f : Nat) :
    s.fdalloc i f = (some fd, s.setOfile (i, fd) (some f)) := by
  have hfind : ((List.finRange nofile).find? fun fd => (s.ofile (i, fd)).isNone) = some fd := h
  rw [fdalloc, hfind]

lemma argfd_none (h : Descriptors.get (s.table i) n = none) : s.argfd i n = none := by
  simp only [argfd]
  split
  · next hn =>
    have hlt : n < nofile := by omega
    simp only [Descriptors.get, hlt, dif_pos, table] at h
    simp [h]
  · rfl

lemma argfd_neg {m : Int} (h : m < 0) : s.argfd i m = none := by
  simp only [argfd]
  rw [dif_neg (by omega)]

lemma argfd_get (h : Descriptors.get (s.table i) n = some f) : ∃ fd : Fin nofile, fd.val = n ∧ s.argfd i n = some (fd, f) := by
  simp only [Descriptors.get] at h
  split at h
  · next hlt =>
    refine ⟨⟨n, hlt⟩, rfl, ?_⟩
    simp only [argfd]
    rw [dif_pos ⟨by omega, by omega⟩]
    simp only [table] at h
    simp [h]
  · cases h

/-! ### Files -/

lemma pipeclose_file (s : Files) (pi : Nat) (w : Bool) : (s.pipeclose pi w).2.file = s.file := by
  unfold Files.pipeclose
  dsimp only
  split <;> rfl

/-- Closing a file touches no other one. -/
lemma fileclose_ok (h : s.fileclose f = .ok (evs, t)) : t.ofile = s.ofile ∧ t.state = s.state ∧ (∀ g, g ≠ f → t.file g = s.file g) ∧
    ((s.file f).Same (t.file f) ∨ (t.file f).ref = 0) := by
  unfold fileclose at h
  split at h
  · cases h
  split at h
  · cases h
    refine ⟨rfl, rfl, fun g hg => setFile_of_ne _ _ hg, Or.inl ?_⟩
    rw [setFile_self]
    rfl
  · have hself := setFile_self s f { s.file f with ref := 0, type := .FD_NONE }
    dsimp only at h
    split at h
    · have heq := congrArg Prod.snd (pure_ok h)
      change t = _ at heq
      rw [heq, pipeclose_ofile, pipeclose_state, pipeclose_file, hself]
      exact ⟨rfl, rfl, fun g hg => setFile_of_ne _ _ hg, Or.inr rfl⟩
    all_goals
      cases h
      rw [hself]
      exact ⟨rfl, rfl, fun g hg => setFile_of_ne _ _ hg, Or.inr rfl⟩

/-- A file that is not open stays so. -/
lemma fileclose_zero (h : s.fileclose f = .ok (evs, t)) (hg : (s.file g).ref = 0) : (t.file g).ref = 0 := by
  obtain ⟨-, -, hfile, -⟩ := fileclose_ok h
  have hne : g ≠ f := by
    rintro rfl
    unfold fileclose at h
    rw [if_pos (by omega)] at h
    cases h
  rw [hfile g hne, hg]

/-- No file has become an end of a pipe. -/
def NoEnds (s t : Files) : Prop := ∀ f, (t.file f).type = .FD_PIPE → (s.file f).type = .FD_PIPE

lemma NoEnds.refl (s : Files) : NoEnds s s := fun _ => id

lemma NoEnds.trans (h : NoEnds s t) (h' : NoEnds t u) : NoEnds s u := fun f hf => h f (h' f hf)

lemma NoEnds.setFile {x : File} (hx : x.type = .FD_PIPE → (s.file f).type = .FD_PIPE) : NoEnds s (s.setFile f x) := by
  intro g hg
  by_cases hgf : g = f
  · subst hgf
    rw [setFile_self] at hg
    exact hx hg
  · rwa [setFile_of_ne _ _ hgf] at hg

lemma NoEnds.fileclose (h : s.fileclose f = .ok (evs, t)) : NoEnds s t := by
  unfold Files.fileclose at h
  split at h
  · cases h
  split at h
  · cases h
    exact .setFile id
  · have hset : NoEnds s (s.setFile f { s.file f with ref := 0, type := .FD_NONE }) := .setFile fun h => (by cases h)
    dsimp only at h
    split at h
    · have heq := congrArg Prod.snd (pure_ok h)
      change t = _ at heq
      intro g hg
      rw [heq, pipeclose_file] at hg
      exact hset g hg
    all_goals
      cases h
      exact hset

/-- When the last descriptor is closed, the file is free. -/
lemma fileclose_last (h : s.fileclose f = .ok (evs, t)) (href : (s.file f).ref = 1) : (t.file f).type = .FD_NONE := by
  have hself := setFile_self s f { s.file f with ref := 0, type := .FD_NONE }
  unfold fileclose at h
  rw [href] at h
  dsimp only at h
  rw [if_neg (by decide), if_neg (by decide)] at h
  split at h
  · have heq := congrArg Prod.snd (pure_ok h)
    change t = _ at heq
    rw [heq, pipeclose_file, hself]
  all_goals
    cases h
    rw [hself]

lemma filealloc_ok (h : s.filealloc = (some f, t)) : f < nfile ∧ (s.file f).ref = 0 ∧ t = s.setFile f { s.file f with ref := 1 } := by
  unfold filealloc at h
  split at h
  · cases h
  · next hfind =>
    cases h
    have hmem := List.mem_of_find?_eq_some hfind
    have href := List.find?_some hfind
    exact ⟨by simpa using hmem, by simpa using href, rfl⟩

lemma closeBoth_ok {rf wf : Nat} (h : s.closeBoth rf wf = .ok (evs, t)) :
    t.ofile = s.ofile ∧ t.state = s.state ∧ NoEnds s t ∧ ∀ g, g ≠ rf → g ≠ wf → t.file g = s.file g := by
  unfold closeBoth at h
  obtain ⟨⟨evs₁, u⟩, hrf, h⟩ := bind_ok h
  obtain ⟨⟨evs₂, u'⟩, hwf, h⟩ := bind_ok h
  cases h
  obtain ⟨hofile, hstate, hfile, -⟩ := fileclose_ok hrf
  obtain ⟨hofile', hstate', hfile', -⟩ := fileclose_ok hwf
  refine ⟨hofile'.trans hofile, hstate'.trans hstate, (NoEnds.fileclose hrf).trans (.fileclose hwf), fun g hgr hgw => ?_⟩
  rw [hfile' g hgw, hfile g hgr]

/-! ### Calls -/

lemma sysClose_ok (h : s.sysClose i n = .ok (r, evs, t)) :
    Changed s t i (shut (s.table i) n) ∧ t.state = s.state ∧ NoEnds s t := by
  unfold sysClose at h
  cases hget : Descriptors.get (s.table i) n with
  | none =>
    rw [argfd_none hget] at h
    cases h
    have hsame : shut (s.table i) n = s.table i := by
      ext e
      by_cases he : e.val = n
      · rw [← he, get_coe] at hget
        rw [← he, shut_self, hget]
      · rw [shut_of_ne _ he]
    rw [hsame]
    exact ⟨.refl _ _, rfl, .refl _⟩
  | some f =>
    obtain ⟨fd, rfl, harg⟩ := argfd_get hget
    rw [harg] at h
    obtain ⟨⟨evs', u⟩, hclose, h⟩ := bind_ok h
    cases h
    obtain ⟨hofile, hstate, hfile, hself⟩ := fileclose_ok hclose
    have htable : ∀ j, t.table j = (s.setOfile (i, fd) none).table j := by
      intro j
      unfold table
      rw [hofile]
    refine ⟨⟨?_, fun j hj => ?_, fun g => ?_⟩, hstate, fun g hg => NoEnds.fileclose hclose g hg⟩
    · rw [htable, table_setOfile]
      ext e
      by_cases he : e = fd
      · simp [he, shut_self]
      · simp [he, shut_of_ne _ (Fin.val_ne_of_ne he)]
    · rw [htable, table_setOfile_of_ne s hj]
    · by_cases hg : g = f
      · rw [hg]
        exact hself.imp_right Or.inr
      · rw [hfile g hg]
        exact Or.inl rfl

lemma sysDup_ok (h : s.sysDup i n = .ok (r, evs, t)) :
    Changed s t i (copied (s.table i) n) ∧ t.state = s.state ∧ NoEnds s t := by
  unfold sysDup at h
  cases hget : Descriptors.get (s.table i) n with
  | none =>
    rw [argfd_none hget] at h
    cases h
    simp only [copied, hget, Option.elim_none]
    exact ⟨.refl _ _, trivial, .refl _⟩
  | some f =>
    obtain ⟨fd, -, harg⟩ := argfd_get hget
    rw [harg] at h
    dsimp only at h
    simp only [copied, hget, Option.elim_some, place]
    cases hlow : lowest (s.table i) with
    | none =>
      rw [fdalloc_none hlow] at h
      cases h
      exact ⟨.refl _ _, rfl, .refl _⟩
    | some d =>
      rw [fdalloc_some hlow] at h
      obtain ⟨u, hdup, h⟩ := bind_ok h
      cases h
      unfold filedup at hdup
      split at hdup
      · cases hdup
      · cases hdup
        have hends : NoEnds (s.setOfile (i, d) (some f)) ((s.setOfile (i, d) (some f)).setFile f
            { (s.setOfile (i, d) (some f)).file f with ref := ((s.setOfile (i, d) (some f)).file f).ref + 1 }) := .setFile id
        refine ⟨⟨table_setOfile _ _ _ _, fun j hj => table_setOfile_of_ne _ hj _ _, fun g => Or.inl ?_⟩, rfl, hends⟩
        by_cases hg : g = f
        · rw [hg, setFile_self]
          rfl
        · rw [setFile_of_ne _ _ hg]
          rfl

/-- A new file is opened, or nothing changes. -/
lemma sysOpen_ok {omode : Nat} {found : Option (Nat × InodeType × Int)} (h : s.sysOpen i omode found = .ok (r, evs, t)) :
    t.state = s.state ∧ NoEnds s t ∧ (r < 0 ∧ Changed s t i (s.table i) ∨ ∃ d f ip, found.map (·.1) = some ip ∧ lowest (s.table i) = some d ∧
      r = d.val ∧ Changed s t i (Function.update (s.table i) d (some f)) ∧ (s.file f).ref = 0 ∧ f < nfile ∧
      (t.file f).ip = ip ∧ (t.file f).type ≠ .FD_PIPE) := by
  have hstay : s.state = s.state ∧ NoEnds s s ∧ ((-1 : Int) < 0 ∧ Changed s s i (s.table i) ∨ ∃ d f ip, found.map (·.1) = some ip ∧
      lowest (s.table i) = some d ∧ (-1 : Int) = d.val ∧ Changed s s i (Function.update (s.table i) d (some f)) ∧
      (s.file f).ref = 0 ∧ f < nfile ∧ (s.file f).ip = ip ∧ (s.file f).type ≠ .FD_PIPE) :=
    ⟨rfl, .refl _, Or.inl ⟨by decide, .refl _ _⟩⟩
  unfold sysOpen at h
  split at h
  · cases h
    exact hstay
  next ip type major =>
  split at h
  · cases h
    exact hstay
  split at h
  · cases h
    exact hstay
  split at h
  · next halloc =>
    unfold filealloc at halloc
    split at halloc
    · cases halloc
      cases h
      exact hstay
    · cases halloc
  next f s₁ halloc =>
  obtain ⟨hlt, hzero, rfl⟩ := filealloc_ok halloc
  have hother : ∀ g, g ≠ f → (s.setFile f { s.file f with ref := 1 }).file g = s.file g := fun g hg => setFile_of_ne _ _ hg
  have hends : NoEnds s (s.setFile f { s.file f with ref := 1 }) := .setFile id
  cases hlow : lowest (s.table i) with
  | none =>
    rw [fdalloc_none (s := s.setFile f _) hlow] at h
    obtain ⟨⟨evs', u⟩, hclose, h⟩ := bind_ok h
    cases h
    obtain ⟨hofile, hstate, hfile, -⟩ := fileclose_ok hclose
    have htable : ∀ j, t.table j = s.table j := by
      intro j
      unfold table
      rw [hofile]
      rfl
    refine ⟨hstate, hends.trans (.fileclose hclose), Or.inl ⟨by decide, htable i, fun j _ => htable j, fun g => ?_⟩⟩
    · by_cases hg : g = f
      · rw [hg]
        exact Or.inr (Or.inl hzero)
      · rw [hfile g hg, hother g hg]
        exact Or.inl rfl
  | some d =>
    rw [fdalloc_some (s := s.setFile f _) hlow] at h
    cases h
    refine ⟨rfl, ?_, Or.inr ⟨d, f, ip, rfl, rfl, rfl, ⟨table_setOfile _ _ _ _, fun j hj => table_setOfile_of_ne _ hj _ _, fun g => ?_⟩,
      hzero, hlt, ?_, ?_⟩⟩
    · refine hends.trans fun g hg => ?_
      by_cases hgf : g = f
      · rw [hgf, setFile_self] at hg
        dsimp only at hg
        split at hg <;> cases hg
      · rwa [setFile_of_ne _ _ hgf] at hg
    · by_cases hg : g = f
      · rw [hg]
        exact Or.inr (Or.inl hzero)
      · rw [setFile_of_ne _ _ hg]
        refine Or.inl ?_
        change (s.file g).Same ((s.setFile f { s.file f with ref := 1 }).file g)
        rw [hother g hg]
        rfl
    · rw [setFile_self]
    · rw [setFile_self]
      dsimp only
      split <;> simp

lemma filealloc_none (h : s.filealloc = (none, t)) : t = s := by
  unfold filealloc at h
  split at h
  · cases h
    rfl
  · cases h

lemma pipeallocBad_ok {f0 f1 : Option Nat} (h : s.pipeallocBad 0 f0 f1 = .ok (evs, t)) : t.ofile = s.ofile ∧ t.state = s.state ∧
    NoEnds s t ∧ ∀ g, f0 ≠ some g → f1 ≠ some g → t.file g = s.file g := by
  have hclose : ∀ {u u' : Files} {evs : List FileEvent} {f : Option Nat}, f.elim (pure ([], u)) u.fileclose = .ok (evs, u') →
      u'.ofile = u.ofile ∧ u'.state = u.state ∧ NoEnds u u' ∧ ∀ g, f ≠ some g → u'.file g = u.file g := by
    intro u u' evs f hf
    cases f with
    | none =>
      cases hf
      exact ⟨rfl, rfl, .refl _, fun _ _ => rfl⟩
    | some f =>
      obtain ⟨hofile, hstate, hfile, -⟩ := fileclose_ok hf
      exact ⟨hofile, hstate, .fileclose hf, fun g hg => hfile g fun h => hg (by rw [h])⟩
  unfold pipeallocBad at h
  simp only [ne_eq, not_true_eq_false, if_false] at h
  obtain ⟨⟨evs₁, u⟩, h0, h⟩ := bind_ok h
  obtain ⟨⟨evs₂, u'⟩, h1, h⟩ := bind_ok h
  cases h
  obtain ⟨hofile, hstate, hends, hfile⟩ := hclose h0
  obtain ⟨hofile', hstate', hends', hfile'⟩ := hclose h1
  refine ⟨hofile'.trans hofile, hstate'.trans hstate, hends.trans hends', fun g hg0 hg1 => ?_⟩
  rw [hfile' g hg1, hfile g hg0]

/-- The files of a pipe that has failed are free again. -/
lemma closeBoth_ends {rf wf : Nat} (h : s.closeBoth rf wf = .ok (evs, t)) (hne : rf ≠ wf) (hrf : (s.file rf).ref = 1)
    (hwf : (s.file wf).ref = 1) : (t.file rf).type = .FD_NONE ∧ (t.file wf).type = .FD_NONE := by
  unfold closeBoth at h
  obtain ⟨⟨evs₁, u⟩, hclose, h⟩ := bind_ok h
  obtain ⟨⟨evs₂, u'⟩, hclose', h⟩ := bind_ok h
  cases h
  obtain ⟨-, -, hfile, -⟩ := fileclose_ok hclose
  obtain ⟨-, -, hfile', -⟩ := fileclose_ok hclose'
  refine ⟨?_, fileclose_last hclose' ?_⟩
  · rw [hfile' rf hne]
    exact fileclose_last hclose hrf
  · rw [hfile wf hne.symm, hwf]

/-- The files for the ends of a new pipe, or none. -/
lemma pipealloc_ok {o : Option (Nat × Nat)} (h : s.pipealloc = .ok (o, evs, t)) : t.ofile = s.ofile ∧ t.state = s.state ∧
    (∀ g, t.file g = s.file g ∨ (s.file g).ref = 0) ∧ (o = none ∧ NoEnds s t ∨ ∃ f0 f1 pi, o = some (f0, f1) ∧ f0 ≠ f1 ∧
      (s.file f0).ref = 0 ∧ (s.file f1).ref = 0 ∧ t.IsEnd pi false f0 ∧ t.IsEnd pi true f1 ∧
      (∀ f, (t.file f).type = .FD_PIPE → (s.file f).type = .FD_PIPE ∨ f = f0 ∨ f = f1) ∧
      (t.file f0).ref = 1 ∧ (t.file f1).ref = 1) := by
  unfold pipealloc at h
  rcases halloc0 : s.filealloc with ⟨_ | f0, s₁⟩
  · rw [halloc0] at h
    obtain ⟨⟨evs', u⟩, hbad, h⟩ := bind_ok h
    cases h
    obtain rfl := filealloc_none halloc0
    obtain ⟨hofile, hstate, hends, hfile⟩ := pipeallocBad_ok hbad
    exact ⟨hofile, hstate, fun g => Or.inl (hfile g (by simp) (by simp)), Or.inl ⟨rfl, hends⟩⟩
  obtain ⟨hlt0, hzero0, hs₁⟩ := filealloc_ok halloc0
  have hother0 : ∀ g, g ≠ f0 → s₁.file g = s.file g := by
    intro g hg
    rw [hs₁, setFile_of_ne _ _ hg]
  have hends₁ : NoEnds s s₁ := by
    rw [hs₁]
    exact .setFile id
  rw [halloc0] at h
  dsimp only at h
  rcases halloc1 : s₁.filealloc with ⟨_ | f1, s₂⟩
  · rw [halloc1] at h
    obtain ⟨⟨evs', u⟩, hbad, h⟩ := bind_ok h
    cases h
    obtain rfl := filealloc_none halloc1
    obtain ⟨hofile, hstate, hends, hfile⟩ := pipeallocBad_ok hbad
    refine ⟨hofile.trans (by rw [hs₁]; rfl), hstate.trans (by rw [hs₁]; rfl), fun g => ?_, Or.inl ⟨rfl, hends₁.trans hends⟩⟩
    by_cases hg : g = f0
    · exact Or.inr (hg ▸ hzero0)
    · exact Or.inl ((hfile g (by simpa using Ne.symm hg) (by simp)).trans (hother0 g hg))
  obtain ⟨hlt1, hzero1, hs₂⟩ := filealloc_ok halloc1
  have hne : f1 ≠ f0 := by
    rintro rfl
    rw [hs₁, setFile_self] at hzero1
    cases hzero1
  have hother1 : ∀ g, g ≠ f0 → g ≠ f1 → s₂.file g = s.file g := by
    intro g hg0 hg1
    rw [hs₂, setFile_of_ne _ _ hg1, hother0 g hg0]
  have hzero1' : (s.file f1).ref = 0 := by rw [← hother0 f1 hne, hzero1]
  have hends₂ : NoEnds s s₂ := by
    refine hends₁.trans ?_
    rw [hs₂]
    exact .setFile id
  have hofile₂ : s₂.ofile = s.ofile := by
    rw [hs₂, hs₁]
    rfl
  have hstate₂ : s₂.state = s.state := by
    rw [hs₂, hs₁]
    rfl
  have htouched : ∀ {u : Files}, (∀ g, g ≠ f0 → g ≠ f1 → u.file g = s₂.file g) → ∀ g, u.file g = s.file g ∨ (s.file g).ref = 0 := by
    intro u hu g
    by_cases hg0 : g = f0
    · exact Or.inr (hg0 ▸ hzero0)
    by_cases hg1 : g = f1
    · exact Or.inr (hg1 ▸ hzero1')
    · exact Or.inl ((hu g hg0 hg1).trans (hother1 g hg0 hg1))
  rw [halloc1] at h
  dsimp only at h
  rcases hk : s₂.kmem.kalloc with ⟨_ | pi, k⟩
  · rw [hk] at h
    obtain ⟨⟨evs', u⟩, hbad, h⟩ := bind_ok h
    cases h
    obtain ⟨hofile, hstate, hends, hfile⟩ := pipeallocBad_ok hbad
    exact ⟨hofile.trans hofile₂, hstate.trans hstate₂,
      htouched fun g hg0 hg1 => hfile g (by simpa using Ne.symm hg0) (by simpa using Ne.symm hg1),
      Or.inl ⟨rfl, hends₂.trans fun g hg => hends g hg⟩⟩
  · rw [hk] at h
    cases h
    refine ⟨hofile₂, hstate₂, htouched fun g hg0 hg1 => ?_, Or.inr ⟨f0, f1, pi, rfl, hne.symm, hzero0, hzero1', ?_, ?_, fun g hg => ?_, ?_, ?_⟩⟩
    · rw [setFile_of_ne _ _ hg1, setFile_of_ne _ _ hg0]
    · rw [isEnd_setFile_of_ne hne.symm, isEnd_setFile_self]
      exact ⟨hlt0, rfl, rfl, rfl⟩
    · rw [isEnd_setFile_self]
      exact ⟨hlt1, rfl, rfl, rfl⟩
    · by_cases hg1 : g = f1
      · exact Or.inr (Or.inr hg1)
      by_cases hg0 : g = f0
      · exact Or.inr (Or.inl hg0)
      · rw [setFile_of_ne _ _ hg1, setFile_of_ne _ _ hg0] at hg
        exact Or.inl (hends₂ g hg)
    · rw [setFile_of_ne _ _ hne.symm, setFile_self]
      dsimp only
      rw [hs₂, setFile_of_ne _ _ hne.symm, hs₁, setFile_self]
    · rw [setFile_self]
      dsimp only
      rw [setFile_of_ne _ _ hne, hs₂, setFile_self]

/-- A new pipe is made, or nothing changes. -/
lemma sysPipe_ok {copied : Bool} (h : s.sysPipe i copied = .ok (r, evs, t)) : t.state = s.state ∧
    (r < 0 ∧ Changed s t i (s.table i) ∧ NoEnds s t ∨ ∃ d e f0 f1 pi, lowest (s.table i) = some d ∧
      lowest (Function.update (s.table i) d (some f0)) = some e ∧ r = 0 ∧
      Changed s t i (Function.update (Function.update (s.table i) d (some f0)) e (some f1)) ∧
      f0 ≠ f1 ∧ (s.file f0).ref = 0 ∧ (s.file f1).ref = 0 ∧ t.IsEnd pi false f0 ∧ t.IsEnd pi true f1 ∧
      ∀ f, (t.file f).type = .FD_PIPE → (s.file f).type = .FD_PIPE ∨ f = f0 ∨ f = f1) := by
  unfold sysPipe at h
  obtain ⟨⟨o, evs₁, s₁⟩, halloc, h⟩ := bind_ok h
  obtain ⟨hofile, hstate, hfile, ho⟩ := pipealloc_ok halloc
  have htable : ∀ j, s₁.table j = s.table j := by
    intro j
    unfold table
    rw [hofile]
  rcases ho with ⟨rfl, hends⟩ | ⟨f0, f1, pi, rfl, hne, hzero0, hzero1, hend0, hend1, hends, href0, href1⟩
  · cases h
    refine ⟨hstate, Or.inl ⟨by decide, ⟨htable i, fun j _ => htable j, fun f => ?_⟩, hends⟩⟩
    rcases hfile f with hsame | hzero
    · rw [hsame]
      exact Or.inl rfl
    · exact Or.inr (Or.inl hzero)
  have hfiles : ∀ {u : Files}, (∀ g, g ≠ f0 → g ≠ f1 → u.file g = s₁.file g) →
      ∀ f, (s.file f).Same (u.file f) ∨ (s.file f).ref = 0 ∨ (u.file f).ref = 0 := by
    intro u hu f
    by_cases hf0 : f = f0
    · exact Or.inr (Or.inl (hf0 ▸ hzero0))
    by_cases hf1 : f = f1
    · exact Or.inr (Or.inl (hf1 ▸ hzero1))
    rcases hfile f with hsame | hzero
    · rw [hu f hf0 hf1, hsame]
      exact Or.inl rfl
    · exact Or.inr (Or.inl hzero)
  -- however the call fails, the table is as it was, and both files have been closed
  have hfail : ∀ {u v : Files} {evs' : List FileEvent}, u.table i = s.table i → (∀ j, j ≠ i → u.table j = s.table j) →
      u.file = s₁.file → u.state = s₁.state → u.closeBoth f0 f1 = .ok (evs', v) →
      v.state = s.state ∧ Changed s v i (s.table i) ∧ NoEnds s v := by
    intro u v evs' hown hothers hufile hustate hclose
    obtain ⟨hvofile, hvstate, hvends, hvfile⟩ := closeBoth_ok hclose
    obtain ⟨hnone0, hnone1⟩ := closeBoth_ends hclose hne (by rw [hufile, href0]) (by rw [hufile, href1])
    have hvtable : ∀ j, v.table j = u.table j := by
      intro j
      unfold table
      rw [hvofile]
    refine ⟨hvstate.trans (hustate.trans hstate), ⟨(hvtable i).trans hown, fun j hj => (hvtable j).trans (hothers j hj), ?_⟩,
      fun f hf => ?_⟩
    · exact hfiles fun g hg0 hg1 => (hvfile g hg0 hg1).trans (congrFun hufile g)
    · have hf' := hvends f hf
      rw [hufile] at hf'
      rcases hends f hf' with hold | rfl | rfl
      · exact hold
      · rw [hnone0] at hf
        cases hf
      · rw [hnone1] at hf
        cases hf
  dsimp only at h
  cases hd : lowest (s.table i) with
  | none =>
    rw [fdalloc_none (htable i ▸ hd)] at h
    obtain ⟨⟨evs', v⟩, hclose, h⟩ := bind_ok h
    cases h
    obtain ⟨hvstate, hchanged⟩ := hfail (htable i) (fun j _ => htable j) rfl rfl hclose
    exact ⟨hvstate, Or.inl ⟨by decide, hchanged⟩⟩
  | some d =>
    rw [fdalloc_some (htable i ▸ hd)] at h
    dsimp only at h
    have htable₂ : (s₁.setOfile (i, d) (some f0)).table i = Function.update (s.table i) d (some f0) := by
      rw [table_setOfile, htable]
    have hundo : Function.update (Function.update (s.table i) d (some f0)) d none = s.table i := by
      rw [Function.update_idem, ← lowest_free hd, Function.update_eq_self]
    cases he : lowest (Function.update (s.table i) d (some f0)) with
    | none =>
      rw [fdalloc_none (htable₂ ▸ he)] at h
      obtain ⟨⟨evs', v⟩, hclose, h⟩ := bind_ok h
      cases h
      obtain ⟨hvstate, hchanged⟩ := hfail (u := (s₁.setOfile (i, d) (some f0)).setOfile (i, d) none)
        (by rw [table_setOfile, htable₂, hundo])
        (fun j hj => by rw [table_setOfile_of_ne _ hj, table_setOfile_of_ne _ hj, htable]) rfl rfl hclose
      exact ⟨hvstate, Or.inl ⟨by decide, hchanged⟩⟩
    | some e =>
      rw [fdalloc_some (htable₂ ▸ he)] at h
      dsimp only at h
      have hed : e ≠ d := by
        rintro rfl
        have hbusy := lowest_free he
        simp at hbusy
      split at h
      · obtain ⟨⟨evs', v⟩, hclose, h⟩ := bind_ok h
        cases h
        have hundo' : Function.update (Function.update (Function.update (Function.update (s.table i) d (some f0)) e (some f1)) d none)
            e none = s.table i := by
          have hfree : s.table i e = none := by
            have hbusy := lowest_free he
            rwa [Function.update_of_ne hed] at hbusy
          ext a
          by_cases hae : a = e
          · simp [hae, hfree]
          by_cases had : a = d
          · simp [had, hed.symm, lowest_free hd]
          · simp [hae, had]
        obtain ⟨hvstate, hchanged⟩ := hfail
          (u := (((s₁.setOfile (i, d) (some f0)).setOfile (i, e) (some f1)).setOfile (i, d) none).setOfile (i, e) none)
          (by rw [table_setOfile, table_setOfile, table_setOfile, htable₂, hundo'])
          (fun j hj => by
            rw [table_setOfile_of_ne _ hj, table_setOfile_of_ne _ hj, table_setOfile_of_ne _ hj, table_setOfile_of_ne _ hj, htable])
          rfl rfl hclose
        exact ⟨hvstate, Or.inl ⟨by decide, hchanged⟩⟩
      · cases h
        refine ⟨hstate, Or.inr ⟨d, e, f0, f1, pi, rfl, he, rfl, ⟨?_, fun j hj => ?_, hfiles fun g _ _ => rfl⟩, hne, hzero0, hzero1,
          ⟨hend0.lt, hend0.type, hend0.pipe, hend0.writable⟩, ⟨hend1.lt, hend1.type, hend1.pipe, hend1.writable⟩, hends⟩⟩
        · rw [table_setOfile, htable₂]
        · rw [table_setOfile_of_ne _ hj, table_setOfile_of_ne _ hj, htable]

/-- The descriptors of the list are copied. -/
lemma forkFiles_ok {l : List (Fin nofile)} (hij : i ≠ j) (h : l.foldlM (forkFile i j) s = .ok t) : t.table i = s.table i ∧
    (∀ fd, t.table j fd = if fd ∈ l ∧ s.table i fd ≠ none then s.table i fd else s.table j fd) ∧
    (∀ k, k ≠ i → k ≠ j → t.table k = s.table k) ∧ t.state = s.state ∧ ∀ f, (s.file f).Same (t.file f) := by
  induction l generalizing s with
  | nil =>
    cases h
    exact ⟨rfl, fun fd => by simp, fun _ _ _ => rfl, rfl, fun _ => rfl⟩
  | cons d l ih =>
    rw [List.foldlM_cons] at h
    obtain ⟨s₁, hd, h⟩ := bind_ok h
    obtain ⟨hi, hj, hk, hstate, hfile⟩ := ih h
    unfold forkFile at hd
    split at hd
    · next hnone =>
      cases hd
      refine ⟨hi, fun fd => ?_, hk, hstate, hfile⟩
      rw [hj]
      by_cases hfd : fd = d
      · have hnone' : s.table i fd = none := hfd ▸ hnone
        simp [hnone']
      · simp [hfd]
    · next f hf =>
      obtain ⟨s₂, hdup, hd⟩ := bind_ok hd
      cases hd
      unfold filedup at hdup
      split at hdup
      · cases hdup
      cases hdup
      have hi₁ : ((s.setFile f { s.file f with ref := (s.file f).ref + 1 }).setOfile (j, d) (some f)).table i = s.table i :=
        table_setOfile_of_ne _ hij _ _
      rw [hi₁] at hi hj
      refine ⟨hi, fun fd => ?_, fun k hki hkj => (hk k hki hkj).trans (table_setOfile_of_ne _ hkj _ _), hstate, fun g => ?_⟩
      · rw [hj, table_setOfile]
        have hd' : s.table i d = some f := hf
        by_cases hfd : fd = d
        · simp [hfd, hd']
        · rw [Function.update_of_ne hfd]
          simp only [List.mem_cons, hfd, false_or]
          rfl
      · have hg := hfile g
        by_cases hgf : g = f
        · have hself : ((s.setFile f { s.file f with ref := (s.file f).ref + 1 }).setOfile (j, d) (some f)).file f =
              { s.file f with ref := (s.file f).ref + 1 } := setFile_self _ _ _
          rw [hgf, hself] at hg
          rw [hgf]
          exact hg
        · have hother : ((s.setFile f { s.file f with ref := (s.file f).ref + 1 }).setOfile (j, d) (some f)).file g = s.file g :=
            setFile_of_ne _ _ hgf
          rwa [hother] at hg

/-- The child has the descriptors of its parent. -/
lemma kfork_ok {memory : Bool} (hs : s.Holds V 0 P) (hi : s.Awake i) (h : s.kfork i memory = .ok (r, evs, t)) :
    r < 0 ∧ t = s ∨ ∃ j, j ≠ i ∧ r = j.val ∧ s.state j = .UNUSED ∧ t.state = Function.update s.state j .RUNNABLE ∧
      Changed s t j (s.table i) ∧ NoEnds s t := by
  unfold kfork at h
  split at h
  · cases h
    exact Or.inl ⟨by decide, rfl⟩
  next j hfind =>
  split at h
  · cases h
    exact Or.inl ⟨by decide, rfl⟩
  obtain ⟨s₁, hfork, h⟩ := bind_ok h
  cases h
  have hunused : s.state j = .UNUSED := by simpa using List.find?_some hfind
  have hij : i ≠ j := by
    rintro rfl
    exact hi.1 hunused
  obtain ⟨howner, hchild, hothers, hstate, hfile⟩ := forkFiles_ok hij hfork
  refine Or.inr ⟨j, hij.symm, rfl, hunused, ?_, ⟨?_, fun k hkj => ?_, fun f => Or.inl (hfile f)⟩, fun f hf => ?_⟩
  · dsimp only
    rw [hstate]
    dsimp only
    rw [Function.update_idem]
  · ext fd f
    have hfd := hchild fd
    have hnone : s.table j fd = none := hs.idle j (Or.inl hunused) fd
    change s₁.table j fd = some f ↔ _
    rw [hfd]
    by_cases hsome : s.table i fd = none
    · change (if fd ∈ List.finRange nofile ∧ s.table i fd ≠ none then s.table i fd else s.table j fd) = _ ↔ _
      simp [hsome, hnone]
    · change (if fd ∈ List.finRange nofile ∧ s.table i fd ≠ none then s.table i fd else s.table j fd) = _ ↔ _
      simp [hsome]
  · by_cases hki : k = i
    · rw [hki]
      exact howner
    · exact hothers k hki hkj
  · have hsame : s₁.file f = { s.file f with ref := (s₁.file f).ref } := hfile f
    change (s₁.file f).type = _ at hf
    rw [hsame] at hf
    exact hf

/-- The descriptors of the list are closed. -/
lemma exitFiles_ok {l : List (Fin nofile)} {evs₀ : List FileEvent} (h : l.foldlM (exitFile i) (evs₀, s) = .ok (evs, t)) :
    (∀ fd, t.table i fd = if fd ∈ l then none else s.table i fd) ∧ (∀ j, j ≠ i → t.table j = s.table j) ∧ t.state = s.state ∧
    NoEnds s t ∧ (∀ f, (s.file f).Same (t.file f) ∨ (t.file f).ref = 0) ∧ ∀ f, (s.file f).ref = 0 → (t.file f).ref = 0 := by
  induction l generalizing s evs₀ with
  | nil =>
    cases h
    exact ⟨fun fd => by simp, fun _ _ => rfl, rfl, .refl _, fun _ => Or.inl rfl, fun _ => id⟩
  | cons d l ih =>
    rw [List.foldlM_cons] at h
    obtain ⟨⟨evs₁, s₁⟩, hd, h⟩ := bind_ok h
    obtain ⟨hi, hj, hstate, hends, hfile, hzero⟩ := ih h
    simp only [exitFile] at hd
    split at hd
    · next hnone =>
      cases hd
      refine ⟨fun fd => ?_, hj, hstate, hends, hfile, hzero⟩
      rw [hi]
      by_cases hfd : fd = d
      · have hnone' : s.table i d = none := hnone
        simp [hfd, hnone']
      · simp [hfd]
    · next f hf =>
      obtain ⟨⟨evs₂, s₂⟩, hclose, hd⟩ := bind_ok hd
      cases hd
      obtain ⟨hofile, hcstate, hcfile, hself⟩ := fileclose_ok hclose
      have htable : ∀ k, s₂.table k = s.table k := by
        intro k
        unfold table
        rw [hofile]
      refine ⟨fun fd => ?_, fun k hk => ?_, hstate.trans hcstate,
        (NoEnds.fileclose hclose).trans fun g hg => hends g hg, fun g => ?_, fun g hg => hzero g ?_⟩
      · rw [hi, table_setOfile, htable]
        by_cases hfd : fd = d
        · simp [hfd]
        · simp [hfd]
      · rw [hj k hk, table_setOfile_of_ne _ hk, htable]
      · rcases hfile g with hsame | hgone
        · change (s₂.file g).Same (t.file g) at hsame
          by_cases hg : g = f
          · rw [hg] at hsame ⊢
            rcases hself with hself | hself
            · left
              unfold File.Same at hsame hself ⊢
              rw [hsame, hself]
            · exact Or.inr (hzero f hself)
          · rw [hcfile g hg] at hsame
            exact Or.inl hsame
        · exact Or.inr hgone
      · change (s₂.file g).ref = 0
        exact fileclose_zero hclose hg

/-- An exiting process has no descriptors any more. -/
lemma kexit_ok (h : s.kexit i = .ok (r, evs, t)) :
    t.state = Function.update s.state i .ZOMBIE ∧ Changed s t i (fun _ => none) ∧ NoEnds s t := by
  unfold kexit at h
  split at h
  · cases h
  obtain ⟨⟨evs₁, s₁⟩, hexit, h⟩ := bind_ok h
  cases h
  obtain ⟨howner, hothers, hstate, hends, hfile, -⟩ := exitFiles_ok hexit
  refine ⟨by rw [← hstate], ⟨?_, hothers, fun f => (hfile f).imp_right Or.inr⟩, fun f hf => hends f hf⟩
  ext fd f
  have hfd := howner fd
  rw [if_pos (List.mem_finRange fd)] at hfd
  change s₁.table i fd = some f ↔ _
  rw [hfd]

end Files

end FogOS.Kernel
