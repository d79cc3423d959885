import FogOS.Kernel.File

/-!
# Reference counts of open files

In the middle of a call the count of a file and the number of descriptors that point to it may differ;
the invariant says by how much. After every call they agree.
-/

namespace FogOS.Kernel

open Ledger

/-- The flag for one end of a pipe. -/
def Pipe.isOpen (p : Pipe) (writable : Bool) : Bool := if writable then p.writeopen else p.readopen

namespace Files

variable {V : Arena} {s t : Files} {X : Nat → Int} {P P' : Finset Nat} {f g pi : Nat} {w : Bool}
variable {i j : Fin nproc} {evs evs' : List FileEvent}

/-- The file is one end of the pipe. -/
structure IsEnd (s : Files) (pi : Nat) (w : Bool) (f : Nat) : Prop where
  lt : f < nfile
  type : (s.file f).type = .FD_PIPE
  pipe : (s.file f).pipe = pi
  writable : (s.file f).writable = w

/-- The counts are off by `X` from the numbers of descriptors, and `P` are the pages of pipes. -/
structure Holds (V : Arena) (s : Files) (X : Nat → Int) (P : Finset Nat) : Prop where
  books : s.kmem.Books V (s.held + P.val)
  refs : ∀ f < nfile, (s.file f).ref = Pointers.count Finset.univ s.ofile f + X f
  range : ∀ x f, s.ofile x = some f → f < nfile
  free : ∀ f < nfile, (s.file f).ref = 0 → (s.file f).type = .FD_NONE
  live : ∀ pi w f, s.IsEnd pi w f → pi ∈ P ∧ (s.pipe pi).isOpen w = true
  unique : ∀ pi w f g, s.IsEnd pi w f → s.IsEnd pi w g → g = f
  ends : ∀ pi w, pi ∈ P → (s.pipe pi).isOpen w = true → ∃ f, s.IsEnd pi w f
  some_end : ∀ pi ∈ P, ∃ w, (s.pipe pi).isOpen w = true
  idle : ∀ i, s.state i = .UNUSED ∨ s.state i = .ZOMBIE → ∀ fd, s.ofile (i, fd) = none

/-- Pages of pipes are allocated and freed as the events say. -/
def Balance (P : Finset Nat) (evs : List FileEvent) (P' : Finset Nat) : Prop :=
  ∀ pi, (if pi ∈ P then 1 else 0) + evs.count (.kalloc pi) = (if pi ∈ P' then 1 else 0) + evs.count (.kfree pi)

lemma Balance.nil (P : Finset Nat) : Balance P [] P := fun _ => rfl

lemma Balance.append {P'' : Finset Nat} (h : Balance P evs P') (h' : Balance P' evs' P'') :
    Balance P (evs ++ evs') P'' := by
  intro pi
  have := h pi
  have := h' pi
  rw [List.count_append, List.count_append]
  omega

/-! ### Files -/

lemma setFile_self (s : Files) (f : Nat) (x : File) : (s.setFile f x).file f = x := Function.update_self _ _ _

lemma setFile_of_ne (s : Files) (x : File) (hg : g ≠ f) : (s.setFile f x).file g = s.file g :=
  Function.update_of_ne hg _ _

lemma isEnd_congr (h : s.file = t.file) : s.IsEnd pi w f ↔ t.IsEnd pi w f := by
  constructor
  · rintro ⟨hlt, htype, hpipe, hwritable⟩
    rw [h] at htype hpipe hwritable
    exact ⟨hlt, htype, hpipe, hwritable⟩
  · rintro ⟨hlt, htype, hpipe, hwritable⟩
    rw [← h] at htype hpipe hwritable
    exact ⟨hlt, htype, hpipe, hwritable⟩

lemma isEnd_setFile_of_ne {x : File} (hg : g ≠ f) : (s.setFile f x).IsEnd pi w g ↔ s.IsEnd pi w g := by
  have hother := setFile_of_ne s x hg
  constructor
  · rintro ⟨hlt, htype, hpipe, hwritable⟩
    rw [hother] at htype hpipe hwritable
    exact ⟨hlt, htype, hpipe, hwritable⟩
  · rintro ⟨hlt, htype, hpipe, hwritable⟩
    exact ⟨hlt, by rw [hother, htype], by rw [hother, hpipe], by rw [hother, hwritable]⟩

lemma isEnd_setFile_self {x : File} :
    (s.setFile f x).IsEnd pi w f ↔ f < nfile ∧ x.type = .FD_PIPE ∧ x.pipe = pi ∧ x.writable = w := by
  constructor
  · rintro ⟨hlt, htype, hpipe, hwritable⟩
    rw [setFile_self] at htype hpipe hwritable
    exact ⟨hlt, htype, hpipe, hwritable⟩
  · rintro ⟨hlt, htype, hpipe, hwritable⟩
    exact ⟨hlt, by rw [setFile_self, htype], by rw [setFile_self, hpipe], by rw [setFile_self, hwritable]⟩

lemma Holds.refs_setFile (h : s.Holds V X P) {x : File} {d : Int} (hd : x.ref - (s.file f).ref = d) :
    ∀ g < nfile, ((s.setFile f x).file g).ref =
      Pointers.count Finset.univ s.ofile g + (X + Pi.single f d : Nat → Int) g := by
  intro g hg
  have hcount := h.refs g hg
  by_cases hgf : g = f
  · subst hgf
    rw [setFile_self, Pi.add_apply, Pi.single_eq_same]
    omega
  · rw [setFile_of_ne s x hgf, Pi.add_apply, Pi.single_eq_of_ne hgf, add_zero]
    exact hcount

lemma Holds.free_setFile (h : s.Holds V X P) {x : File} (hx : x.ref = 0 → x.type = .FD_NONE) :
    ∀ g < nfile, ((s.setFile f x).file g).ref = 0 → ((s.setFile f x).file g).type = .FD_NONE := by
  intro g hg hzero
  by_cases hgf : g = f
  · subst hgf
    rw [setFile_self] at hzero ⊢
    exact hx hzero
  · rw [setFile_of_ne s x hgf] at hzero ⊢
    exact h.free g hg hzero

/-- A file that is no end of a pipe, before and after, or whose end is not changed. -/
lemma Holds.setFile (h : s.Holds V X P) {x : File} {d : Int}
    (hx : x.type = (s.file f).type ∧ x.pipe = (s.file f).pipe ∧ x.writable = (s.file f).writable ∨
      (s.file f).type ≠ .FD_PIPE ∧ x.type ≠ .FD_PIPE)
    (hnone : x.ref = 0 → x.type = .FD_NONE) (hd : x.ref - (s.file f).ref = d) :
    (s.setFile f x).Holds V (X + Pi.single f d) P := by
  have hend : ∀ pi w g, (s.setFile f x).IsEnd pi w g ↔ s.IsEnd pi w g := by
    intro pi w g
    by_cases hg : g = f
    · subst hg
      rw [isEnd_setFile_self]
      rcases hx with ⟨htype, hpipe, hwritable⟩ | ⟨hold, hnew⟩
      · rw [htype, hpipe, hwritable]
        exact ⟨fun ⟨h0, h1, h2, h3⟩ => ⟨h0, h1, h2, h3⟩, fun ⟨h0, h1, h2, h3⟩ => ⟨h0, h1, h2, h3⟩⟩
      · exact ⟨fun hx => absurd hx.2.1 hnew, fun hs => absurd hs.type hold⟩
    · exact isEnd_setFile_of_ne hg
  refine ⟨h.books, h.refs_setFile hd, h.range, h.free_setFile hnone, fun pi w g hg => h.live pi w g ((hend pi w g).mp hg),
    fun pi w g g' hg hg' => h.unique pi w g g' ((hend pi w g).mp hg) ((hend pi w g').mp hg'), fun pi w hpi hw => ?_,
    h.some_end, h.idle⟩
  obtain ⟨g, hg⟩ := h.ends pi w hpi hw
  exact ⟨g, (hend pi w g).mpr hg⟩

/-- Only the count changes. -/
lemma Holds.recount (h : s.Holds V X P) {r d : Int} (hr : r = 0 → (s.file f).type = .FD_NONE)
    (hd : r - (s.file f).ref = d) : (s.setFile f { s.file f with ref := r }).Holds V (X + Pi.single f d) P :=
  h.setFile (.inl ⟨rfl, rfl, rfl⟩) hr hd

lemma Holds.filealloc (h : s.Holds V X P) :
    s.filealloc = (none, s) ∨ ∃ f t, s.filealloc = (some f, t) ∧ f < nfile ∧ t.Holds V (X + Pi.single f 1) P ∧
      (s.file f).ref = 0 ∧ t = s.setFile f { s.file f with ref := 1 } := by
  unfold Files.filealloc
  cases hfind : (List.range nfile).find? fun f => (s.file f).ref == 0 with
  | none => exact .inl rfl
  | some f =>
    have hf : f < nfile := List.mem_range.mp (List.mem_of_find?_eq_some hfind)
    have hzero : (s.file f).ref = 0 := by simpa using List.find?_some hfind
    refine .inr ⟨f, _, rfl, hf, h.recount (fun h1 => absurd h1 one_ne_zero) ?_, hzero, rfl⟩
    rw [hzero]
    rfl

lemma Holds.filedup (h : s.Holds V X P) (href : 1 ≤ (s.file f).ref) :
    ∃ t, s.filedup f = .ok t ∧ t.Holds V (X + Pi.single f 1) P ∧ t.ofile = s.ofile ∧ t.state = s.state := by
  refine ⟨s.setFile f { s.file f with ref := (s.file f).ref + 1 }, ?_, h.recount (fun h0 => ?_) ?_, rfl, rfl⟩
  · unfold Files.filedup
    rw [if_neg (by omega)]
    rfl
  · omega
  · omega

/-! ### Closing -/

lemma isOpen_pipeclose (p : Pipe) (w w' : Bool) :
    (FogOS.Kernel.pipeclose p w).isOpen w' = (p.isOpen w' && decide (w' ≠ w)) := by
  cases w <;> cases w' <;> simp [FogOS.Kernel.pipeclose, Pipe.isOpen]

/-- The end `w` of the pipe is closed, with the file that was the last one to it. -/
lemma Holds.closeEnd (h : s.Holds V X P) (hend : s.IsEnd pi w f) {x : File} (hx : x.type = .FD_NONE)
    {d : Int} (hd : x.ref - (s.file f).ref = d) {p : Pipe} {k : Kmem}
    (hp : ∀ w', p.isOpen w' = ((s.pipe pi).isOpen w' && decide (w' ≠ w)))
    (hbooks : k.Books V (s.held + P'.val))
    (hP' : ∀ pi', pi' ∈ P' ↔ pi' ∈ P ∧ (pi' = pi → ∃ w', p.isOpen w' = true)) :
    Holds V { s.setFile f x with kmem := k, pipe := Function.update s.pipe pi p } (X + Pi.single f d) P' := by
  have hpi : Function.update s.pipe pi p pi = p := Function.update_self _ _ _
  have hother : ∀ {pi'}, pi' ≠ pi → Function.update s.pipe pi p pi' = s.pipe pi' :=
    fun hne => Function.update_of_ne hne _ _
  -- the ends that are left
  have hleft : ∀ {pi' w' g},
      IsEnd { s.setFile f x with kmem := k, pipe := Function.update s.pipe pi p } pi' w' g ↔
        s.IsEnd pi' w' g ∧ g ≠ f := by
    intro pi' w' g
    have hfile : Files.file { s.setFile f x with kmem := k, pipe := Function.update s.pipe pi p } =
        (s.setFile f x).file := rfl
    refine (isEnd_congr hfile).trans ?_
    by_cases hg : g = f
    · subst hg
      rw [isEnd_setFile_self, hx]
      exact ⟨fun hx => (by cases hx.2.1), fun hs => absurd rfl hs.2⟩
    · rw [isEnd_setFile_of_ne hg]
      exact ⟨fun hs => ⟨hs, hg⟩, fun hs => hs.1⟩
  refine ⟨hbooks, h.refs_setFile hd, h.range, h.free_setFile fun _ => hx, fun pi' w' g hg => ?_,
    fun pi' w' g g' hg hg' => ?_, fun pi' w' hpi' hw' => ?_, fun pi' hpi' => ?_, h.idle⟩
  · obtain ⟨hold, hne⟩ := hleft.mp hg
    obtain ⟨hin, hopen⟩ := h.live pi' w' g hold
    by_cases heq : pi' = pi
    · subst heq
      have hw' : w' ≠ w := by
        rintro rfl
        exact hne (h.unique pi' w' f g hend hold)
      have hopen' : p.isOpen w' = true := by
        rw [hp, hopen]
        exact decide_eq_true hw'
      refine ⟨(hP' pi').mpr ⟨hin, fun _ => ⟨w', hopen'⟩⟩, ?_⟩
      change (Function.update s.pipe pi' p pi').isOpen w' = true
      rw [hpi]
      exact hopen'
    · refine ⟨(hP' pi').mpr ⟨hin, fun heq' => absurd heq' heq⟩, ?_⟩
      change (Function.update s.pipe pi p pi').isOpen w' = true
      rw [hother heq]
      exact hopen
  · exact h.unique pi' w' g g' (hleft.mp hg).1 (hleft.mp hg').1
  · obtain ⟨hin, -⟩ := (hP' pi').mp hpi'
    change (Function.update s.pipe pi p pi').isOpen w' = true at hw'
    by_cases heq : pi' = pi
    · subst heq
      rw [hpi, hp, Bool.and_eq_true, decide_eq_true_iff] at hw'
      obtain ⟨g, hg⟩ := h.ends pi' w' hin hw'.1
      refine ⟨g, hleft.mpr ⟨hg, ?_⟩⟩
      rintro rfl
      exact hw'.2 (hg.writable.symm.trans hend.writable)
    · rw [hother heq] at hw'
      obtain ⟨g, hg⟩ := h.ends pi' w' hin hw'
      refine ⟨g, hleft.mpr ⟨hg, ?_⟩⟩
      rintro rfl
      exact heq (hg.pipe.symm.trans hend.pipe)
  · obtain ⟨hin, hsome⟩ := (hP' pi').mp hpi'
    change ∃ w', (Function.update s.pipe pi p pi').isOpen w' = true
    by_cases heq : pi' = pi
    · rw [heq, hpi]
      exact hsome heq
    · rw [hother heq]
      exact h.some_end pi' hin

lemma Holds.pipeclose (h : s.Holds V X P) (hend : s.IsEnd pi w f) {x : File} (hx : x.type = .FD_NONE)
    {d : Int} (hd : x.ref - (s.file f).ref = d) :
    ∃ P', (((s.setFile f x).pipeclose pi w).2).Holds V (X + Pi.single f d) P' ∧
      Balance P ((s.setFile f x).pipeclose pi w).1 P' := by
  obtain ⟨hpi, -⟩ := h.live pi w f hend
  have hopen := isOpen_pipeclose (s.pipe pi) w
  have hstate : (s.setFile f x).pipe = s.pipe ∧ (s.setFile f x).kmem = s.kmem := ⟨rfl, rfl⟩
  unfold Files.pipeclose
  rw [hstate.1]
  obtain ⟨p, hp⟩ : ∃ p, p = FogOS.Kernel.pipeclose (s.pipe pi) w := ⟨_, rfl⟩
  rw [← hp] at hopen ⊢
  dsimp only
  by_cases hclosed : (!p.readopen && !p.writeopen) = true
  · -- the last end: the page goes back
    rw [if_pos hclosed]
    have hval : P.val = (P.erase pi).val + {pi} := by
      rw [add_comm, Multiset.singleton_add, Finset.erase_val, Multiset.cons_erase hpi]
    have hbooks := h.books
    rw [hval, ← add_assoc] at hbooks
    have hbooks' : (s.kmem.kfree pi).Books V (s.held + (P.erase pi).val) := by
      have := (Kmem.trades_kfree V s.kmem pi).accounts hbooks
      rwa [add_zero] at this
    refine ⟨P.erase pi, h.closeEnd hend hx hd hopen hbooks' fun pi' => ?_, fun pi' => ?_⟩
    · rw [Finset.mem_erase]
      constructor
      · rintro ⟨hne, hin⟩
        exact ⟨hin, fun heq => absurd heq hne⟩
      · rintro ⟨hin, hsome⟩
        refine ⟨fun heq => ?_, hin⟩
        obtain ⟨w', hw'⟩ := hsome heq
        cases w' <;> simp [Pipe.isOpen] at hw' hclosed <;> simp [hw'] at hclosed
    · by_cases heq : pi' = pi
      · subst heq
        simp [hpi]
      · simp [heq, Ne.symm heq]
  · rw [if_neg hclosed]
    refine ⟨P, h.closeEnd hend hx hd hopen h.books fun pi' => ⟨fun hin => ⟨hin, fun _ => ?_⟩, fun hin => hin.1⟩, .nil P⟩
    cases hr : p.readopen with
    | true => exact ⟨false, hr⟩
    | false =>
      rw [hr] at hclosed
      refine ⟨true, ?_⟩
      change p.writeopen = true
      simpa using hclosed

lemma pipeclose_ofile (s : Files) (pi : Nat) (w : Bool) : (s.pipeclose pi w).2.ofile = s.ofile := by
  unfold Files.pipeclose
  dsimp only
  split <;> rfl

lemma pipeclose_state (s : Files) (pi : Nat) (w : Bool) : (s.pipeclose pi w).2.state = s.state := by
  unfold Files.pipeclose
  dsimp only
  split <;> rfl

lemma Holds.fileclose (h : s.Holds V X P) (hf : f < nfile) (href : 1 ≤ (s.file f).ref) :
    ∃ evs t P', s.fileclose f = .ok (evs, t) ∧ t.Holds V (X - Pi.single f 1) P' ∧ Balance P evs P' ∧
      t.ofile = s.ofile ∧ t.state = s.state := by
  have hsub : X - Pi.single f 1 = X + Pi.single f (-1 : Int) := by
    rw [sub_eq_add_neg, Pi.single_neg]
  rw [hsub]
  unfold Files.fileclose
  rw [if_neg (by omega)]
  by_cases hmore : 0 < (s.file f).ref - 1
  · rw [if_pos hmore]
    exact ⟨[], _, P, rfl, h.recount (fun h0 => by omega) (by omega), .nil P, rfl, rfl⟩
  · rw [if_neg hmore]
    have hone : (s.file f).ref = 1 := by omega
    have hd : (0 : Int) - (s.file f).ref = -1 := by omega
    dsimp only
    split
    · next htype =>
      obtain ⟨P', hholds, hbalance⟩ := h.pipeclose (x := { s.file f with ref := 0, type := .FD_NONE })
        ⟨hf, htype, rfl, rfl⟩ rfl hd
      exact ⟨_, _, P', rfl, hholds, hbalance, pipeclose_ofile _ _ _, pipeclose_state _ _ _⟩
    · next htype =>
      refine ⟨_, _, P, rfl, h.setFile (.inr ⟨?_, by simp⟩) (fun _ => rfl) hd, fun pi => by simp, rfl, rfl⟩
      simp [htype]
    · next htype =>
      refine ⟨_, _, P, rfl, h.setFile (.inr ⟨?_, by simp⟩) (fun _ => rfl) hd, fun pi => by simp, rfl, rfl⟩
      simp [htype]
    · next htype =>
      refine ⟨_, _, P, rfl, h.setFile (.inr ⟨?_, by simp⟩) (fun _ => rfl) hd, .nil P, rfl, rfl⟩
      simp [htype]

/-! ### Descriptors -/

/-- The process can have open files. -/
def Awake (s : Files) (i : Fin nproc) : Prop := s.state i ≠ .UNUSED ∧ s.state i ≠ .ZOMBIE

/-- The references of a pointer. -/
def refOf (v : Option Nat) : Nat → Int := v.elim 0 fun f => Pi.single f 1

lemma refOf_apply (v : Option Nat) (g : Nat) : refOf v g = if v = some g then 1 else 0 := by
  cases v with
  | none => rfl
  | some f =>
    unfold refOf
    rw [Option.elim_some]
    by_cases hfg : f = g
    · subst hfg
      simp
    · rw [Pi.single_eq_of_ne (Ne.symm hfg), if_neg]
      simpa using hfg

lemma Holds.setOfile (h : s.Holds V X P) {x : Fin nproc × Fin nofile} {v : Option Nat}
    (hv : ∀ f, v = some f → f < nfile ∧ s.Awake x.1) :
    (s.setOfile x v).Holds V (X + refOf (s.ofile x) - refOf v) P := by
  have hself : (s.setOfile x v).ofile x = v := Function.update_self _ _ _
  have hother : ∀ {y}, y ≠ x → (s.setOfile x v).ofile y = s.ofile y := fun hne => Function.update_of_ne hne _ _
  have hend : ∀ {pi w f}, (s.setOfile x v).IsEnd pi w f ↔ s.IsEnd pi w f := isEnd_congr rfl
  refine ⟨h.books, fun f hf => ?_, fun y f hy => ?_, h.free, fun pi w f hf => h.live pi w f (hend.mp hf),
    fun pi w f g hf hg => h.unique pi w f g (hend.mp hf) (hend.mp hg), fun pi w hpi hw => ?_, h.some_end,
    fun j hj fd => ?_⟩
  · have hcount := Pointers.count_update (A := Finset.univ) (g := s.ofile) (Finset.mem_univ x) v f
    have hrefs := h.refs f hf
    rw [Pi.sub_apply, Pi.add_apply, refOf_apply, refOf_apply]
    change (s.file f).ref = (Pointers.count Finset.univ (Function.update s.ofile x v) f : Int) + _
    generalize Pointers.count Finset.univ (Function.update s.ofile x v) f = c at hcount ⊢
    by_cases hold : s.ofile x = some f <;> by_cases hnew : v = some f <;>
      simp only [hold, hnew, if_true, if_false] at hcount ⊢ <;> omega
  · by_cases hyx : y = x
    · rw [hyx, hself] at hy
      exact (hv f hy).1
    · rw [hother hyx] at hy
      exact h.range y f hy
  · obtain ⟨f, hf⟩ := h.ends pi w hpi hw
    exact ⟨f, hend.mpr hf⟩
  · by_cases hx : (j, fd) = x
    · rw [hx, hself]
      cases v with
      | none => rfl
      | some f =>
        obtain ⟨hunused, hzombie⟩ := (hv f rfl).2
        subst hx
        exact absurd hj (not_or.mpr ⟨hunused, hzombie⟩)
    · rw [hother hx]
      exact h.idle j hj fd

lemma Holds.fdalloc (h : s.Holds V X P) (hi : s.Awake i) (hf : f < nfile) :
    s.fdalloc i f = (none, s) ∨ ∃ fd t, s.fdalloc i f = (some fd, t) ∧ t.Holds V (X - refOf (some f)) P ∧
      s.ofile (i, fd) = none ∧ t = s.setOfile (i, fd) (some f) := by
  unfold Files.fdalloc
  cases hfind : (List.finRange nofile).find? fun fd => (s.ofile (i, fd)).isNone with
  | none => exact .inl rfl
  | some fd =>
    have hnone : s.ofile (i, fd) = none := by simpa using List.find?_some hfind
    refine .inr ⟨fd, _, rfl, ?_, hnone, rfl⟩
    have hset := h.setOfile (x := (i, fd)) (v := some f) (by rintro g ⟨⟩; exact ⟨hf, hi⟩)
    rw [hnone] at hset
    simpa [refOf] using hset

lemma argfd_some {n : Int} {fd : Fin nofile} (h : s.argfd i n = some (fd, f)) : s.ofile (i, fd) = some f := by
  unfold Files.argfd at h
  split at h
  · obtain ⟨g, hg, heq⟩ := Option.map_eq_some_iff.mp h
    cases heq
    exact hg
  · cases h

/-- A file that a descriptor points to has a count. -/
lemma Holds.ref_pos (h : s.Holds V X P) {x : Fin nproc × Fin nofile} (hx : s.ofile x = some f) (hX : 0 ≤ X f) :
    1 ≤ (s.file f).ref := by
  have hcount := Pointers.count_pos (A := Finset.univ) (Finset.mem_univ x) hx
  have hrefs := h.refs f (h.range x f hx)
  omega

/-! ### System calls -/

/-- The call returns, and the counts agree again. -/
def Settles (V : Arena) (P : Finset Nat) (x : Except Stop (Int × List FileEvent × Files)) : Prop :=
  ∃ r evs t P', x = .ok (r, evs, t) ∧ t.Holds V 0 P' ∧ Balance P evs P'

lemma Holds.returns (h : s.Holds V 0 P) (r : Int) : Settles V P (pure (r, [], s)) := ⟨r, [], s, P, rfl, h, .nil P⟩

lemma Holds.sysDup (h : s.Holds V 0 P) (hi : s.Awake i) (n : Int) : Settles V P (s.sysDup i n) := by
  unfold Files.sysDup
  split
  · exact h.returns _
  · next fd f harg =>
    have hfd := argfd_some harg
    have hf := h.range _ _ hfd
    have hpos := h.ref_pos hfd (le_refl _)
    rcases h.fdalloc hi hf with hnone | ⟨fd', t, hsome, ht, -, rfl⟩
    · rw [hnone]
      exact h.returns _
    · rw [hsome]
      obtain ⟨u, hu, huh, -, -⟩ := ht.filedup hpos
      dsimp only
      rw [hu]
      refine ⟨_, _, _, P, rfl, ?_, .nil P⟩
      simpa [refOf] using huh

lemma Holds.sysClose (h : s.Holds V 0 P) (n : Int) : Settles V P (s.sysClose i n) := by
  unfold Files.sysClose
  split
  · exact h.returns _
  · next fd f harg =>
    have hfd := argfd_some harg
    have hf := h.range _ _ hfd
    have hpos := h.ref_pos hfd (le_refl _)
    have hset := h.setOfile (x := (i, fd)) (v := none) (by rintro g ⟨⟩)
    obtain ⟨evs, t, P', ht, hth, hbalance, -, -⟩ := hset.fileclose hf hpos
    rw [ht]
    refine ⟨_, _, _, P', rfl, ?_, hbalance⟩
    simpa [refOf, hfd] using hth

lemma Holds.sysOpen (h : s.Holds V 0 P) (hi : s.Awake i) (omode : Nat) (found : Option (Nat × InodeType × Int)) :
    Settles V P (s.sysOpen i omode found) := by
  unfold Files.sysOpen
  split
  · exact h.returns _
  · next ip type major =>
    split
    · exact h.returns _
    split
    · exact h.returns _
    rcases h.filealloc with hnone | ⟨f, t, hsome, hf, ht, hzero, rfl⟩
    · rw [hnone]
      exact h.returns _
    · rw [hsome]
      dsimp only
      have hself := setFile_self s f { s.file f with ref := 1 }
      rcases ht.fdalloc hi hf with hnone | ⟨fd, u, hsome, hu, -, rfl⟩
      · rw [hnone]
        obtain ⟨evs, u, P', hu, huh, hbalance, -, -⟩ := ht.fileclose hf (by rw [hself])
        dsimp only
        rw [hu]
        refine ⟨_, _, _, P', rfl, ?_, hbalance⟩
        simpa using huh
      · rw [hsome]
        dsimp only
        have hnone := h.free f hf hzero
        refine ⟨_, _, _, P, rfl, ?_, .nil P⟩
        have hfile : ((s.setFile f { s.file f with ref := 1 }).setOfile (i, fd) (some f)).file f =
            { s.file f with ref := 1 } := hself
        have hset := hu.setFile (f := f) (d := 0)
          (x := { (if type == .T_DEVICE then { s.file f with ref := 1, type := .FD_DEVICE, major := major }
            else { s.file f with ref := 1, type := .FD_INODE, off := 0 } : File) with
            ip := ip
            readable := !oWronly omode
            writable := oWronly omode || oRdwr omode })
          (.inr ⟨by rw [hfile]; simp [hnone], by dsimp only; split <;> simp⟩)
          (fun h0 => by dsimp only at h0; split at h0 <;> cases h0) (by rw [hfile]; dsimp only; split <;> rfl)
        rw [hfile]
        simpa [refOf] using hset

/-! ### Pipes -/

/-- Two new files become the ends of a new pipe. -/
lemma Holds.openPipe {f0 f1 : Nat} {k : Kmem} {p : Pipe} (x0 x1 : File) (h : s.Holds V X P) (hne : f1 ≠ f0)
    (hf0 : f0 < nfile) (hf1 : f1 < nfile) (hnone0 : (s.file f0).type = .FD_NONE)
    (hnone1 : (s.file f1).type = .FD_NONE) (hpi : pi ∉ P)
    (hx0 : x0.type = .FD_PIPE ∧ x0.pipe = pi ∧ x0.writable = false ∧ x0.ref = (s.file f0).ref)
    (hx1 : x1.type = .FD_PIPE ∧ x1.pipe = pi ∧ x1.writable = true ∧ x1.ref = (s.file f1).ref)
    (href0 : x0.ref ≠ 0) (href1 : x1.ref ≠ 0)
    (hp : ∀ w, p.isOpen w = true) (hbooks : k.Books V (s.held + (insert pi P).val)) :
    Holds V ((({ s with kmem := k, pipe := Function.update s.pipe pi p } : Files).setFile f0 x0).setFile f1 x1) X
      (insert pi P) := by
  obtain ⟨u, hu⟩ : ∃ u, u = (({ s with kmem := k, pipe := Function.update s.pipe pi p } : Files).setFile f0 x0).setFile f1 x1 :=
    ⟨_, rfl⟩
  have hfile1 : u.file f1 = x1 := by
    rw [hu]
    exact setFile_self _ _ _
  have hfile0 : u.file f0 = x0 := by
    rw [hu, setFile_of_ne _ _ (Ne.symm hne)]
    exact setFile_self _ _ _
  have hfile : ∀ g, g ≠ f0 → g ≠ f1 → u.file g = s.file g := by
    intro g h0 h1
    rw [hu, setFile_of_ne _ _ h1]
    exact setFile_of_ne _ _ h0
  have hpipe : u.pipe pi = p := by
    rw [hu]
    exact Function.update_self _ _ _
  have hother : ∀ pi', pi' ≠ pi → u.pipe pi' = s.pipe pi' := by
    intro pi' hne'
    rw [hu]
    exact Function.update_of_ne hne' _ _
  have hrest : u.ofile = s.ofile ∧ u.state = s.state ∧ u.held = s.held ∧ u.kmem = k := by
    rw [hu]
    exact ⟨rfl, rfl, rfl, rfl⟩
  obtain ⟨hofile, hstate, hheld, hkmem⟩ := hrest
  -- the ends are the old ones and the two new files
  have hend : ∀ {pi' w g}, u.IsEnd pi' w g ↔ s.IsEnd pi' w g ∨ pi' = pi ∧ g = if w then f1 else f0 := by
    intro pi' w g
    constructor
    · intro hg
      obtain ⟨hlt, htype, hpipe', hwritable⟩ := hg
      by_cases hg0 : g = f0
      · subst hg0
        rw [hfile0] at hpipe' hwritable
        rw [hx0.2.1] at hpipe'
        rw [hx0.2.2.1] at hwritable
        exact .inr ⟨hpipe'.symm, by rw [← hwritable]; rfl⟩
      by_cases hg1 : g = f1
      · subst hg1
        rw [hfile1] at hpipe' hwritable
        rw [hx1.2.1] at hpipe'
        rw [hx1.2.2.1] at hwritable
        exact .inr ⟨hpipe'.symm, by rw [← hwritable]; rfl⟩
      rw [hfile g hg0 hg1] at htype hpipe' hwritable
      exact .inl ⟨hlt, htype, hpipe', hwritable⟩
    · rintro (⟨hlt, htype, hpipe', hwritable⟩ | ⟨rfl, rfl⟩)
      · have hg0 : g ≠ f0 := by
          rintro rfl
          rw [hnone0] at htype
          cases htype
        have hg1 : g ≠ f1 := by
          rintro rfl
          rw [hnone1] at htype
          cases htype
        have hsame := hfile g hg0 hg1
        exact ⟨hlt, by rw [hsame, htype], by rw [hsame, hpipe'], by rw [hsame, hwritable]⟩
      · cases w with
        | false => exact ⟨hf0, by rw [if_neg Bool.false_ne_true, hfile0, hx0.1], by rw [if_neg Bool.false_ne_true, hfile0, hx0.2.1], by rw [if_neg Bool.false_ne_true, hfile0, hx0.2.2.1]⟩
        | true => exact ⟨hf1, by rw [if_pos rfl, hfile1, hx1.1], by rw [if_pos rfl, hfile1, hx1.2.1], by rw [if_pos rfl, hfile1, hx1.2.2.1]⟩
  have hnew : ∀ {w g}, ¬ s.IsEnd pi w g := fun hg => hpi (h.live pi _ _ hg).1
  rw [← hu]
  refine ⟨?_, fun g hg => ?_, ?_, fun g hg hzero => ?_, fun pi' w g hg => ?_, fun pi' w g g' hg hg' => ?_,
    fun pi' w hpi' hw => ?_, fun pi' hpi' => ?_, ?_⟩
  · rw [hkmem, hheld]
    exact hbooks
  · have hrefs := h.refs g hg
    rw [hofile, ← hrefs]
    by_cases hg0 : g = f0
    · rw [hg0, hfile0, hx0.2.2.2]
    by_cases hg1 : g = f1
    · rw [hg1, hfile1, hx1.2.2.2]
    rw [hfile g hg0 hg1]
  · rw [hofile]
    exact h.range
  · by_cases hg0 : g = f0
    · rw [hg0, hfile0] at hzero
      exact absurd hzero href0
    by_cases hg1 : g = f1
    · rw [hg1, hfile1] at hzero
      exact absurd hzero href1
    rw [hfile g hg0 hg1] at hzero ⊢
    exact h.free g hg hzero
  · rcases hend.mp hg with hold | ⟨rfl, -⟩
    · obtain ⟨hin, hopen⟩ := h.live pi' w g hold
      have hne' : pi' ≠ pi := by
        rintro rfl
        exact hpi hin
      rw [hother pi' hne']
      exact ⟨Finset.mem_insert_of_mem hin, hopen⟩
    · rw [hpipe]
      exact ⟨Finset.mem_insert_self _ _, hp w⟩
  · rcases hend.mp hg with hold | ⟨rfl, hgf⟩
    · rcases hend.mp hg' with hold' | ⟨rfl, -⟩
      · exact h.unique pi' w g g' hold hold'
      · exact absurd hold hnew
    · rcases hend.mp hg' with hold' | ⟨-, hgf'⟩
      · exact absurd hold' hnew
      · rw [hgf, hgf']
  · by_cases heq : pi' = pi
    · exact ⟨_, hend.mpr (.inr ⟨heq, rfl⟩)⟩
    · rw [hother pi' heq] at hw
      obtain ⟨g, hg⟩ := h.ends pi' w (Finset.mem_of_mem_insert_of_ne hpi' heq) hw
      exact ⟨g, hend.mpr (.inl hg)⟩
  · by_cases heq : pi' = pi
    · rw [heq, hpipe]
      exact ⟨true, hp true⟩
    · rw [hother pi' heq]
      exact h.some_end pi' (Finset.mem_of_mem_insert_of_ne hpi' heq)
  · rw [hstate, hofile]
    exact h.idle

/-- What `pipealloc` leaves, with or without a new pipe. -/
lemma Holds.pipealloc (h : s.Holds V 0 P) :
    ∃ o evs t P', s.pipealloc = .ok (o, evs, t) ∧ Balance P evs P' ∧ t.state = s.state ∧
      match o with
      | none => t.Holds V 0 P'
      | some (rf, wf) => rf < nfile ∧ wf < nfile ∧ t.Holds V (refOf (some rf) + refOf (some wf)) P' := by
  unfold Files.pipealloc
  rcases h.filealloc with hnone | ⟨f0, s₁, hsome, hf0, h₁, hzero0, hs₁⟩
  · rw [hnone]
    exact ⟨none, [], s, P, rfl, .nil P, rfl, h⟩
  rw [hsome]
  dsimp only
  have hself0 : s₁.file f0 = { s.file f0 with ref := 1 } := by
    rw [hs₁]
    exact setFile_self _ _ _
  have hstate₁ : s₁.state = s.state := by
    rw [hs₁]
    rfl
  rcases h₁.filealloc with hnone | ⟨f1, s₂, hsome, hf1, h₂, hzero1, hs₂⟩
  · obtain ⟨evs, t, P', ht, hth, hbalance, -, hstate⟩ := h₁.fileclose hf0 (by rw [hself0])
    rw [hnone]
    dsimp only
    refine ⟨none, evs, t, P', ?_, hbalance, hstate.trans hstate₁, by simpa using hth⟩
    unfold pipeallocBad
    simp only [ne_eq, not_true_eq_false, if_false, Option.elim_some, Option.elim_none, ht, ok_bind, List.nil_append]
    change Except.ok _ = Except.ok _
    rw [List.append_nil]
  have hne : f1 ≠ f0 := by
    rintro rfl
    rw [hself0] at hzero1
    cases hzero1
  have hself1 : s₂.file f1 = { s₁.file f1 with ref := 1 } := by
    rw [hs₂]
    exact setFile_self _ _ _
  have hkeep0 : s₂.file f0 = s₁.file f0 := by
    rw [hs₂]
    exact setFile_of_ne _ _ (Ne.symm hne)
  have hstate₂ : s₂.state = s.state := by
    rw [hs₂]
    exact hstate₁
  rw [hsome]
  dsimp only
  obtain ⟨o, k, hk⟩ : ∃ o k, s₂.kmem.kalloc = (o, k) := ⟨_, _, rfl⟩
  rw [hk]
  cases o with
  | none =>
    have hks : k = s₂.kmem := Kmem.kalloc_none hk
    subst hks
    have href0 : 1 ≤ (s₂.file f0).ref := by rw [hkeep0, hself0]
    obtain ⟨evs, t, P', ht, hth, hbalance, hofile, hstate⟩ := h₂.fileclose hf0 href0
    have href1 : 1 ≤ (t.file f1).ref := by
      have hrefs := hth.refs f1 hf1
      have hone : (0 + Pi.single f0 1 + Pi.single f1 1 - Pi.single f0 1 : Nat → Int) f1 = 1 := by simp
      rw [hone] at hrefs
      omega
    obtain ⟨evs', t', P'', ht', hth', hbalance', -, hstate'⟩ := hth.fileclose hf1 href1
    refine ⟨none, evs ++ evs', t', P'', ?_, hbalance.append hbalance', hstate'.trans (hstate.trans hstate₂), ?_⟩
    · dsimp only
      unfold pipeallocBad
      simp only [ne_eq, not_true_eq_false, if_false, Option.elim_some, ht, ht', ok_bind, List.nil_append]
      rfl
    · have hsum : (0 + Pi.single f0 1 + Pi.single f1 1 - Pi.single f0 1 - Pi.single f1 1 : Nat → Int) = 0 := by
        abel
      rwa [hsum] at hth'
  | some pi =>
    have hbooks := h₂.books
    have hfree : pi ∈ s₂.kmem.pool.free := by
      have := (Kmem.kalloc_some hk).1
      change pi ∈ s₂.kmem.freelist
      rw [this]
      exact List.mem_cons_self
    have hpi : pi ∉ P := fun hin => hbooks.notMem_of_free hfree (Multiset.mem_add.mpr (.inr hin))
    have hbooks' : k.Books V (s₂.held + (insert pi P).val) := by
      have := (Kmem.trades_kalloc hk).accounts (R := s₂.held + P.val) (by rwa [add_zero])
      rw [Finset.insert_val_of_notMem hpi, ← Multiset.singleton_add, add_comm ({pi} : Multiset Nat), ← add_assoc]
      exact this
    have hnone0 := h.free f0 hf0 hzero0
    have hnone1 := h₁.free f1 hf1 hzero1
    have htype0 : (s₂.file f0).type = .FD_NONE := by rw [hkeep0, hself0, hnone0]
    have htype1 : (s₂.file f1).type = .FD_NONE := by rw [hself1, hnone1]
    have href0 : (s₂.file f0).ref = 1 := by rw [hkeep0, hself0]
    have href1 : (s₂.file f1).ref = 1 := by rw [hself1]
    have hfile : (s₂.setFile f0 { s₂.file f0 with type := .FD_PIPE, readable := true, writable := false, pipe := pi }).file f1 =
        s₂.file f1 := setFile_of_ne _ _ hne
    have hopened := h₂.openPipe (k := k) (p := ⟨fun _ => 5, 0, 0, true, true⟩)
      { s₂.file f0 with type := .FD_PIPE, readable := true, writable := false, pipe := pi }
      { s₂.file f1 with type := .FD_PIPE, readable := false, writable := true, pipe := pi }
      hne hf0 hf1 htype0 htype1 hpi ⟨rfl, rfl, rfl, rfl⟩ ⟨rfl, rfl, rfl, rfl⟩
      (fun h0 => by rw [href0] at h0; cases h0) (fun h0 => by rw [href1] at h0; cases h0)
      (fun w => by cases w <;> rfl) hbooks'
    refine ⟨some (f0, f1), [.kalloc pi], _, insert pi P, rfl, fun pi' => ?_, ?_, hf0, hf1, ?_⟩
    · by_cases heq : pi' = pi
      · subst heq
        simp [hpi]
      · simp [heq, Ne.symm heq]
    · exact hstate₂
    · rw [zero_add] at hopened
      rw [setFile_of_ne _ _ hne]
      exact hopened

/-- Both files of a failed `pipe` are closed. -/
lemma Holds.closeBoth {rf wf : Nat} (h : s.Holds V (refOf (some rf) + refOf (some wf)) P) (hrf : rf < nfile)
    (hwf : wf < nfile) : ∃ evs t P', s.closeBoth rf wf = .ok (evs, t) ∧ t.Holds V 0 P' ∧ Balance P evs P' := by
  have hcount : ∀ {u : Files} {Y : Nat → Int} {Q : Finset Nat} {f : Nat}, u.Holds V Y Q → f < nfile → 1 ≤ Y f →
      1 ≤ (u.file f).ref := by
    intro u Y Q f hu hf hY
    have := hu.refs f hf
    omega
  have hrf1 : 1 ≤ (refOf (some rf) + refOf (some wf)) rf := by
    rw [Pi.add_apply, refOf_apply, refOf_apply, if_pos rfl]
    split <;> omega
  obtain ⟨evs, t, P', ht, hth, hbalance, -, -⟩ := h.fileclose hrf (hcount h hrf hrf1)
  have hleft : refOf (some rf) + refOf (some wf) - Pi.single rf 1 = refOf (some wf) := by
    change Pi.single rf 1 + refOf (some wf) - Pi.single rf 1 = refOf (some wf)
    abel
  rw [hleft] at hth
  have hwf1 : 1 ≤ refOf (some wf) wf := by
    rw [refOf_apply, if_pos rfl]
  obtain ⟨evs', t', P'', ht', hth', hbalance', -, -⟩ := hth.fileclose hwf (hcount hth hwf hwf1)
  have hzero : refOf (some wf) - Pi.single wf 1 = 0 := sub_self _
  rw [hzero] at hth'
  refine ⟨evs ++ evs', t', P'', ?_, hth', hbalance.append hbalance'⟩
  unfold Files.closeBoth
  rw [ht, ok_bind]
  dsimp only
  rw [ht']
  rfl

lemma Holds.sysPipe (h : s.Holds V 0 P) (hi : s.Awake i) (copied : Bool) : Settles V P (s.sysPipe i copied) := by
  unfold Files.sysPipe
  obtain ⟨o, evs, t, P', ht, hbalance, hstate, hth⟩ := h.pipealloc
  rw [ht, ok_bind]
  cases o with
  | none => exact ⟨_, _, _, P', rfl, hth, hbalance⟩
  | some ends =>
    obtain ⟨rf, wf⟩ := ends
    obtain ⟨hrf, hwf, hth⟩ := hth
    have hawake : t.Awake i := by
      unfold Awake
      rw [hstate]
      exact hi
    -- however the call fails, it ends with both files closed
    have hfail : ∀ u : Files, u.Holds V (refOf (some rf) + refOf (some wf)) P' →
        Settles V P (u.closeBoth rf wf >>= fun r => pure (-1, evs ++ r.1, r.2)) := by
      intro u hu
      obtain ⟨evs', t', P'', ht', hth', hbalance'⟩ := hu.closeBoth hrf hwf
      rw [ht']
      exact ⟨_, _, _, P'', rfl, hth', hbalance.append hbalance'⟩
    dsimp only
    rcases hth.fdalloc hawake hrf with hnone | ⟨fd0, t₁, hsome, h₁, hfree0, ht₁⟩
    · rw [hnone]
      exact hfail t hth
    rw [hsome]
    dsimp only
    have hawake₁ : t₁.Awake i := by
      rw [ht₁]
      exact hawake
    have hself0 : t₁.ofile (i, fd0) = some rf := by
      rw [ht₁]
      exact Function.update_self _ _ _
    rcases h₁.fdalloc hawake₁ hwf with hnone | ⟨fd1, t₂, hsome, h₂, hfree1, ht₂⟩
    · rw [hnone]
      have hset := h₁.setOfile (x := (i, fd0)) (v := none) (by rintro g ⟨⟩)
      rw [hself0] at hset
      have hback : refOf (some rf) + refOf (some wf) - refOf (some rf) + refOf (some rf) - refOf none =
          refOf (some rf) + refOf (some wf) := by
        change _ - 0 = _
        abel
      rw [hback] at hset
      exact hfail _ hset
    rw [hsome]
    dsimp only
    cases copied with
    | true =>
      have hzero : refOf (some rf) + refOf (some wf) - refOf (some rf) - refOf (some wf) = 0 := by abel
      rw [hzero] at h₂
      exact ⟨_, _, _, P', rfl, h₂, hbalance⟩
    | false =>
      have hne : ((i, fd0) : Fin nproc × Fin nofile) ≠ (i, fd1) := by
        intro heq
        rw [← heq, hself0] at hfree1
        cases hfree1
      have hself1 : t₂.ofile (i, fd1) = some wf := by
        rw [ht₂]
        exact Function.update_self _ _ _
      have hkeep0 : t₂.ofile (i, fd0) = some rf := by
        rw [ht₂, ← hself0]
        exact Function.update_of_ne hne _ _
      have hset0 := h₂.setOfile (x := (i, fd0)) (v := none) (by rintro g ⟨⟩)
      have hself1' : (t₂.setOfile (i, fd0) none).ofile (i, fd1) = some wf := by
        rw [← hself1]
        exact Function.update_of_ne (Ne.symm hne) _ _
      have hset1 := hset0.setOfile (x := (i, fd1)) (v := none) (by rintro g ⟨⟩)
      rw [hself1', hkeep0] at hset1
      have hback : refOf (some rf) + refOf (some wf) - refOf (some rf) - refOf (some wf) + refOf (some rf) - refOf none +
          refOf (some wf) - refOf none = refOf (some rf) + refOf (some wf) := by
        change _ - 0 + _ - 0 = _
        abel
      rw [hback] at hset1
      exact hfail _ hset1

/-! ### Fork and exit -/

/-- The descriptors of the parent are copied; those of the child were free. -/
lemma Holds.forkFiles (h : s.Holds V 0 P) (hj : s.Awake j) {l : List (Fin nofile)} (hl : l.Nodup)
    (hfree : ∀ fd ∈ l, s.ofile (j, fd) = none) :
    ∃ t, l.foldlM (forkFile i j) s = .ok t ∧ t.Holds V 0 P ∧ t.state = s.state := by
  induction l generalizing s with
  | nil => exact ⟨s, rfl, h, rfl⟩
  | cons fd l ih =>
    obtain ⟨hfd, hl⟩ := List.nodup_cons.mp hl
    rw [List.foldlM_cons]
    unfold forkFile
    cases ho : s.ofile (i, fd) with
    | none => exact ih h hj hl fun fd' hin => hfree fd' (List.mem_cons_of_mem fd hin)
    | some f =>
      have hf := h.range _ _ ho
      obtain ⟨t, ht, hth, hofile, hstate⟩ := h.filedup (h.ref_pos ho (le_refl _))
      have hawake : t.Awake j := by
        unfold Awake
        rw [hstate]
        exact hj
      have hset := hth.setOfile (x := (j, fd)) (v := some f) (by rintro g ⟨⟩; exact ⟨hf, hawake⟩)
      rw [hofile, hfree fd List.mem_cons_self] at hset
      have hzero : (0 : Nat → Int) + Pi.single f 1 + refOf none - refOf (some f) = 0 := by
        change 0 + Pi.single f 1 + 0 - Pi.single f 1 = (0 : Nat → Int)
        abel
      rw [hzero] at hset
      dsimp only
      rw [ht, ok_bind]
      have hfree' : ∀ fd' ∈ l, (t.setOfile (j, fd) (some f)).ofile (j, fd') = none := by
        intro fd' hin
        have hne : ((j, fd') : Fin nproc × Fin nofile) ≠ (j, fd) := by
          intro heq
          cases heq
          exact hfd hin
        have hkeep : (t.setOfile (j, fd) (some f)).ofile (j, fd') = t.ofile (j, fd') := Function.update_of_ne hne _ _
        rw [hkeep, hofile]
        exact hfree fd' (List.mem_cons_of_mem fd hin)
      obtain ⟨u, hu, huh, hustate⟩ := ih hset hawake hl hfree'
      exact ⟨u, hu, huh, hustate.trans hstate⟩

/-- A process changes its state; one without open files may be gone. -/
lemma Holds.setState (h : s.Holds V X P) (st : ProcState)
    (hst : st = .UNUSED ∨ st = .ZOMBIE → ∀ fd, s.ofile (i, fd) = none) :
    Holds V { s with state := Function.update s.state i st } X P := by
  have hend : ∀ {pi w f}, IsEnd { s with state := Function.update s.state i st } pi w f ↔ s.IsEnd pi w f :=
    ⟨fun ⟨h0, h1, h2, h3⟩ => ⟨h0, h1, h2, h3⟩, fun ⟨h0, h1, h2, h3⟩ => ⟨h0, h1, h2, h3⟩⟩
  refine ⟨h.books, h.refs, h.range, h.free, fun pi w f hf => h.live pi w f (hend.mp hf),
    fun pi w f g hf hg => h.unique pi w f g (hend.mp hf) (hend.mp hg), fun pi w hpi hw => ?_, h.some_end,
    fun j hj fd => ?_⟩
  · obtain ⟨f, hf⟩ := h.ends pi w hpi hw
    exact ⟨f, hend.mpr hf⟩
  · change Function.update s.state i st j = _ ∨ Function.update s.state i st j = _ at hj
    by_cases hji : j = i
    · subst hji
      rw [Function.update_self] at hj
      exact hst hj fd
    · rw [Function.update_of_ne hji] at hj
      exact h.idle j hj fd

lemma Holds.kfork (h : s.Holds V 0 P) (memory : Bool) : Settles V P (s.kfork i memory) := by
  unfold Files.kfork
  cases hfind : (List.finRange nproc).find? fun j => s.state j == .UNUSED with
  | none => exact h.returns _
  | some j =>
    have hunused : s.state j = .UNUSED := by simpa using List.find?_some hfind
    cases memory with
    | false => exact h.returns _
    | true =>
      have hused := h.setState (i := j) .USED fun hst => (not_or.mpr ⟨by decide, by decide⟩ hst).elim
      have hawake : Awake { s with state := Function.update s.state j .USED } j := by
        change Function.update s.state j _ j ≠ _ ∧ Function.update s.state j _ j ≠ _
        rw [Function.update_self]
        exact ⟨by decide, by decide⟩
      obtain ⟨t, ht, hth, -⟩ := hused.forkFiles (i := i) hawake (List.nodup_finRange nofile)
        fun fd _ => h.idle j (.inl hunused) fd
      dsimp only
      rw [Bool.not_true, if_neg Bool.false_ne_true, ht]
      exact ⟨_, _, _, P, rfl, hth.setState _ fun hst => (not_or.mpr ⟨by decide, by decide⟩ hst).elim, .nil P⟩

/-- The descriptors of a process are closed. -/
lemma Holds.exitFiles (h : s.Holds V 0 P) {l : List (Fin nofile)} (evs : List FileEvent) :
    ∃ new t P', l.foldlM (exitFile i) (evs, s) = .ok (evs ++ new, t) ∧ t.Holds V 0 P' ∧ Balance P new P' ∧
      ∀ fd, fd ∈ l ∨ s.ofile (i, fd) = none → t.ofile (i, fd) = none := by
  induction l generalizing s P evs with
  | nil =>
    refine ⟨[], s, P, ?_, h, .nil P, fun fd hfd => hfd.elim (fun hin => by cases hin) id⟩
    rw [List.append_nil]
    rfl
  | cons fd l ih =>
    rw [List.foldlM_cons]
    unfold exitFile
    dsimp only
    cases ho : s.ofile (i, fd) with
    | none =>
      obtain ⟨new, t, P', ht, hth, hbalance, hgone⟩ := ih h evs
      refine ⟨new, t, P', ht, hth, hbalance, fun fd' hfd' => hgone fd' ?_⟩
      rcases hfd' with hin | hnone
      · rcases List.mem_cons.mp hin with rfl | hin
        · exact .inr ho
        · exact .inl hin
      · exact .inr hnone
    | some f =>
      obtain ⟨new, t, P', ht, hth, hbalance, hofile, -⟩ := h.fileclose (h.range _ _ ho) (h.ref_pos ho (le_refl _))
      have hset := hth.setOfile (x := (i, fd)) (v := none) (by rintro g ⟨⟩)
      rw [hofile, ho] at hset
      have hzero : (0 : Nat → Int) - Pi.single f 1 + refOf (some f) - refOf none = 0 := by
        change 0 - Pi.single f 1 + Pi.single f 1 - 0 = (0 : Nat → Int)
        abel
      rw [hzero] at hset
      dsimp only
      rw [ht, ok_bind]
      obtain ⟨new', u, P'', hu, huh, hbalance', hgone⟩ := ih hset (evs ++ new)
      refine ⟨new ++ new', u, P'', ?_, huh, hbalance.append hbalance', fun fd' hfd' => hgone fd' ?_⟩
      · rw [← List.append_assoc]
        exact hu
      · by_cases heq : fd' = fd
        · subst heq
          exact .inr (Function.update_self _ _ _)
        · have hne : ((i, fd') : Fin nproc × Fin nofile) ≠ (i, fd) := fun h => heq (Prod.mk.inj h).2
          have hkeep : (t.setOfile (i, fd) none).ofile (i, fd') = s.ofile (i, fd') := by
            rw [← hofile]
            exact Function.update_of_ne hne _ _
          rw [hkeep]
          rcases hfd' with hin | hnone
          · exact .inl ((List.mem_cons.mp hin).resolve_left heq)
          · exact .inr hnone

lemma Holds.kexit (h : s.Holds V 0 P) (hi : i ≠ s.initproc) : Settles V P (s.kexit i) := by
  unfold Files.kexit
  obtain ⟨new, t, P', ht, hth, hbalance, hgone⟩ := h.exitFiles (i := i) (l := List.finRange nofile) []
  rw [if_neg hi, ht]
  exact ⟨_, _, _, P', rfl, hth.setState _ fun _ fd => hgone fd (.inl (List.mem_finRange fd)), hbalance⟩

/-- Every call returns with the counts in agreement, but for the exit of the first process. -/
lemma Holds.call (h : s.Holds V 0 P) (hi : s.Awake i) (c : FileCall) :
    Settles V P (s.call i c) ∨ c = .exit ∧ i = s.initproc := by
  cases c with
  | «open» omode found => exact .inl (h.sysOpen hi omode found)
  | dup n => exact .inl (h.sysDup hi n)
  | close n => exact .inl (h.sysClose n)
  | pipe copied => exact .inl (h.sysPipe hi copied)
  | fork memory => exact .inl (h.kfork memory)
  | exit =>
    by_cases hinit : i = s.initproc
    · exact .inr ⟨rfl, hinit⟩
    · exact .inl (h.kexit hinit)

/-! ### Runs -/

/-- Bytes go through a pipe. -/
lemma Holds.transfer (h : s.Holds V X P) {p : Pipe} (hp : ∀ w, p.isOpen w = (s.pipe pi).isOpen w) :
    Holds V { s with pipe := Function.update s.pipe pi p } X P := by
  have hend : ∀ {pi' w f}, IsEnd { s with pipe := Function.update s.pipe pi p } pi' w f ↔ s.IsEnd pi' w f :=
    ⟨fun ⟨h0, h1, h2, h3⟩ => ⟨h0, h1, h2, h3⟩, fun ⟨h0, h1, h2, h3⟩ => ⟨h0, h1, h2, h3⟩⟩
  have hsame : ∀ pi' w, (Function.update s.pipe pi p pi').isOpen w = (s.pipe pi').isOpen w := by
    intro pi' w
    by_cases heq : pi' = pi
    · subst heq
      rw [Function.update_self, hp]
    · rw [Function.update_of_ne heq]
  refine ⟨h.books, h.refs, h.range, h.free, fun pi' w f hf => ?_,
    fun pi' w f g hf hg => h.unique pi' w f g (hend.mp hf) (hend.mp hg), fun pi' w hpi' hw => ?_, fun pi' hpi' => ?_,
    h.idle⟩
  · obtain ⟨hin, hopen⟩ := h.live pi' w f (hend.mp hf)
    exact ⟨hin, (hsame pi' w).trans hopen⟩
  · obtain ⟨f, hf⟩ := h.ends pi' w hpi' ((hsame pi' w).symm.trans hw)
    exact ⟨f, hend.mpr hf⟩
  · obtain ⟨w, hw⟩ := h.some_end pi' hpi'
    exact ⟨w, (hsame pi' w).trans hw⟩

lemma Holds.step (h : s.Holds V 0 P) (hstep : Files.Step V s evs t) : ∃ P', t.Holds V 0 P' ∧ Balance P evs P' := by
  cases hstep with
  | @call _ i c _ _ hi hcall =>
    rcases h.call hi c with ⟨r', evs', t', P', hret, ht', hbalance⟩ | ⟨rfl, hinit⟩
    · rw [hret] at hcall
      cases hcall
      exact ⟨P', ht', hbalance⟩
    · unfold Files.call Files.kexit at hcall
      rw [if_pos hinit] at hcall
      cases hcall
  | wait hi => exact ⟨P, h.setState _ fun _ fd => h.idle _ (.inr hi) fd, .nil P⟩
  | transfer hread hwrite =>
    refine ⟨P, h.transfer fun w => ?_, .nil P⟩
    cases w with
    | false => exact hread
    | true => exact hwrite
  | other htrade =>
    have hbooks := h.books
    rw [add_comm] at hbooks
    have hbooks' := htrade.accounts hbooks
    rw [add_comm] at hbooks'
    exact ⟨P, ⟨hbooks', h.refs, h.range, h.free, fun pi w f ⟨h0, h1, h2, h3⟩ => h.live pi w f ⟨h0, h1, h2, h3⟩,
      fun pi w f g ⟨h0, h1, h2, h3⟩ ⟨g0, g1, g2, g3⟩ => h.unique pi w f g ⟨h0, h1, h2, h3⟩ ⟨g0, g1, g2, g3⟩,
      fun pi w hpi hw => (h.ends pi w hpi hw).imp fun f ⟨h0, h1, h2, h3⟩ => ⟨h0, h1, h2, h3⟩, h.some_end, h.idle⟩, .nil P⟩

lemma holds_boot {k : Kmem} {H : Multiset Nat} {pipe : Nat → Pipe} {init : Fin nproc} (hk : k.Books V H) :
    (boot k H pipe init).Holds V 0 ∅ := by
  have hend : ∀ {pi w f}, ¬ (boot k H pipe init).IsEnd pi w f := by
    rintro pi w f ⟨-, htype, -, -⟩
    cases htype
  refine ⟨by rwa [Finset.empty_val, add_zero], fun f _ => ?_, fun x f hx => (by cases hx), fun f _ _ => rfl,
    fun pi w f hf => absurd hf hend, fun pi w f g hf => absurd hf hend, fun pi w hpi => absurd hpi (Finset.notMem_empty pi),
    fun pi hpi => absurd hpi (Finset.notMem_empty pi), fun _ _ _ => rfl⟩
  rw [Pointers.count_eq_zero (fun x _ => by rintro ⟨⟩)]
  rfl

lemma holds_of_steps {k : Kmem} {H : Multiset Nat} {pipe : Nat → Pipe} {init : Fin nproc} (hk : k.Books V H)
    {l : List (List FileEvent)} (h : Steps (Files.Step V) (boot k H pipe init) l s) :
    ∃ P, s.Holds V 0 P ∧ Balance ∅ l.flatten P := by
  generalize hboot : boot k H pipe init = s₀ at h
  induction h with
  | nil =>
    subst hboot
    exact ⟨∅, holds_boot hk, .nil ∅⟩
  | snoc _ hstep ih =>
    obtain ⟨P, hP, hbalance⟩ := ih
    obtain ⟨P', hP', hbalance'⟩ := hP.step hstep
    refine ⟨P', hP', ?_⟩
    rw [List.flatten_append, List.flatten_singleton]
    exact hbalance.append hbalance'

/-- The pages of pipes are those of the pipes that some descriptor belongs to. -/
lemma Holds.open_iff (h : s.Holds V 0 P) : s.Open pi ↔ pi ∈ P := by
  constructor
  · rintro ⟨x, f, hx, htype, hpipe⟩
    exact (h.live pi _ f ⟨h.range x f hx, htype, hpipe, rfl⟩).1
  · intro hpi
    obtain ⟨w, hw⟩ := h.some_end pi hpi
    obtain ⟨f, hf⟩ := h.ends pi w hpi hw
    have hrefs := h.refs f hf.lt
    have hne : (s.file f).ref ≠ 0 := by
      intro hzero
      have hnone := h.free f hf.lt hzero
      rw [hf.type] at hnone
      cases hnone
    rw [Pi.zero_apply, add_zero] at hrefs
    by_contra hclosed
    refine hne (hrefs.trans ?_)
    rw [Pointers.count_eq_zero fun x _ hx => hclosed ⟨x, f, hx, hf.type, hf.pipe⟩]
    rfl

end Files

open Files

/-- After every call the count of each file is the number of descriptors that point to it, a file with
count 0 has no type, no call panics but the exit of the first process, and a pipe's page has been freed
as often as allocated, but for once if there still is a descriptor for one of its ends. -/
theorem open_files_counted {V : Arena} {k : Kmem} {H : Multiset Nat} {pipe : Nat → Pipe} {init : Fin nproc}
    {l : List (List FileEvent)} {s : Files} (hk : k.Books V H) (h : Steps (Files.Step V) (boot k H pipe init) l s) :
    (∀ f < nfile, (s.file f).ref = Pointers.count Finset.univ s.ofile f) ∧
      (∀ x f, s.ofile x = some f → f < nfile) ∧
      (∀ f < nfile, (s.file f).ref = 0 → (s.file f).type = .FD_NONE) ∧
      (∀ i c, s.Awake i → (∃ r, s.call i c = .ok r) ∨ c = .exit ∧ i = s.initproc) ∧
      ∀ pi, (s.Open pi → l.flatten.count (.kalloc pi) = l.flatten.count (.kfree pi) + 1) ∧
        (¬ s.Open pi → l.flatten.count (.kalloc pi) = l.flatten.count (.kfree pi)) := by
  obtain ⟨P, hP, hbalance⟩ := holds_of_steps hk h
  refine ⟨fun f hf => ?_, hP.range, hP.free, fun i c hi => ?_, fun pi => ?_⟩
  · have hrefs := hP.refs f hf
    rwa [Pi.zero_apply, add_zero] at hrefs
  · rcases hP.call hi c with ⟨r, evs, t, P', hret, -⟩ | hinit
    · exact .inl ⟨_, hret⟩
    · exact .inr hinit
  · have hcount := hbalance pi
    rw [if_neg (Finset.notMem_empty pi), zero_add] at hcount
    rw [hP.open_iff]
    refine ⟨fun hin => ?_, fun hout => ?_⟩
    · rw [if_pos hin] at hcount
      omega
    · rw [if_neg hout, zero_add] at hcount
      exact hcount

/-- One page of memory. -/
def onePage : Arena where
  pages := {kernbase}
  page_addr := by
    rintro a rfl
    exact ⟨by decide, le_refl _, by decide⟩

def onePageFree : Kmem := ⟨[kernbase], fun _ => 0, fun _ _ => 0⟩

def onePageFiles : Files := boot onePageFree 0 (fun _ => ⟨fun _ => 0, 0, 0, false, false⟩) 0

/-- The page of a pipe that was just made. -/
theorem open_files_counted_pipe : ∃ s, Steps (Files.Step onePage) onePageFiles [[.kalloc kernbase]] s ∧ s.Open kernbase := by
  have hbooks : onePageFree.Books onePage 0 := by
    refine ⟨List.nodup_singleton _, fun a => ?_, fun a ha => absurd ha (Multiset.notMem_zero a),
      fun a ha => absurd ha (Multiset.notMem_zero a)⟩
    change a ∈ [kernbase] ↔ a ∈ ({kernbase} : Set Nat) ∧ a ∉ (0 : Multiset Nat)
    simp
  have hevents : (onePageFiles.call 0 (.pipe true)).toOption.map (fun x => x.2.1) = some [.kalloc kernbase] := by
    decide
  cases hcall : onePageFiles.call 0 (.pipe true) with
  | error e =>
    rw [hcall] at hevents
    cases hevents
  | ok x =>
    obtain ⟨r, evs, s⟩ := x
    rw [hcall] at hevents
    obtain rfl : evs = [.kalloc kernbase] := Option.some.inj hevents
    have hrun : Steps (Files.Step onePage) onePageFiles ([] ++ [[.kalloc kernbase]]) s :=
      .snoc (.nil _) (.call ⟨by decide, by decide⟩ hcall)
    refine ⟨s, hrun, ?_⟩
    obtain ⟨-, -, -, -, hpages⟩ := open_files_counted hbooks hrun
    by_contra hclosed
    exact absurd ((hpages kernbase).2 hclosed) (by decide)

end FogOS.Kernel
