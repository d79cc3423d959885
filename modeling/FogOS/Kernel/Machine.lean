import FogOS.Kernel.Proc
import FogOS.Lib.Steps

/-!
# Interleaved processes

Fork, exit, wait and kill of `kernel/proc.c`, and the counting of system calls in
`kernel/syscall.c`, one critical section of `wait_lock` or `p->lock` at a time, in any order. A
process stands at one place of the code between two critical sections.

What fork, exit and wait depend on is a small table, the view of the machine: the lives of the
processes, where they stand, and `wait_lock`. Every critical section moves the view in one of a few
ways. A call that is not interrupted is a run of the machine.
-/

namespace FogOS.Kernel

/-- Where a process stands. -/
inductive Pc
  /-- In user space. -/
  | user
  /-- In the body of a known system call. -/
  | call
  /-- The body has returned, and `p->countp++` comes next. -/
  | returning
  /-- In `kfork`, before `np->parent = p`. -/
  | forked (child : Fin nproc)
  /-- In `kfork`, before `np->state = RUNNABLE`. -/
  | linked (child : Fin nproc)
  /-- In `kexit`, before `acquire(&wait_lock)`. -/
  | exiting (status : Int)
  /-- In `kexit`, with `wait_lock`, after `reparent(p)`. -/
  | orphaned (status : Int)
  /-- In the scan of `kwait2(status, count)`, with `wait_lock`, before slot `next`. -/
  | scanning (status count next : Nat) (havekids : Bool)
  /-- In `sleep(p, &wait_lock)` of `kwait2(status, count)`. -/
  | waiting (status count : Nat)
  deriving DecidableEq

/-- What a step shows. Processes are named by their slots. -/
inductive Event
  | quiet
  /-- `kfork` of `parent` returns `pid`, which is in slot `child`. -/
  | fork (parent child : Fin nproc) (pid : Int)
  /-- A known system call is completed. -/
  | call (i : Fin nproc)
  /-- `kexit(status)`. -/
  | exit (i : Fin nproc) (status : Int)
  /-- `kwait2` of `parent` returns `pid`, with what it has copied out. -/
  | collect (parent child : Fin nproc) (pid : Int) (status count : Option Int)
  /-- `kwait2` returns -1 because a copyout has failed. -/
  | refuse (parent child : Fin nproc)
  /-- `kwait2` returns -1 at the end of a scan. -/
  | childless (i : Fin nproc)
  deriving DecidableEq

/-- The kernel, the holder of `wait_lock`, and where every process stands. -/
structure Machine where
  kernel : State
  waitLock : Option (Fin nproc)
  pc : Fin nproc → Pc

/-- The states of a process that has started and not exited. -/
def ProcState.Alive : ProcState → Prop
  | SLEEPING | RUNNABLE | RUNNING => True
  | UNUSED | USED | ZOMBIE => False

instance : DecidablePred ProcState.Alive
  | .SLEEPING | .RUNNABLE | .RUNNING => isTrue trivial
  | .UNUSED | .USED | .ZOMBIE => isFalse id

/-- The fields of a process that fork, exit and wait are about. -/
structure Life where
  state : ProcState
  pid : Int
  parent : Option (Fin nproc)
  xstate : Int
  countp : Int

def Proc.life (p : Proc) : Life := ⟨p.state, p.pid, p.parent, p.xstate, p.countp⟩

/-- The code that is not followed here (the other system calls, page faults, traps) leaves these
fields alone. -/
structure Elsewhere (s t : State) : Prop where
  life : ∀ j, (t.proc j).life = (s.proc j).life
  nextpid : t.nextpid = s.nextpid
  initproc : t.initproc = s.initproc

/-- The part of `kfork` under the first `np->lock`, for the slot that `allocproc` has found. -/
def forkSlot (s : State) (i j : Fin nproc) : Except Stop (Bool × State) := do
  let (ready, t) ← initSlot s j
  if !ready then pure (false, t) else forkCopy t (s.proc i) j

/-- What a copyout to `addr` tells the user. -/
def told (addr : Nat) (n : Int) : Option Int := if addr = 0 then none else some n

namespace Machine

/-- Process `i` is running, and stands at `c`. -/
def At (m : Machine) (i : Fin nproc) (c : Pc) : Prop :=
  (m.kernel.proc i).state = .RUNNING ∧ m.pc i = c

/-- Process `i` has gone on to `c`. -/
def goto (m : Machine) (i : Fin nproc) (c : Pc) : Machine :=
  { m with pc := Function.update m.pc i c }

/-- Assignment to the fields of process `j`. -/
def modify (m : Machine) (j : Fin nproc) (f : Proc → Proc) : Machine :=
  { m with kernel := m.kernel.setProc j (f (m.kernel.proc j)) }

end Machine

open Machine

/-- One critical section. -/
inductive Step : Machine → Event → Machine → Prop
  /-- `scheduler`, `yield`, `sleep` and `wakeup`. -/
  | schedule {m : Machine} {j : Fin nproc} {st : ProcState}
      (hj : (m.kernel.proc j).state.Alive) (hst : st.Alive) :
      Step m .quiet (m.modify j fun p => { p with state := st })
  /-- `kkill` at the slot it has found, and `setkilled`. -/
  | kill {m : Machine} {j : Fin nproc} :
      Step m .quiet (m.modify j fun p =>
        { p with killed := true, state := if p.state = .SLEEPING then .RUNNABLE else p.state })
  | elsewhere {m : Machine} {t : State} (ht : Elsewhere m.kernel t) :
      Step m .quiet { m with kernel := t }
  /-- `syscall` finds the number in its table. -/
  | enter {m : Machine} {i : Fin nproc} (hi : m.At i .user) : Step m .quiet (m.goto i .call)
  | body {m : Machine} {i : Fin nproc} (hi : m.At i .call) : Step m .quiet (m.goto i .returning)
  | count {m : Machine} {i : Fin nproc} (hi : m.At i .returning) :
      Step m (.call i) ((m.modify i fun p => { p with countp := toInt32 (p.countp + 1) }).goto i .user)
  | forkNone {m : Machine} {i : Fin nproc} (hi : m.At i .call) :
      Step m .quiet (m.goto i .returning)
  | forkFail {m : Machine} {i j : Fin nproc} {t : State} (hi : m.At i .call)
      (hj : (m.kernel.proc j).state = .UNUSED) (ht : forkSlot m.kernel i j = .ok (false, t)) :
      Step m .quiet ({ m with kernel := t }.goto i .returning)
  | forkCopy {m : Machine} {i j : Fin nproc} {t : State} (hi : m.At i .call)
      (hj : (m.kernel.proc j).state = .UNUSED) (ht : forkSlot m.kernel i j = .ok (true, t)) :
      Step m .quiet ({ m with kernel := t }.goto i (.forked j))
  | forkLink {m : Machine} {i j : Fin nproc} (hi : m.At i (.forked j)) (hlock : m.waitLock = none) :
      Step m .quiet ({ m with kernel := forkLink m.kernel i j }.goto i (.linked j))
  | forkStart {m : Machine} {i j : Fin nproc} (hi : m.At i (.linked j)) :
      Step m (.fork i j (m.kernel.proc j).pid)
        ({ m with kernel := forkStart m.kernel j }.goto i .returning)
  /-- `exit`, and the exits of `usertrap`. Init panics here. -/
  | exitClose {m : Machine} {i : Fin nproc} {status : Int} {t : State}
      (hi : m.At i .user ∨ m.At i .call) (hinit : m.kernel.initproc ≠ some i)
      (ht : exitClose m.kernel i = .ok t) :
      Step m .quiet ({ m with kernel := t }.goto i (.exiting status))
  | exitOrphan {m : Machine} {i : Fin nproc} {status : Int} (hi : m.At i (.exiting status))
      (hlock : m.waitLock = none) :
      Step m (.exit i status)
        ({ m with kernel := reparent m.kernel i, waitLock := some i }.goto i (.orphaned status))
  | exitZombie {m : Machine} {i : Fin nproc} {status : Int} (hi : m.At i (.orphaned status)) :
      Step m .quiet
        ({ m with kernel := exitZombie m.kernel i status, waitLock := none }.goto i .user)
  | waitEnter {m : Machine} {i : Fin nproc} (status count : Nat) (hi : m.At i .call)
      (hlock : m.waitLock = none) :
      Step m .quiet ({ m with waitLock := some i }.goto i (.scanning status count 0 false))
  /-- Slot `j` is not a child. -/
  | waitSkip {m : Machine} {i : Fin nproc} {status count : Nat} {j : Fin nproc} {kids : Bool}
      (hi : m.At i (.scanning status count j kids)) (hj : (m.kernel.proc j).parent ≠ some i) :
      Step m .quiet (m.goto i (.scanning status count (j + 1) kids))
  /-- Slot `j` is a child that has not exited. -/
  | waitLive {m : Machine} {i : Fin nproc} {status count : Nat} {j : Fin nproc} {kids : Bool}
      (hi : m.At i (.scanning status count j kids)) (hj : (m.kernel.proc j).parent = some i)
      (hst : (m.kernel.proc j).state ≠ .ZOMBIE) :
      Step m .quiet (m.goto i (.scanning status count (j + 1) true))
  | waitCollect {m : Machine} {i : Fin nproc} {status count : Nat} {j : Fin nproc} {kids : Bool}
      {t : State} (hi : m.At i (.scanning status count j kids))
      (hj : (m.kernel.proc j).parent = some i) (hst : (m.kernel.proc j).state = .ZOMBIE)
      (ht : reap m.kernel i j status count = .ok (true, t)) :
      Step m (.collect i j (m.kernel.proc j).pid (told status (m.kernel.proc j).xstate)
          (told count (m.kernel.proc j).countp))
        ({ m with kernel := t, waitLock := none }.goto i .returning)
  | waitRefuse {m : Machine} {i : Fin nproc} {status count : Nat} {j : Fin nproc} {kids : Bool}
      {t : State} (hi : m.At i (.scanning status count j kids))
      (hj : (m.kernel.proc j).parent = some i) (hst : (m.kernel.proc j).state = .ZOMBIE)
      (ht : reap m.kernel i j status count = .ok (false, t)) :
      Step m (.refuse i j) ({ m with kernel := t, waitLock := none }.goto i .returning)
  | waitNone {m : Machine} {i : Fin nproc} {status count : Nat} {kids : Bool}
      (hi : m.At i (.scanning status count nproc kids))
      (hkids : kids = false ∨ (m.kernel.proc i).killed) :
      Step m (.childless i) ({ m with waitLock := none }.goto i .returning)
  | waitSleep {m : Machine} {i : Fin nproc} {status count : Nat}
      (hi : m.At i (.scanning status count nproc true)) (hkilled : (m.kernel.proc i).killed = false) :
      Step m .quiet ({ m.modify i fun p => { p with state := .SLEEPING } with waitLock := none }.goto i
        (.waiting status count))
  | waitAgain {m : Machine} {i : Fin nproc} {status count : Nat}
      (hi : m.At i (.waiting status count)) (hlock : m.waitLock = none) :
      Step m .quiet ({ m with waitLock := some i }.goto i (.scanning status count 0 false))

/-! ### What the kernel does to the lives -/

variable {s t : State} {i j : Fin nproc}

lemma Elsewhere.refl (s : State) : Elsewhere s s := ⟨fun _ => rfl, rfl, rfl⟩

lemma Elsewhere.trans {s t u : State} (h : Elsewhere s t) (h' : Elsewhere t u) : Elsewhere s u :=
  ⟨fun j => (h'.life j).trans (h.life j), h'.nextpid.trans h.nextpid, h'.initproc.trans h.initproc⟩

/-- Assignments to the memory of a process. -/
lemma Elsewhere.setProc {p : Proc} (k : Kmem) (hp : p.life = (s.proc i).life) :
    Elsewhere s { s.setProc i p with kmem := k } where
  life j := by
    by_cases hj : j = i
    · subst hj
      simpa [State.setProc] using hp
    · simp [State.setProc, hj]
  nextpid := rfl
  initproc := rfl

lemma freeproc_ok {k k' : Kmem} {p p' : Proc} (h : freeproc k p = .ok (k', p')) :
    p' = p.cleared := by
  unfold freeproc at h
  obtain ⟨⟨k₁, pt⟩, -, h⟩ := bind_ok h
  obtain ⟨k₂, -, h⟩ := bind_ok h
  obtain ⟨-, rfl⟩ := Prod.mk.inj (pure_ok h)
  rfl

/-- The slot `j` has been given to a new process, or given back. -/
structure Slot (s : State) (j : Fin nproc) (done : Bool) (t : State) : Prop where
  others : ∀ k, k ≠ j → t.proc k = s.proc k
  initproc : t.initproc = s.initproc
  state : (t.proc j).state = if done then .USED else .UNUSED
  parent : (t.proc j).parent = if done then (s.proc j).parent else none
  countp : (t.proc j).countp = 0

lemma initSlot_ok {done : Bool} (h : initSlot s j = .ok (done, t)) :
    Slot s j done t ∧ t.nextpid = s.nextpid + 1 ∧
      (t.proc j).pid = if done then s.nextpid else 0 := by
  unfold initSlot at h
  dsimp only at h
  split at h
  · obtain ⟨⟨k, p⟩, hp, h⟩ := bind_ok h
    obtain ⟨rfl, rfl⟩ := Prod.mk.inj (pure_ok h)
    obtain rfl := freeproc_ok hp
    refine ⟨⟨fun k hk => ?_, rfl, ?_, ?_, ?_⟩, rfl, ?_⟩ <;>
      simp_all [State.setProc, Proc.cleared]
  · obtain ⟨⟨pt, k⟩, -, h⟩ := bind_ok h
    dsimp only at h
    split at h
    · obtain ⟨⟨k, p⟩, hp, h⟩ := bind_ok h
      obtain ⟨rfl, rfl⟩ := Prod.mk.inj (pure_ok h)
      obtain rfl := freeproc_ok hp
      refine ⟨⟨fun k hk => ?_, rfl, ?_, ?_, ?_⟩, rfl, ?_⟩ <;>
        simp_all [State.setProc, Proc.cleared]
    · obtain ⟨rfl, rfl⟩ := Prod.mk.inj (pure_ok h)
      refine ⟨⟨fun k hk => ?_, rfl, ?_, ?_, ?_⟩, rfl, ?_⟩ <;> simp_all [State.setProc]

lemma forkMemory_ok {k k' : Kmem} {p np np' : Proc} {done : Bool}
    (h : forkMemory k p np = .ok (done, k', np')) :
    if done then np'.life = np.life else ∃ q : Proc, q.life = np.life ∧ np' = q.cleared := by
  unfold forkMemory at h
  obtain ⟨ppt, -, h⟩ := bind_ok h
  obtain ⟨npt, -, h⟩ := bind_ok h
  obtain ⟨⟨copied, k₁, npt₁⟩, -, h⟩ := bind_ok h
  dsimp only at h
  split at h
  · obtain ⟨⟨k₂, q⟩, hq, h⟩ := bind_ok h
    obtain ⟨rfl, hr⟩ := Prod.mk.inj (pure_ok h)
    obtain ⟨-, rfl⟩ := Prod.mk.inj hr
    refine ⟨_, ?_, freeproc_ok hq⟩
    rfl
  · obtain ⟨tf, -, h⟩ := bind_ok h
    obtain ⟨ntf, -, h⟩ := bind_ok h
    split at h
    · obtain ⟨⟨shared, k₂, npt₂⟩, -, h⟩ := bind_ok h
      dsimp only at h
      split at h
      · obtain ⟨⟨k₃, q⟩, hq, h⟩ := bind_ok h
        obtain ⟨rfl, hr⟩ := Prod.mk.inj (pure_ok h)
        obtain ⟨-, rfl⟩ := Prod.mk.inj hr
        refine ⟨_, ?_, freeproc_ok hq⟩
        rfl
      · obtain ⟨rfl, hr⟩ := Prod.mk.inj (pure_ok h)
        obtain ⟨-, rfl⟩ := Prod.mk.inj hr
        rfl
    · obtain ⟨rfl, hr⟩ := Prod.mk.inj (pure_ok h)
      obtain ⟨-, rfl⟩ := Prod.mk.inj hr
      rfl

/-- The life of a slot that has been given back. -/
def Life.cleared (l : Life) : Life := ⟨.UNUSED, 0, none, 0, l.countp⟩

lemma life_cleared (p : Proc) : p.cleared.life = p.life.cleared := rfl

lemma forkCopy_ok {p : Proc} {done : Bool} (h : forkCopy s p j = .ok (done, t)) :
    (∀ k, k ≠ j → t.proc k = s.proc k) ∧ t.initproc = s.initproc ∧ t.nextpid = s.nextpid ∧
      (t.proc j).life = if done then (s.proc j).life else (s.proc j).life.cleared := by
  unfold forkCopy at h
  obtain ⟨⟨done', k, np⟩, hmem, h⟩ := bind_ok h
  have hnp := forkMemory_ok hmem
  dsimp only at h
  split at h
  · obtain ⟨rfl, rfl⟩ := Prod.mk.inj (pure_ok h)
    have hdone : done' = false := by simpa using ‹(!done') = true›
    subst hdone
    obtain ⟨q, hq, rfl⟩ := hnp
    refine ⟨fun k hk => by simp [State.setProc, hk], rfl, rfl, ?_⟩
    simp [State.setProc, life_cleared, hq]
  · obtain ⟨fileRef, -, h⟩ := bind_ok h
    obtain ⟨cwd, -, h⟩ := bind_ok h
    obtain ⟨rfl, rfl⟩ := Prod.mk.inj (pure_ok h)
    have hdone : done' = true := by simpa using ‹¬ (!done') = true›
    subst hdone
    refine ⟨fun k hk => by simp [State.setProc, hk], rfl, rfl, ?_⟩
    simpa [State.setProc, Proc.life] using hnp

/-- The first critical section of `kfork`. -/
lemma forkSlot_ok {done : Bool} (h : forkSlot s i j = .ok (done, t)) :
    (∀ k, k ≠ j → t.proc k = s.proc k) ∧ t.initproc = s.initproc ∧
      t.nextpid = s.nextpid + 1 ∧ (t.proc j).countp = 0 ∧
      (if done then (t.proc j).state = .USED ∧ (t.proc j).parent = (s.proc j).parent ∧
          (t.proc j).pid = s.nextpid
        else (t.proc j).state = .UNUSED ∧ (t.proc j).parent = none ∧ (t.proc j).pid = 0) := by
  unfold forkSlot at h
  obtain ⟨⟨ready, u⟩, hu, h⟩ := bind_ok h
  obtain ⟨hslot, hnext, hpid⟩ := initSlot_ok hu
  dsimp only at h
  split at h
  · obtain ⟨rfl, rfl⟩ := Prod.mk.inj (pure_ok h)
    have hready : ready = false := by simpa using ‹(!ready) = true›
    subst hready
    exact ⟨hslot.others, hslot.initproc, hnext, hslot.countp, hslot.state, hslot.parent, hpid⟩
  · have hready : ready = true := by simpa using ‹¬ (!ready) = true›
    subst hready
    obtain ⟨hothers, hinit, hnext', hlife⟩ := forkCopy_ok h
    refine ⟨fun k hk => (hothers k hk).trans (hslot.others k hk), hinit.trans hslot.initproc,
      hnext'.trans hnext, ?_, ?_⟩
    · have hcount := congrArg Life.countp hlife
      have hzero := hslot.countp
      cases done <;> simpa [Proc.life, Life.cleared, hzero] using hcount
    · have hstate := congrArg Life.state hlife
      have hparent := congrArg Life.parent hlife
      have hpid' := congrArg Life.pid hlife
      have := hslot.state
      have := hslot.parent
      cases done <;> simp_all [Proc.life, Life.cleared]

lemma exitClose_ok (h : exitClose s i = .ok t) : Elsewhere s t := by
  unfold exitClose at h
  obtain ⟨fileRef, -, h⟩ := bind_ok h
  obtain ⟨fs₁, -, h⟩ := bind_ok h
  obtain ⟨cwd, -, h⟩ := bind_ok h
  obtain ⟨fs₂, -, h⟩ := bind_ok h
  obtain ⟨fs₃, -, h⟩ := bind_ok h
  obtain rfl := pure_ok h
  refine ⟨fun k => ?_, rfl, rfl⟩
  by_cases hk : k = i
  · subst hk
    simp [State.setProc, Proc.life]
  · simp [State.setProc, hk]

lemma copyoutInt_ok {addr : Nat} {n : Int} {copied : Bool}
    (h : copyoutInt s i addr n = .ok (copied, t)) : Elsewhere s t := by
  unfold copyoutInt at h
  split at h
  · obtain ⟨-, rfl⟩ := Prod.mk.inj (pure_ok h)
    exact .refl _
  · obtain ⟨pt, -, h⟩ := bind_ok h
    obtain ⟨⟨c, k, pt'⟩, -, h⟩ := bind_ok h
    obtain ⟨-, rfl⟩ := Prod.mk.inj (pure_ok h)
    exact .setProc k rfl

/-- A child is freed, or nothing has happened to any process. -/
lemma reap_ok {status count : Nat} {collected : Bool}
    (h : reap s i j status count = .ok (collected, t)) :
    t.nextpid = s.nextpid ∧ t.initproc = s.initproc ∧
      ∀ k, (t.proc k).life =
        if collected ∧ k = j then (s.proc j).life.cleared else (s.proc k).life := by
  unfold reap at h
  obtain ⟨⟨copied, s₁⟩, h₁, h⟩ := bind_ok h
  have e₁ := copyoutInt_ok h₁
  dsimp only at h
  split at h
  · obtain ⟨rfl, rfl⟩ := Prod.mk.inj (pure_ok h)
    exact ⟨e₁.nextpid, e₁.initproc, fun k => by simpa using e₁.life k⟩
  · obtain ⟨⟨copied', s₂⟩, h₂, h⟩ := bind_ok h
    have e₂ := e₁.trans (copyoutInt_ok h₂)
    dsimp only at h
    split at h
    · obtain ⟨rfl, rfl⟩ := Prod.mk.inj (pure_ok h)
      exact ⟨e₂.nextpid, e₂.initproc, fun k => by simpa using e₂.life k⟩
    · obtain ⟨⟨k, pp⟩, hpp, h⟩ := bind_ok h
      obtain ⟨rfl, rfl⟩ := Prod.mk.inj (pure_ok h)
      obtain rfl := freeproc_ok hpp
      refine ⟨e₂.nextpid, e₂.initproc, fun k => ?_⟩
      by_cases hk : k = j
      · subst hk
        simp [State.setProc, life_cleared, e₂.life]
      · simpa [State.setProc, hk] using e₂.life k

lemma growproc_elsewhere {n r : Int} (h : growproc s i n = .ok (r, t)) : Elsewhere s t := by
  unfold growproc at h
  dsimp only at h
  split at h
  · obtain ⟨pt, -, h⟩ := bind_ok h
    obtain ⟨⟨sz, k, pt'⟩, -, h⟩ := bind_ok h
    dsimp only at h
    split at h
    · obtain ⟨-, rfl⟩ := Prod.mk.inj (pure_ok h)
      exact .setProc k rfl
    · obtain ⟨-, rfl⟩ := Prod.mk.inj (pure_ok h)
      exact .setProc k rfl
  · split at h
    · obtain ⟨pt, -, h⟩ := bind_ok h
      obtain ⟨⟨sz, k, pt'⟩, -, h⟩ := bind_ok h
      obtain ⟨-, rfl⟩ := Prod.mk.inj (pure_ok h)
      exact .setProc k rfl
    · obtain ⟨-, rfl⟩ := Prod.mk.inj (pure_ok h)
      exact .refl _

/-- A system call that is not followed. -/
lemma sysSbrk_elsewhere {n r : Int} {eager : Bool} (h : sysSbrk s i n eager = .ok (r, t)) :
    Elsewhere s t := by
  unfold sysSbrk at h
  dsimp only at h
  split at h
  · obtain ⟨⟨r', u⟩, hgrow, h⟩ := bind_ok h
    dsimp only at h
    split at h
    · obtain ⟨-, rfl⟩ := Prod.mk.inj (pure_ok h)
      exact growproc_elsewhere hgrow
    · obtain ⟨-, rfl⟩ := Prod.mk.inj (pure_ok h)
      exact growproc_elsewhere hgrow
  · split at h
    · obtain ⟨-, rfl⟩ := Prod.mk.inj (pure_ok h)
      exact .refl _
    · obtain ⟨-, rfl⟩ := Prod.mk.inj (pure_ok h)
      refine ⟨fun k => ?_, rfl, rfl⟩
      by_cases hk : k = i
      · subst hk
        simp [State.setProc, Proc.life]
      · simp [State.setProc, hk]

/-! ### Views -/

/-- What fork, exit and wait depend on. -/
structure View where
  life : Fin nproc → Life
  pc : Fin nproc → Pc
  waitLock : Option (Fin nproc)
  nextpid : Int
  initproc : Option (Fin nproc)

namespace View

def goto (v : View) (i : Fin nproc) (c : Pc) : View := { v with pc := Function.update v.pc i c }

def setLife (v : View) (j : Fin nproc) (l : Life) : View :=
  { v with life := Function.update v.life j l }

section

variable (v : View) (i j k : Fin nproc) (c : Pc) (l : Life)

@[simp, grind =] lemma goto_pc : (v.goto i c).pc k = if k = i then c else v.pc k := by
  simp [goto, Function.update_apply]

@[simp, grind =] lemma goto_life : (v.goto i c).life k = v.life k := rfl
@[simp, grind =] lemma goto_waitLock : (v.goto i c).waitLock = v.waitLock := rfl
@[simp, grind =] lemma goto_nextpid : (v.goto i c).nextpid = v.nextpid := rfl
@[simp, grind =] lemma goto_initproc : (v.goto i c).initproc = v.initproc := rfl

@[simp, grind =] lemma setLife_life : (v.setLife j l).life k = if k = j then l else v.life k := by
  simp [setLife, Function.update_apply]

@[simp, grind =] lemma setLife_pc : (v.setLife j l).pc k = v.pc k := rfl
@[simp, grind =] lemma setLife_waitLock : (v.setLife j l).waitLock = v.waitLock := rfl
@[simp, grind =] lemma setLife_nextpid : (v.setLife j l).nextpid = v.nextpid := rfl
@[simp, grind =] lemma setLife_initproc : (v.setLife j l).initproc = v.initproc := rfl

end

/-- The children of `i` are passed to init. -/
def reparent (v : View) (i : Fin nproc) : View :=
  { v with life := fun j => { v.life j with parent := if (v.life j).parent = some i then v.initproc else (v.life j).parent } }

section

variable (v : View) (i k : Fin nproc)

@[simp, grind =] lemma reparent_parent : ((v.reparent i).life k).parent =
    if (v.life k).parent = some i then v.initproc else (v.life k).parent := rfl

@[simp, grind =] lemma reparent_state : ((v.reparent i).life k).state = (v.life k).state := rfl

@[simp, grind =] lemma reparent_pid : ((v.reparent i).life k).pid = (v.life k).pid := rfl

@[simp, grind =] lemma reparent_xstate : ((v.reparent i).life k).xstate = (v.life k).xstate := rfl

@[simp, grind =] lemma reparent_countp : ((v.reparent i).life k).countp = (v.life k).countp := rfl

@[simp, grind =] lemma reparent_pc : (v.reparent i).pc k = v.pc k := rfl
@[simp, grind =] lemma reparent_nextpid : (v.reparent i).nextpid = v.nextpid := rfl
@[simp, grind =] lemma reparent_initproc : (v.reparent i).initproc = v.initproc := rfl

end

end View

def Machine.view (m : Machine) : View :=
  ⟨fun j => (m.kernel.proc j).life, m.pc, m.waitLock, m.kernel.nextpid, m.kernel.initproc⟩

/-- Places at which a process holds nothing and owes nothing. -/
def Pc.Free : Pc → Prop
  | .user | .call | .returning | .waiting _ _ => True
  | _ => False

/-- The ways in which a critical section moves the view. -/
inductive Move : View → Event → View → Prop
  | schedule {v : View} {j : Fin nproc} {st : ProcState} (hj : (v.life j).state.Alive)
      (hst : st.Alive) : Move v .quiet (v.setLife j { v.life j with state := st })
  | stay {v : View} : Move v .quiet v
  | goto {v : View} {i : Fin nproc} {c : Pc} (hi : (v.life i).state.Alive) (hfree : (v.pc i).Free)
      (hc : c.Free) : Move v .quiet (v.goto i c)
  | count {v : View} {i : Fin nproc} (hi : (v.life i).state.Alive) (hpc : v.pc i = .returning) :
      Move v (.call i)
        ((v.setLife i { v.life i with countp := toInt32 ((v.life i).countp + 1) }).goto i .user)
  | forkFail {v : View} {i j : Fin nproc} {l : Life} (hi : (v.life i).state.Alive)
      (hpc : v.pc i = .call) (hj : (v.life j).state = .UNUSED) (hl : l.state = .UNUSED)
      (hparent : l.parent = none) (hpid : l.pid = 0) :
      Move v .quiet ({ v.setLife j l with nextpid := v.nextpid + 1 }.goto i .returning)
  | forkCopy {v : View} {i j : Fin nproc} {l : Life} (hi : (v.life i).state.Alive)
      (hpc : v.pc i = .call) (hj : (v.life j).state = .UNUSED) (hl : l.state = .USED)
      (hparent : l.parent = (v.life j).parent) (hpid : l.pid = v.nextpid) (hcount : l.countp = 0) :
      Move v .quiet ({ v.setLife j l with nextpid := v.nextpid + 1 }.goto i (.forked j))
  | forkLink {v : View} {i j : Fin nproc} (hi : (v.life i).state.Alive) (hpc : v.pc i = .forked j)
      (hlock : v.waitLock = none) :
      Move v .quiet ((v.setLife j { v.life j with parent := some i }).goto i (.linked j))
  | forkStart {v : View} {i j : Fin nproc} (hi : (v.life i).state.Alive)
      (hpc : v.pc i = .linked j) :
      Move v (.fork i j (v.life j).pid)
        ((v.setLife j { v.life j with state := .RUNNABLE }).goto i .returning)
  | exitClose {v : View} {i : Fin nproc} {status : Int} (hi : (v.life i).state.Alive)
      (hfree : (v.pc i).Free) (hinit : v.initproc ≠ some i) :
      Move v .quiet (v.goto i (.exiting status))
  | exitOrphan {v : View} {i : Fin nproc} {status : Int} (hi : (v.life i).state.Alive)
      (hpc : v.pc i = .exiting status) (hlock : v.waitLock = none) :
      Move v (.exit i status)
        ({ v.reparent i with waitLock := some i }.goto i (.orphaned status))
  | exitZombie {v : View} {i : Fin nproc} {status : Int} (hi : (v.life i).state.Alive)
      (hpc : v.pc i = .orphaned status) :
      Move v .quiet ({ v.setLife i { v.life i with xstate := status, state := .ZOMBIE } with
        waitLock := none }.goto i .user)
  | waitBegin {v : View} {i : Fin nproc} (status count : Nat) (hi : (v.life i).state.Alive)
      (hfree : (v.pc i).Free) (hlock : v.waitLock = none) :
      Move v .quiet ({ v with waitLock := some i }.goto i (.scanning status count 0 false))
  | waitNext {v : View} {i j : Fin nproc} {status count : Nat} {kids kids' : Bool}
      (hi : (v.life i).state.Alive) (hpc : v.pc i = .scanning status count j kids)
      (hkids : kids' = false → kids = false ∧ (v.life j).parent ≠ some i) :
      Move v .quiet (v.goto i (.scanning status count (j + 1) kids'))
  | waitCollect {v : View} {i j : Fin nproc} {status count : Nat} {kids : Bool}
      (hi : (v.life i).state.Alive) (hpc : v.pc i = .scanning status count j kids)
      (hj : (v.life j).parent = some i) (hst : (v.life j).state = .ZOMBIE) :
      Move v (.collect i j (v.life j).pid (told status (v.life j).xstate)
          (told count (v.life j).countp))
        ({ v.setLife j (v.life j).cleared with waitLock := none }.goto i .returning)
  | waitRefuse {v : View} {i j : Fin nproc} {status count : Nat} {kids : Bool}
      (hi : (v.life i).state.Alive) (hpc : v.pc i = .scanning status count j kids)
      (hj : (v.life j).parent = some i) (hst : (v.life j).state = .ZOMBIE) :
      Move v (.refuse i j) ({ v with waitLock := none }.goto i .returning)
  | waitNone {v : View} {i : Fin nproc} {status count : Nat} {kids : Bool}
      (hi : (v.life i).state.Alive) (hpc : v.pc i = .scanning status count nproc kids) :
      Move v (.childless i) ({ v with waitLock := none }.goto i .returning)
  | waitSleep {v : View} {i : Fin nproc} {status count : Nat} (hi : (v.life i).state.Alive)
      (hpc : v.pc i = .scanning status count nproc true) :
      Move v .quiet ({ v.setLife i { v.life i with state := .SLEEPING } with
        waitLock := none }.goto i (.waiting status count))

lemma Move.congr {v v₁ v₂ : View} {e : Event} (h : Move v e v₁) (hv : v₂ = v₁) : Move v e v₂ :=
  hv ▸ h

namespace Machine

variable {m : Machine} {c : Pc}

lemma At.alive (h : m.At i c) : (m.view.life i).state.Alive := by
  have hrun : (m.view.life i).state = .RUNNING := h.1
  rw [hrun]
  trivial

lemma At.free (h : m.At i c) (hc : c.Free) : (m.view.pc i).Free := by
  have hpc : m.view.pc i = c := h.2
  rwa [hpc]

lemma view_setProc (m : Machine) (j : Fin nproc) (p : Proc) :
    { m with kernel := m.kernel.setProc j p }.view = m.view.setLife j p.life := by
  have hlife : (fun k => ((m.kernel.setProc j p).proc k).life) =
      Function.update m.view.life j p.life := by
    funext k
    by_cases hk : k = j
    · subst hk
      simp [State.setProc]
    · simp [State.setProc, hk, view]
  simp only [view, hlife, View.setLife]
  rfl

lemma view_modify (m : Machine) (j : Fin nproc) (f : Proc → Proc) :
    (m.modify j f).view = m.view.setLife j (f (m.kernel.proc j)).life :=
  view_setProc m j _

lemma view_elsewhere (h : Elsewhere m.kernel t) : { m with kernel := t }.view = m.view := by
  have hlife : (fun k => (t.proc k).life) = m.view.life := funext h.life
  simp only [view, hlife, h.nextpid, h.initproc]

lemma view_slot (hothers : ∀ k, k ≠ j → t.proc k = m.kernel.proc k)
    (hnext : t.nextpid = m.kernel.nextpid + 1) (hinit : t.initproc = m.kernel.initproc) :
    { m with kernel := t }.view =
      { m.view.setLife j (t.proc j).life with nextpid := m.view.nextpid + 1 } := by
  have hlife : (fun k => (t.proc k).life) = Function.update m.view.life j (t.proc j).life := by
    funext k
    by_cases hk : k = j
    · subst hk
      simp
    · simp [hothers k hk, hk, view]
  simp only [view, hlife, hnext, hinit, View.setLife]

lemma view_reparent (m : Machine) (i : Fin nproc) :
    { m with kernel := reparent m.kernel i }.view = m.view.reparent i := by
  have hlife : (fun k => ((reparent m.kernel i).proc k).life) = (m.view.reparent i).life := by
    funext k
    by_cases hk : (m.kernel.proc k).parent = some i <;>
      simp [reparent, View.reparent, view, Proc.life, hk]
  simp only [view, hlife]
  rfl

lemma view_reap {status count : Nat} (h : reap m.kernel i j status count = .ok (true, t)) :
    { m with kernel := t }.view = m.view.setLife j (m.view.life j).cleared := by
  obtain ⟨hnext, hinit, hlives⟩ := reap_ok h
  have hlife : (fun k => (t.proc k).life) =
      Function.update m.view.life j (m.view.life j).cleared := by
    funext k
    rw [hlives k]
    by_cases hk : k = j
    · subst hk
      simp [view]
    · simp [hk, view]
  simp only [view, hlife, hnext, hinit, View.setLife]

end Machine

/-- The machine refines the moves of its view. -/
lemma Step.move {m m' : Machine} {e : Event} (h : Step m e m') : Move m.view e m'.view := by
  cases h with
  | schedule hj hst =>
    rw [Machine.view_modify]
    exact .schedule hj hst
  | @kill j =>
    rw [Machine.view_modify]
    by_cases hs : (m.kernel.proc j).state = .SLEEPING
    · have hmove : Move m.view .quiet (m.view.setLife j { m.view.life j with state := .RUNNABLE }) :=
        .schedule (by simp [Machine.view, Proc.life, hs, ProcState.Alive]) trivial
      simpa [hs, Machine.view, Proc.life] using hmove
    · have hmove : Move m.view .quiet (m.view.setLife j (m.view.life j)) := by
        simpa [View.setLife] using Move.stay (v := m.view)
      simpa [hs, Machine.view, Proc.life] using hmove
  | elsewhere ht =>
    rw [Machine.view_elsewhere ht]
    exact .stay
  | enter hi => exact .goto hi.alive (hi.free trivial) trivial
  | body hi => exact .goto hi.alive (hi.free trivial) trivial
  | @count i hi =>
    have hmove := Move.count hi.alive hi.2
    have hview := Machine.view_modify m i fun p => { p with countp := toInt32 (p.countp + 1) }
    exact hmove.congr (congrArg (View.goto · i .user) hview)
  | forkNone hi => exact .goto hi.alive (hi.free trivial) trivial
  | @forkFail i j t hi hj ht =>
    obtain ⟨hothers, hinit, hnext, -, hstate, hparent, hpid⟩ := forkSlot_ok ht
    have hview := Machine.view_slot hothers hnext hinit
    have hmove := Move.forkFail (l := (t.proc j).life) hi.alive hi.2 hj hstate hparent hpid
    exact hmove.congr (congrArg (View.goto · i .returning) hview)
  | @forkCopy i j t hi hj ht =>
    obtain ⟨hothers, hinit, hnext, hcount, hstate, hparent, hpid⟩ := forkSlot_ok ht
    have hview := Machine.view_slot hothers hnext hinit
    have hmove := Move.forkCopy (l := (t.proc j).life) hi.alive hi.2 hj hstate hparent hpid hcount
    exact hmove.congr (congrArg (View.goto · i (.forked j)) hview)
  | @forkLink i j hi hlock =>
    have hview := Machine.view_setProc m j { m.kernel.proc j with parent := some i }
    exact (Move.forkLink hi.alive hi.2 hlock).congr (congrArg (View.goto · i (.linked j)) hview)
  | @forkStart i j hi =>
    have hview := Machine.view_setProc m j { m.kernel.proc j with state := .RUNNABLE }
    exact (Move.forkStart hi.alive hi.2).congr (congrArg (View.goto · i .returning) hview)
  | @exitClose i status t hi hinit ht =>
    have hview := Machine.view_elsewhere (exitClose_ok ht)
    have hmove : Move m.view .quiet (m.view.goto i (.exiting status)) := by
      rcases hi with hi | hi
      · exact .exitClose hi.alive (hi.free trivial) hinit
      · exact .exitClose hi.alive (hi.free trivial) hinit
    exact hmove.congr (congrArg (View.goto · i (.exiting status)) hview)
  | @exitOrphan i status hi hlock =>
    have hview := Machine.view_reparent m i
    have hmove := Move.exitOrphan hi.alive hi.2 hlock
    exact hmove.congr (congrArg (fun v : View => View.goto { v with waitLock := some i } i (.orphaned status)) hview)
  | @exitZombie i status hi =>
    have hview := Machine.view_setProc m i { m.kernel.proc i with xstate := status, state := .ZOMBIE }
    have hmove := Move.exitZombie hi.alive hi.2
    exact hmove.congr (congrArg (fun v : View => View.goto { v with waitLock := none } i .user) hview)
  | waitEnter status count hi hlock => exact .waitBegin status count hi.alive (hi.free trivial) hlock
  | waitSkip hi hj => exact .waitNext hi.alive hi.2 fun h => ⟨h, hj⟩
  | waitLive hi hj hst => exact .waitNext hi.alive hi.2 (by simp)
  | @waitCollect i status count j kids t hi hj hst ht =>
    have hview := Machine.view_reap ht
    have hmove := Move.waitCollect hi.alive hi.2 hj hst
    exact hmove.congr (congrArg (fun v : View => View.goto { v with waitLock := none } i .returning) hview)
  | @waitRefuse i status count j kids t hi hj hst ht =>
    obtain ⟨hnext, hinit, hlives⟩ := reap_ok ht
    have hview := Machine.view_elsewhere ⟨fun k => by simpa using hlives k, hnext, hinit⟩
    have hmove := Move.waitRefuse hi.alive hi.2 hj hst
    exact hmove.congr (congrArg (fun v : View => View.goto { v with waitLock := none } i .returning) hview)
  | waitNone hi hkids => exact .waitNone hi.alive hi.2
  | @waitSleep i status count hi hkilled =>
    have hview := Machine.view_modify m i fun p => { p with state := .SLEEPING }
    have hmove := Move.waitSleep hi.alive hi.2
    exact hmove.congr (congrArg (fun v : View => View.goto { v with waitLock := none } i (.waiting status count)) hview)
  | waitAgain hi hlock => exact .waitBegin _ _ hi.alive (hi.free trivial) hlock

variable {m m' : Machine}

/-! ### Calls that are not interrupted -/

lemma Machine.goto_goto (m : Machine) (i : Fin nproc) (c c' : Pc) :
    (m.goto i c).goto i c' = m.goto i c' := by
  simp [Machine.goto]

lemma Machine.at_goto {c : Pc} (hstate : (t.proc i).state = .RUNNING) (m : Machine) :
    ({ m with kernel := t }.goto i c).At i c := by
  refine ⟨hstate, ?_⟩
  simp [Machine.goto]

lemma forkSlot_run (hi : m.At i .call) (hj : (m.kernel.proc j).state = .UNUSED)
    (hlock : m.waitLock = none) (h : forkSlot m.kernel i j = .ok (true, t)) :
    Steps Step m [.quiet, .quiet, .fork i j (t.proc j).pid]
      ({ m with kernel := forkStart (forkLink t i j) j }.goto i .returning) := by
  have hij : i ≠ j := by
    rintro rfl
    simp [hi.1] at hj
  have hrun : (t.proc i).state = .RUNNING := by rw [(forkSlot_ok h).1 i hij, hi.1]
  have hrun' : ((forkLink t i j).proc i).state = .RUNNING := by simpa [forkLink, State.setProc, hij]
  have hlink : Step ({ m with kernel := t }.goto i (.forked j)) .quiet
      ({ m with kernel := forkLink t i j }.goto i (.linked j)) := by
    simpa [Machine.goto] using Step.forkLink (Machine.at_goto (c := .forked j) hrun m) hlock
  have hstart : Step ({ m with kernel := forkLink t i j }.goto i (.linked j))
      (.fork i j (t.proc j).pid)
      ({ m with kernel := forkStart (forkLink t i j) j }.goto i .returning) := by
    simpa [Machine.goto, forkLink, State.setProc] using
      Step.forkStart (Machine.at_goto (c := .linked j) hrun' m)
  exact .cons (.forkCopy hi hj h) (.cons hlink (.cons hstart (.nil _)))

/-- `kfork` is a run of the machine. -/
lemma kfork_run {pid : Int} (hi : m.At i .call) (hlock : m.waitLock = none)
    (h : kfork m.kernel i = .ok (pid, t)) :
    ∃ l, Steps Step m l ({ m with kernel := t }.goto i .returning) ∧
      ((∃ j, (List.finRange nproc).find? (fun j => (m.kernel.proc j).state = .UNUSED) = some j ∧
        l = [.quiet, .quiet, .fork i j pid]) ∨ l = [.quiet] ∧ pid = -1) := by
  unfold kfork at h
  obtain ⟨⟨slot, u⟩, hslot, h⟩ := bind_ok h
  unfold allocproc at hslot
  split at hslot
  · obtain ⟨rfl, rfl⟩ := Prod.mk.inj (pure_ok hslot)
    obtain ⟨rfl, rfl⟩ := Prod.mk.inj (pure_ok h)
    exact ⟨[.quiet], .cons (.forkNone hi) (.nil _), Or.inr ⟨rfl, rfl⟩⟩
  · next j hfind =>
    have hj : (m.kernel.proc j).state = .UNUSED := by simpa using List.find?_some hfind
    obtain ⟨⟨done, u'⟩, hinit, hslot⟩ := bind_ok hslot
    obtain ⟨rfl, rfl⟩ := Prod.mk.inj (pure_ok hslot)
    cases done with
    | false =>
      obtain ⟨rfl, rfl⟩ := Prod.mk.inj (pure_ok h)
      have hfork : forkSlot m.kernel i j = .ok (false, t) := by simp [forkSlot, hinit, ok_bind]; rfl
      exact ⟨[.quiet], .cons (.forkFail hi hj hfork) (.nil _), Or.inr ⟨rfl, rfl⟩⟩
    | true =>
      obtain ⟨⟨copied, u₂⟩, hcopy, h⟩ := bind_ok h
      have hfork : forkSlot m.kernel i j = .ok (copied, u₂) := by
        simpa [forkSlot, hinit, ok_bind] using hcopy
      cases copied with
      | false =>
        obtain ⟨rfl, rfl⟩ := Prod.mk.inj (pure_ok h)
        exact ⟨[.quiet], .cons (.forkFail hi hj hfork) (.nil _), Or.inr ⟨rfl, rfl⟩⟩
      | true =>
        obtain ⟨rfl, rfl⟩ := Prod.mk.inj (pure_ok h)
        exact ⟨_, forkSlot_run hi hj hlock hfork, Or.inl ⟨j, hfind, rfl⟩⟩

/-- `kexit` is a run of the machine. -/
lemma kexit_run {status : Int} (hi : m.At i .user ∨ m.At i .call) (hlock : m.waitLock = none)
    (h : kexit m.kernel i status = .ok t) :
    Steps Step m [.quiet, .exit i status, .quiet] ({ m with kernel := t }.goto i .user) := by
  unfold kexit at h
  split at h
  · cases h
  · next hinit =>
    obtain ⟨u, hclose, h⟩ := bind_ok h
    obtain rfl := pure_ok h
    have hstate : (m.kernel.proc i).state = .RUNNING := hi.elim (·.1) (·.1)
    have hrun : (u.proc i).state = .RUNNING :=
      (congrArg Life.state ((exitClose_ok hclose).life i)).trans hstate
    have hrun' : ((reparent u i).proc i).state = .RUNNING := by
      unfold reparent
      dsimp only
      split <;> exact hrun
    have horphan : Step ({ m with kernel := u }.goto i (.exiting status)) (.exit i status)
        ({ m with kernel := reparent u i, waitLock := some i }.goto i (.orphaned status)) := by
      simpa [Machine.goto] using Step.exitOrphan (Machine.at_goto (c := .exiting status) hrun m) hlock
    have hzombie : Step
        ({ m with kernel := reparent u i, waitLock := some i }.goto i (.orphaned status)) .quiet
        ({ m with kernel := exitZombie (reparent u i) i status }.goto i .user) := by
      simpa [Machine.goto, hlock] using Step.exitZombie
        (Machine.at_goto (c := .orphaned status) hrun' { m with waitLock := some i })
    exact .cons (.exitClose hi hinit hclose) (.cons horphan (.cons hzombie (.nil _)))

/-- The scan of `kwait2` goes past the slots that hold no child that has exited. -/
lemma scan_run (status count : Nat) (hi : (m.kernel.proc i).state = .RUNNING)
    (n : Nat) (hn : n ≤ nproc)
    (hpast : ∀ k : Fin nproc, k < n →
      ¬ ((m.kernel.proc k).parent = some i ∧ (m.kernel.proc k).state = .ZOMBIE)) :
    ∃ kids, Steps Step (m.goto i (.scanning status count 0 false)) (List.replicate n .quiet)
        (m.goto i (.scanning status count n kids)) ∧
      (kids = true ↔ ∃ k : Fin nproc, k < n ∧ (m.kernel.proc k).parent = some i) := by
  induction n with
  | zero => exact ⟨false, .nil _, by simp⟩
  | succ n ih =>
    obtain ⟨kids, hrun, hkids⟩ := ih (by omega) fun k hk => hpast k (by omega)
    have hat : (m.goto i (.scanning status count n kids)).At i
        (.scanning status count (⟨n, hn⟩ : Fin nproc) kids) := Machine.at_goto hi m
    rw [List.replicate_succ']
    by_cases hchild : (m.kernel.proc ⟨n, hn⟩).parent = some i
    · refine ⟨true, hrun.snoc ?_, ?_⟩
      · simpa [Machine.goto] using
          Step.waitLive hat hchild fun hz => hpast ⟨n, hn⟩ (Nat.lt_succ_self n) ⟨hchild, hz⟩
      · exact ⟨fun _ => ⟨⟨n, hn⟩, Nat.lt_succ_self n, hchild⟩, fun _ => rfl⟩
    · refine ⟨kids, hrun.snoc ?_, ?_⟩
      · simpa [Machine.goto] using Step.waitSkip hat hchild
      · rw [hkids]
        constructor
        · rintro ⟨k, hk, hp⟩
          exact ⟨k, by omega, hp⟩
        · rintro ⟨k, hk, hp⟩
          refine ⟨k, lt_of_le_of_ne (Nat.lt_succ_iff.mp hk) ?_, hp⟩
          intro heq
          exact hchild (by simpa [← heq] using hp)

lemma finRange_find {p : Fin nproc → Bool} (h : (List.finRange nproc).find? p = some j) :
    p j = true ∧ ∀ k : Fin nproc, k < j → p k = false := by
  obtain ⟨hj, n, hn, hget, hlt⟩ := List.find?_eq_some_iff_getElem.mp h
  have hnj : n = j := by simpa using congrArg Fin.val hget
  refine ⟨hj, fun k hk => ?_⟩
  have hk' : (k : Nat) < n := by omega
  simpa using hlt k hk'

/-- `kwait2` is a run of the machine. -/
lemma kwait2_run {status count : Nat} {pid : Int} (hi : m.At i .call) (hlock : m.waitLock = none)
    (h : kwait2 m.kernel i status count = .ok (pid, t)) :
    ∃ n e, Steps Step m (List.replicate n .quiet ++ [e]) ({ m with kernel := t }.goto i .returning) ∧
      ((∃ j, (List.finRange nproc).find? (fun j =>
            (m.kernel.proc j).parent = some i ∧ (m.kernel.proc j).state = .ZOMBIE) = some j ∧
          n = j + 1 ∧ e = .collect i j pid (told status (m.kernel.proc j).xstate)
            (told count (m.kernel.proc j).countp)) ∨
        pid = -1 ∧ ((∃ j, e = .refuse i j) ∨ e = .childless i)) := by
  have hbegin := Step.waitEnter status count hi hlock
  unfold kwait2 at h
  split at h
  · next j hfind =>
    obtain ⟨hj, hpast⟩ := finRange_find hfind
    obtain ⟨hparent, hzombie⟩ : (m.kernel.proc j).parent = some i ∧ (m.kernel.proc j).state = .ZOMBIE := by
      simpa using hj
    obtain ⟨⟨collected, u⟩, hreap, h⟩ := bind_ok h
    obtain ⟨rfl, rfl⟩ := Prod.mk.inj (pure_ok h)
    obtain ⟨kids, hscan, -⟩ := scan_run (m := { m with waitLock := some i }) status count hi.1 j j.isLt.le fun k hk => by simpa using hpast k hk
    have hat : ({ m with waitLock := some i }.goto i (.scanning status count j kids)).At i
        (.scanning status count j kids) := Machine.at_goto hi.1 { m with waitLock := some i }
    have hrun := Steps.cons hbegin hscan
    rw [← List.replicate_succ] at hrun
    cases collected with
    | true =>
      refine ⟨j + 1, _, hrun.snoc ?_, Or.inl ⟨j, hfind, rfl, rfl⟩⟩
      simpa [Machine.goto, hlock] using Step.waitCollect hat hparent hzombie hreap
    | false =>
      refine ⟨j + 1, _, hrun.snoc ?_, Or.inr ⟨rfl, Or.inl ⟨j, rfl⟩⟩⟩
      simpa [Machine.goto, hlock] using Step.waitRefuse hat hparent hzombie hreap
  · next hfind =>
    split at h
    · next hnone =>
      obtain ⟨rfl, rfl⟩ := Prod.mk.inj (pure_ok h)
      have hpast : ∀ k : Fin nproc, k < nproc →
          ¬ ((m.kernel.proc k).parent = some i ∧ (m.kernel.proc k).state = .ZOMBIE) := by
        intro k _
        simpa using List.find?_eq_none.mp hfind k (List.mem_finRange k)
      obtain ⟨kids, hscan, hkids⟩ := scan_run (m := { m with waitLock := some i }) status count hi.1 nproc le_rfl hpast
      have hat : ({ m with waitLock := some i }.goto i (.scanning status count nproc kids)).At i
          (.scanning status count nproc kids) := Machine.at_goto hi.1 { m with waitLock := some i }
      have hrun := Steps.cons hbegin hscan
      rw [← List.replicate_succ] at hrun
      refine ⟨nproc + 1, _, hrun.snoc ?_, Or.inr ⟨rfl, Or.inr rfl⟩⟩
      have hend : kids = false ∨ (m.kernel.proc i).killed := by
        rcases hnone with hnone | hkilled
        · refine Or.inl (Bool.eq_false_iff.mpr fun hk => ?_)
          obtain ⟨k, -, hk⟩ := hkids.mp hk
          exact hnone k hk
        · exact Or.inr hkilled
      simpa [Machine.goto, hlock] using Step.waitNone hat hend
    · cases h

end FogOS.Kernel
