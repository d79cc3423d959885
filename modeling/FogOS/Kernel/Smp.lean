import FogOS.Kernel.Scheduler

/-!
# Locks, sleeping and switching on several CPUs

`kernel/spinlock.c`, `kernel/sleeplock.c` and the switching in `kernel/proc.c`, as the CPUs run them side by side.
A function is the list of the accesses that it makes, one after another; what an access finds can put others before
the rest. Between any two accesses of one CPU the other CPUs make theirs, and where interrupts are on, there may be
one.
-/

namespace FogOS.Kernel.Smp

/-- `NCPU`. -/
def ncpu : Nat := 8

instance : NeZero ncpu := ⟨by decide⟩

/-- `p->lock`, the spinlock in a sleeplock, or another one. -/
inductive Lock
  | proc (i : Fin nproc)
  | sleep (L : Nat)
  | other (n : Nat)
  deriving DecidableEq

/-- What is slept on: a sleeplock, or anything else. -/
inductive Chan
  | sleep (L : Nat)
  | other (n : Nat)
  deriving DecidableEq

/-- The accesses. `self` is `myproc()` of the process `who`, or in the scheduler of none. -/
inductive Op
  | intrGet
  | intrOff
  | intrOn
  | push (old : Bool)
  | pop
  | checkFree (lk : Lock)
  | swap (lk : Lock)
  | mark (lk : Lock)
  | checkHeld (lk : Lock)
  | unmark (lk : Lock)
  | unlock (lk : Lock)
  | self (who : Option (Fin nproc))
  | setChan (i : Fin nproc) (ch : Option Chan)
  | setState (i : Fin nproc) (st : ProcState)
  | schedCheck (i : Fin nproc)
  | saveIntena
  | swtchOut
  | restore (intena : Bool)
  | zombieExit
  | wake (j : Fin nproc) (ch : Chan)
  | kill (j : Fin nproc)
  | spawn (j : Fin nproc)
  | reap (j : Fin nproc)
  | setPriority (i : Fin nproc) (priority : Int)
  | dump (j : Fin nproc)
  | clearFound
  | tryRun (j : Fin nproc) (current : Int)
  | swtchIn (j : Fin nproc)
  | back
  | idle
  | wfi
  | iret
  | setIntr (i : Fin nproc) (b : Bool)
  | tryLock (i : Fin nproc) (L : Nat)
  | setPid (i : Fin nproc) (L : Nat)
  | dropLock (L : Nat)
  deriving DecidableEq

/-! ### spinlock.c -/

/-- Reads whether interrupts are on; what is done with it follows. -/
def pushOff : List Op := [.intrGet]

def popOff : List Op := [.pop]

def acquire (lk : Lock) : List Op := pushOff ++ [.checkFree lk, .swap lk, .mark lk]

def release (lk : Lock) : List Op := [.checkHeld lk, .unmark lk, .unlock lk] ++ popOff

/-! ### proc.c -/

def myproc (who : Option (Fin nproc)) : List Op := pushOff ++ [.self who] ++ popOff

/-- Switch to scheduler. -/
def sched (i : Fin nproc) : List Op := myproc (some i) ++ [.schedCheck i, .saveIntena]

/-- Give up the CPU for one scheduling round. -/
def yield (i : Fin nproc) : List Op :=
  myproc (some i) ++ acquire (.proc i) ++ [.setState i .RUNNABLE] ++ sched i ++ release (.proc i)

/-- Sleep on channel `ch`, releasing condition lock `lk`. -/
def sleep (i : Fin nproc) (ch : Chan) (lk : Lock) : List Op :=
  myproc (some i) ++ acquire (.proc i) ++ release lk ++ [.setChan i (some ch), .setState i .SLEEPING] ++ sched i ++
    [.setChan i none] ++ release (.proc i) ++ acquire lk

/-- Wake up all processes sleeping on channel `ch`. -/
def wakeup (who : Option (Fin nproc)) (ch : Chan) : List Op :=
  (List.finRange nproc).flatMap fun j =>
    myproc who ++ if who = some j then [] else acquire (.proc j) ++ [.wake j ch] ++ release (.proc j)

/-- A fork child's very first scheduling. -/
def forkret (i : Fin nproc) : List Op := myproc (some i) ++ release (.proc i)

/-- The end of `kexit`, with `wait_lock` as `lk`. -/
def kexit (i : Fin nproc) (lk : Lock) : List Op :=
  acquire (.proc i) ++ [.setState i .ZOMBIE] ++ release lk ++ sched i ++ [.zombieExit]

/-- A round of the scheduler. -/
def scheduler : List Op :=
  [.intrOn, .intrOff, .clearFound] ++
    Sched.visits.flatMap (fun v => acquire (.proc v.2) ++ [.tryRun v.2 v.1] ++ release (.proc v.2)) ++ [.idle]

/-! ### sleeplock.c -/

def acquiresleep (i : Fin nproc) (L : Nat) : List Op :=
  acquire (.sleep L) ++ [.tryLock i L] ++ myproc (some i) ++ [.setPid i L] ++ release (.sleep L)

def releasesleep (i : Fin nproc) (L : Nat) : List Op :=
  acquire (.sleep L) ++ [.dropLock L] ++ wakeup (some i) (.sleep L) ++ release (.sleep L)

/-! ### trap.c -/

/-- `tickslock` and `&ticks`. -/
def tickslock : Lock := .other 0

def ticks : Chan := .other 0

def clockintr (c : Fin ncpu) (who : Option (Fin nproc)) : List Op :=
  if c.val = 0 then acquire tickslock ++ wakeup who ticks ++ release tickslock else []

/-- Print a process listing to console: no lock is taken to read the states and priorities. -/
def procdump : List Op := (List.finRange nproc).map .dump

/-- What an interrupt handler of a device does: with its lock it prints the processes, which is what the
console does on ^P, and wakes up who waits for it. -/
def deviceintr (who : Option (Fin nproc)) (l : List (Nat × Bool × List Nat)) : List Op :=
  l.flatMap fun x => acquire (.other x.1) ++
    ((if x.2.1 then procdump else []) ++ x.2.2.flatMap fun n => wakeup who (.other n)) ++
    release (.other x.1)

/-- `kerneltrap` for an interrupt of the timer, or else of a device. -/
def kerneltrap (c : Fin ncpu) (who : Option (Fin nproc)) (timer : Bool)
    (l : List (Nat × Bool × List Nat)) : List Op :=
  (if timer then clockintr c who ++ myproc who ++ who.elim [] yield else deviceintr who l) ++ [.iret]

/-! ### The machine -/

/-- Who runs on a CPU: its scheduler or a process. -/
abbrev Ctx := Fin ncpu ⊕ Fin nproc

/-- `struct cpu`, the interrupt enable bit, `found` of its scheduler, and the process that it executes. -/
structure Cpu where
  noff : Int
  intena : Bool
  intr : Bool
  proc : Option (Fin nproc)
  found : Bool
  running : Option (Fin nproc)

/-- The locks with their `cpu` fields, the CPUs, the fields of the processes, what each scheduler and process has still
to do, the sleeplocks, and to what a process has set the interrupts by itself, if that is known. -/
structure Machine where
  locked : Lock → Bool
  holder : Lock → Option (Fin ncpu)
  cpu : Fin ncpu → Cpu
  state : Fin nproc → ProcState
  chan : Fin nproc → Option Chan
  priority : Fin nproc → Int
  todo : Ctx → List Op
  slocked : Nat → Bool
  spid : Nat → Option (Fin nproc)
  wants : Fin nproc → Option Bool

/-- What cannot go on: the panics of these files, and `myproc()` that returns another process. -/
inductive Fault
  | acquire
  | release
  | popOffInterruptible
  | popOff
  | schedLock
  | schedLocks
  | schedRunning
  | schedInterruptible
  | zombieExit
  | wild

namespace Machine

/-- Who executes on the CPU. -/
def ctx (m : Machine) (c : Fin ncpu) : Ctx := (m.cpu c).running.elim (.inl c) .inr

/-- What the CPU executes next, and then. -/
def ops (m : Machine) (c : Fin ncpu) : List Op := m.todo (m.ctx c)

def setCpu (m : Machine) (c : Fin ncpu) (v : Cpu) : Machine := { m with cpu := Function.update m.cpu c v }

def setTodo (m : Machine) (x : Ctx) (l : List Op) : Machine := { m with todo := Function.update m.todo x l }

def setState (m : Machine) (i : Fin nproc) (st : ProcState) : Machine := { m with state := Function.update m.state i st }

/-- Check whether this cpu is holding the lock. -/
def holding (m : Machine) (c : Fin ncpu) (lk : Lock) : Bool := m.locked lk && decide (m.holder lk = some c)

/-- What the access puts before the rest, and what it changes. -/
def exec (m : Machine) (c : Fin ncpu) : Op → Except Fault (List Op × Machine)
  | .intrGet => pure ([.intrOff, .push (m.cpu c).intr], m)
  | .intrOff => pure ([], m.setCpu c { m.cpu c with intr := false })
  | .intrOn => pure ([], m.setCpu c { m.cpu c with intr := true })
  | .push old =>
    pure ([], m.setCpu c { m.cpu c with
      intena := if (m.cpu c).noff = 0 then old else (m.cpu c).intena
      noff := (m.cpu c).noff + 1 })
  | .pop =>
    if (m.cpu c).intr then throw .popOffInterruptible
    else if (m.cpu c).noff < 1 then throw .popOff
    else
      pure ([], m.setCpu c { m.cpu c with
        noff := (m.cpu c).noff - 1
        intr := decide ((m.cpu c).noff = 1) && (m.cpu c).intena })
  | .checkFree lk => if m.holding c lk then throw .acquire else pure ([], m)
  | .swap lk =>
    -- spin
    if m.locked lk then pure ([.swap lk], m)
    else pure ([], { m with locked := Function.update m.locked lk true })
  | .mark lk => pure ([], { m with holder := Function.update m.holder lk (some c) })
  | .checkHeld lk => if !m.holding c lk then throw .release else pure ([], m)
  | .unmark lk => pure ([], { m with holder := Function.update m.holder lk none })
  | .unlock lk => pure ([], { m with locked := Function.update m.locked lk false })
  | .self who => if (m.cpu c).proc = who then pure ([], m) else throw .wild
  | .setChan i ch => pure ([], { m with chan := Function.update m.chan i ch })
  | .setState i st => pure ([], m.setState i st)
  | .schedCheck i =>
    if !m.holding c (.proc i) then throw .schedLock
    else if (m.cpu c).noff ≠ 1 then throw .schedLocks
    else if m.state i = .RUNNING then throw .schedRunning
    else if (m.cpu c).intr then throw .schedInterruptible
    else pure ([], m)
  | .saveIntena => pure ([.swtchOut, .restore (m.cpu c).intena], m)
  | .swtchOut => pure ([], m.setCpu c { m.cpu c with running := none })
  | .restore intena => pure ([], m.setCpu c { m.cpu c with intena := intena })
  | .zombieExit => throw .zombieExit
  | .wake j ch =>
    if m.state j = .SLEEPING ∧ m.chan j = some ch then pure ([], m.setState j .RUNNABLE) else pure ([], m)
  | .kill j => if m.state j = .SLEEPING then pure ([], m.setState j .RUNNABLE) else pure ([], m)
  | .spawn j =>
    if m.state j = .UNUSED then
      pure ([], { (m.setState j .RUNNABLE).setTodo (.inr j) (forkret j) with wants := Function.update m.wants j none })
    else pure ([], m)
  | .reap j => if m.state j = .ZOMBIE then pure ([], m.setState j .UNUSED) else pure ([], m)
  | .setPriority i priority => pure ([], { m with priority := Function.update m.priority i priority })
  -- the state and the priority are read
  | .dump _ => pure ([], m)
  | .clearFound => pure ([], m.setCpu c { m.cpu c with found := false })
  | .tryRun j current =>
    if m.state j = .RUNNABLE ∧ current ≤ m.priority j then
      pure ([.swtchIn j, .back], (m.setState j .RUNNING).setCpu c { m.cpu c with proc := some j })
    else pure ([], m)
  | .swtchIn j => pure ([], m.setCpu c { m.cpu c with running := some j })
  | .back => pure ([], m.setCpu c { m.cpu c with proc := none, found := true })
  | .idle => pure (if (m.cpu c).found then [] else [.intrOn, .wfi], m)
  | .wfi => pure ([], m)
  | .iret => pure ([], m.setCpu c { m.cpu c with intr := true })
  | .setIntr i b =>
    pure ([], { m.setCpu c { m.cpu c with intr := b } with wants := Function.update m.wants i (some b) })
  | .tryLock i L =>
    if m.slocked L then pure (Smp.sleep i (.sleep L) (.sleep L) ++ [.tryLock i L], m)
    else pure ([], { m with slocked := Function.update m.slocked L true })
  | .setPid i L => pure ([], { m with spid := Function.update m.spid L (some i) })
  | .dropLock L =>
    pure ([], { m with slocked := Function.update m.slocked L false, spid := Function.update m.spid L none })

end Machine

/-! ### Who calls what -/

/-- The calls of other kernel code in a process. `exit`, `kill`, `fork`, `reap` and `nice` are those parts of `kexit`, `kkill`,
`kfork`, `kwait` and `sys_nice` that have to do with the state or the priority of a process; `fork` makes the slot that
it finds runnable at once. -/
inductive Call
  | acquire (lk : Lock)
  | release (lk : Lock)
  | sleep (ch : Chan) (lk : Lock)
  | wakeup (ch : Chan)
  | yield
  | exit (lk : Lock)
  | kill (j : Fin nproc)
  | fork (j : Fin nproc)
  | reap (j : Fin nproc)
  | nice (priority : Int)
  | intr (b : Bool)
  | acquiresleep (L : Nat)
  | releasesleep (L : Nat)

/-- What the process executes for the call. -/
def Call.code (i : Fin nproc) : Call → List Op
  | .acquire lk => Smp.acquire lk
  | .release lk => Smp.release lk
  | .sleep ch lk => Smp.sleep i ch lk
  | .wakeup ch => Smp.wakeup (some i) ch
  | .yield => Smp.yield i
  | .exit lk => kexit i lk
  | .kill j => Smp.acquire (.proc j) ++ [.kill j] ++ Smp.release (.proc j)
  | .fork j => Smp.acquire (.proc j) ++ [.spawn j] ++ Smp.release (.proc j)
  | .reap j => Smp.acquire (.proc j) ++ [.reap j] ++ Smp.release (.proc j)
  | .nice priority => Smp.acquire (.proc i) ++ [.setPriority i priority] ++ Smp.release (.proc i)
  | .intr b => [.setIntr i b]
  | .acquiresleep L => Smp.acquiresleep i L
  | .releasesleep L => Smp.releasesleep i L

/-- The lock is not one in a sleeplock. -/
def Lock.Plain : Lock → Prop
  | .sleep _ => False
  | _ => True

def Chan.Plain : Chan → Prop
  | .sleep _ => False
  | _ => True

/-- What callers keep to, with the locks that they hold: no lock is taken twice, only what is held is released, and who
sleeps holds the condition lock only. The locks and channels in sleeplocks are left to `sleeplock.c`. -/
def Call.Allowed (i : Fin nproc) (held : Lock → Prop) : Call → Prop
  | .acquire lk => ¬ held lk ∧ lk.Plain
  | .release lk => held lk
  | .sleep ch lk => (∀ lk', held lk' ↔ lk' = lk) ∧ lk ≠ .proc i ∧ ch.Plain
  | .wakeup ch => (∀ j, j ≠ i → ¬ held (.proc j)) ∧ ch.Plain
  | .yield => ∀ lk, ¬ held lk
  | .exit lk => (∀ lk', held lk' ↔ lk' = lk) ∧ lk ≠ .proc i
  | .kill j | .fork j | .reap j => ¬ held (.proc j)
  | .nice _ => ¬ held (.proc i)
  | .intr _ => ∀ lk, ¬ held lk
  | .acquiresleep _ => ∀ lk, ¬ held lk
  | .releasesleep _ => ∀ j, j ≠ i → ¬ held (.proc j)

namespace Machine

/-- The CPU makes its next access, or has come to an end: the scheduler starts the next round, a process makes a call.
Or there is an interrupt. -/
inductive Step : Machine → Machine → Prop
  | run {m m' : Machine} {c : Fin ncpu} {op : Op} {rest new : List Op} (hops : m.ops c = op :: rest)
      (hexec : m.exec c op = .ok (new, m')) : Step m (m'.setTodo (m.ctx c) (new ++ rest))
  | round {m : Machine} {c : Fin ncpu} (hrun : (m.cpu c).running = none) (hops : m.ops c = []) :
      Step m (m.setTodo (.inl c) scheduler)
  | call {m : Machine} {c : Fin ncpu} {i : Fin nproc} (call : Call) (hrun : (m.cpu c).running = some i) (hops : m.ops c = [])
      (hallowed : call.Allowed i fun lk => m.holding c lk = true) : Step m (m.setTodo (.inr i) (call.code i))
  | interrupt {m : Machine} {c : Fin ncpu} (timer : Bool) (l : List (Nat × Bool × List Nat))
      (hintr : (m.cpu c).intr = true) :
      Step m ((m.setCpu c { m.cpu c with intr := false }).setTodo (m.ctx c)
        (kerneltrap c (m.cpu c).running timer l ++ m.ops c))

/-- The CPUs come into `scheduler`, and there is one process, the first one. -/
def boot (init : Fin nproc) (priority : Fin nproc → Int) : Machine where
  locked _ := false
  holder _ := none
  cpu _ := ⟨0, false, false, none, false, none⟩
  state := Function.update (fun _ => .UNUSED) init .RUNNABLE
  chan _ := none
  priority := priority
  todo := Function.update (fun _ => []) (.inr init) (forkret init)
  slocked _ := false
  spid _ := none
  wants _ := none

end Machine

end FogOS.Kernel.Smp
