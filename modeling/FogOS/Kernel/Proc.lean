import FogOS.Kernel.Vm
import FogOS.Kernel.Fs

/-!
# Processes

The process table of `kernel/proc.c` with fork, exit, wait and sbrk, and `sys_mmap` of
`kernel/sysfile.c`. A system call is one step: it takes the kernel state and the calling process
and returns the value of the call and the state it leaves.

An open file is the number of its entry in the file table, of which only the reference counts are
kept: what a file stands for is released by code that is not modelled here. The kernel stack, the
scheduling context and the sleep channel of a process are left out; no function here depends on
them.
-/

namespace FogOS.Kernel

open ByteMem

/-- `NPROC`. -/
def nproc : Nat := 64

/-- `NOFILE`. -/
def nofile : Nat := 16

/-- `enum procstate`. -/
inductive ProcState
  | UNUSED
  | USED
  | SLEEPING
  | RUNNABLE
  | RUNNING
  | ZOMBIE
  deriving DecidableEq, Repr

/-- `struct proc`. A null pointer is `none`. -/
structure Proc where
  state : ProcState
  killed : Bool
  xstate : Int
  pid : Int
  parent : Option (Fin nproc)
  sz : Nat
  pagetable : Option Pagetable
  trapframe : Option Nat
  ofile : Fin nofile → Option Nat
  cwd : Option (Fin ninode)
  name : List UInt8
  stracing : Int
  countp : Int
  priority : Int
  niceLv : Int
  mmap : Nat
  hasMmap : Bool

/-- The kernel: allocator, process table, reference counts of open files, file system, and the
address of the trampoline code. -/
structure State where
  kmem : Kmem
  proc : Fin nproc → Proc
  initproc : Option (Fin nproc)
  nextpid : Int
  fileRef : Nat → Int
  fs : Fs
  trampoline : Nat

/-- Following a pointer. -/
def deref {α : Type} (p : Option α) : Except Stop α :=
  match p with
  | none => throw .wild
  | some a => pure a

lemma deref_ok {α : Type} {p : Option α} {a : α} (h : deref p = .ok a) : p = some a := by
  cases p with
  | none => cases h
  | some b => exact congrArg some (pure_ok h).symm

namespace State

/-- Assignment to a slot of the process table. -/
def setProc (s : State) (i : Fin nproc) (p : Proc) : State :=
  { s with proc := Function.update s.proc i p }

lemma setProc_self (s : State) (i : Fin nproc) (p : Proc) : (s.setProc i p).proc i = p := by
  unfold setProc
  exact Function.update_self i p s.proc

lemma setProc_of_ne (s : State) {i j : Fin nproc} (h : j ≠ i) (p : Proc) :
    (s.setProc i p).proc j = s.proc j := by
  unfold setProc
  exact Function.update_of_ne h p s.proc

end State

/-! ### Page tables of processes -/

/-- A user page table with no user memory, but with trampoline and trapframe pages. -/
def procPagetable (k : Kmem) (trampoline trapframe : Nat) :
    Except Stop (Option Pagetable × Kmem) :=
  match uvmcreate k with
  | (none, k) => pure (none, k)
  | (some pt, k) => do
    let (mapped, k, pt) ← mappages k pt trampolineVa pgsize trampoline (Perm.R.or .X)
    if !mapped then
      let k ← uvmfree k pt 0
      pure (none, k)
    else
      let (mapped, k, pt) ← mappages k pt trapframeVa pgsize trapframe (Perm.R.or .W)
      if !mapped then
        let (k, pt) ← uvmunmap k pt trampolineVa 1 false
        let k ← uvmfree k pt 0
        pure (none, k)
      else pure (some pt, k)

/-- Free a process's page table, and free the physical memory it refers to. -/
def procFreepagetable (k : Kmem) (pt : Pagetable) (sz : Nat) : Except Stop Kmem := do
  let (k, pt) ← uvmunmap k pt trampolineVa 1 false
  let (k, pt) ← uvmunmap k pt trapframeVa 1 false
  uvmfree k pt sz

/-! ### Freeing a process -/

/-- How often `while(va > p->mmap)` goes round, from `va = TRAPFRAME - PGSIZE` down. -/
def mmapRounds (mmap : Nat) : Nat := trapframeVa / pgsize - 1 - mmap / pgsize

/-- The loop of `freeproc` over the mmap region. -/
def freeMmapLoop : Nat → Kmem → Pagetable → Nat → Except Stop (Kmem × Pagetable)
  | 0, k, pt, _ => pure (k, pt)
  | n + 1, k, pt, va => do
    let pa ← walkaddr k pt va
    if pa ≠ 0 then
      let (k, pt) ← uvmunmap k pt va 1 true
      freeMmapLoop n k pt (va - pgsize)
    else freeMmapLoop n k pt (va - pgsize)

/-- Clean up mmap pages if they exist. -/
def freeMmap (k : Kmem) (p : Proc) : Except Stop (Kmem × Option Pagetable) :=
  if p.hasMmap then do
    let pt ← deref p.pagetable
    let (k, pt) ← freeMmapLoop (mmapRounds p.mmap) k pt (trapframeVa - pgsize)
    pure (k, some pt)
  else pure (k, p.pagetable)

/-- Free the page table, if there is one. -/
def freePagetable (k : Kmem) (pt : Option Pagetable) (sz : Nat) : Except Stop Kmem :=
  match pt with
  | none => pure k
  | some pt => procFreepagetable k pt sz

/-- Free the trapframe page, if there is one. -/
def freeTrapframe (k : Kmem) (trapframe : Option Nat) : Kmem :=
  trapframe.elim k k.kfree

/-- A proc structure as `freeproc` leaves it. -/
def Proc.cleared (p : Proc) : Proc :=
  { p with trapframe := none, hasMmap := false, pagetable := none, sz := 0, pid := 0, parent := none, name := [], killed := false, xstate := 0, state := .UNUSED, stracing := 0 }

/-- Free a proc structure and the data hanging from it, including user pages. -/
def freeproc (k : Kmem) (p : Proc) : Except Stop (Kmem × Proc) := do
  let k := freeTrapframe k p.trapframe
  let (k, pt) ← freeMmap k p
  let k ← freePagetable k pt p.sz
  pure (k, p.cleared)

/-! ### Creating a process -/

/-- `allocproc` from the label `found` on: initialize the UNUSED slot `i`. -/
def initSlot (s : State) (i : Fin nproc) : Except Stop (Bool × State) :=
  let p := { s.proc i with pid := s.nextpid, state := .USED, countp := 0, mmap := 0, hasMmap := false }
  let s := { s with nextpid := s.nextpid + 1 }
  match s.kmem.kalloc with
  | (none, k) => do
    let (k, p) ← freeproc k { p with trapframe := none }
    pure (false, { s.setProc i p with kmem := k })
  | (some tf, k) => do
    let p := { p with trapframe := some tf }
    let (pt, k) ← procPagetable k s.trampoline tf
    let p := { p with pagetable := pt }
    if pt.isNone then
      let (k, p) ← freeproc k p
      pure (false, { s.setProc i p with kmem := k })
    else pure (true, { s.setProc i p with kmem := k })

/-- Look in the process table for an UNUSED proc and initialize it. -/
def allocproc (s : State) : Except Stop (Option (Fin nproc) × State) :=
  match (List.finRange nproc).find? fun i => (s.proc i).state = .UNUSED with
  | none => pure (none, s)
  | some i => do
    let (done, s) ← initSlot s i
    pure (if done then some i else none, s)

/-- `sizeof(struct trapframe)`, and the offsets of its fields. -/
def trapframeSize : Nat := 288
def tfEpc : Nat := 24
def tfSp : Nat := 48
def tfA0 : Nat := 112
def tfA1 : Nat := 120

/-- `*(np->trapframe) = *(p->trapframe); np->trapframe->a0 = 0`. -/
def copyTrapframe (k : Kmem) (tf ntf : Nat) : Kmem :=
  k.setPage ntf
    (Mem.store64 (fun x => if x < trapframeSize then k.page tf x else k.page ntf x) tfA0 0)

/-- The loop of `kfork` over the mmap region of the parent. -/
def shareMmapLoop (ppt : Pagetable) :
    Nat → Kmem → Pagetable → Nat → Except Stop (Bool × Kmem × Pagetable)
  | 0, k, npt, _ => pure (true, k, npt)
  | n + 1, k, npt, va => do
    let pa ← walkaddr k ppt va
    if pa ≠ 0 then
      let (mapped, k, npt) ← mappages k npt va pgsize pa ((Perm.R.or .W).or .U)
      if !mapped then pure (false, k, npt)
      else shareMmapLoop ppt n (k.krefpage pa) npt (va - pgsize)
    else shareMmapLoop ppt n k npt (va - pgsize)

/-- Increment the reference count of an open file. -/
def filedup (fileRef : Nat → Int) (f : Nat) : Except Stop (Nat → Int) :=
  if fileRef f < 1 then throw (.panic .filedup)
  else pure (Function.update fileRef f (fileRef f + 1))

/-- Close an open file. -/
def fileclose (fileRef : Nat → Int) (f : Nat) : Except Stop (Nat → Int) :=
  if fileRef f < 1 then throw (.panic .fileclose)
  else pure (Function.update fileRef f (fileRef f - 1))

/-- Do the same for every open file of a process. -/
def eachFile (f : (Nat → Int) → Nat → Except Stop (Nat → Int)) (ofile : Fin nofile → Option Nat)
    (fileRef : Nat → Int) : Except Stop (Nat → Int) :=
  (List.finRange nofile).foldlM (fun r fd => (ofile fd).elim (pure r) (f r)) fileRef

/-- `kfork` from the copying of the user memory on: the memory part of the child `np`, or `none`
after a failure, when `np` has been freed. -/
def forkMemory (k : Kmem) (p np : Proc) : Except Stop (Bool × Kmem × Proc) := do
  let ppt ← deref p.pagetable
  let npt ← deref np.pagetable
  let (copied, k, npt) ← uvmcopy k ppt npt p.sz
  if !copied then
    let (k, np) ← freeproc k { np with pagetable := some npt }
    pure (false, k, np)
  else
    let tf ← deref p.trapframe
    let ntf ← deref np.trapframe
    let k := copyTrapframe k tf ntf
    let np := { np with pagetable := some npt, sz := p.sz }
    if p.hasMmap then
      let (shared, k, npt) ← shareMmapLoop ppt (mmapRounds p.mmap) k npt (trapframeVa - pgsize)
      let np := { np with mmap := p.mmap, hasMmap := true, pagetable := some npt }
      if !shared then
        let (k, np) ← freeproc k np
        pure (false, k, np)
      else pure (true, k, np)
    else pure (true, k, np)

/-- `kfork` after `allocproc`, up to the first release of `np->lock`: copy the process `p` to the
slot `j`. -/
def forkCopy (s : State) (p : Proc) (j : Fin nproc) : Except Stop (Bool × State) := do
  let (done, k, np) ← forkMemory s.kmem p (s.proc j)
  if !done then pure (false, { s.setProc j np with kmem := k })
  else
    let fileRef ← eachFile filedup p.ofile s.fileRef
    let cwd ← deref p.cwd
    let s := { s with kmem := k, fileRef := fileRef, fs := s.fs.idup cwd }
    let np := { np with ofile := fun fd => p.ofile fd <|> np.ofile fd, cwd := some cwd, name := p.name }
    pure (true, s.setProc j np)

/-- `np->parent = p`. -/
def forkLink (s : State) (i j : Fin nproc) : State :=
  s.setProc j { s.proc j with parent := some i }

/-- `np->state = RUNNABLE`. -/
def forkStart (s : State) (j : Fin nproc) : State :=
  s.setProc j { s.proc j with state := .RUNNABLE }

/-- Create a new process, copying the parent. -/
def kfork (s : State) (i : Fin nproc) : Except Stop (Int × State) := do
  match ← allocproc s with
  | (none, s) => pure (-1, s)
  | (some j, t) =>
    let (done, t) ← forkCopy t (s.proc i) j
    if !done then pure (-1, t)
    else pure ((t.proc j).pid, forkStart (forkLink t i j) j)

/-- Set up first user process. -/
def userinit (s : State) : Except Stop State := do
  match ← allocproc s with
  | (none, _) => throw .wild
  | (some i, s) =>
    let (cwd, fs) ← s.fs.namei 0 none [Fs.slash]
    let s := { s with initproc := some i, fs := fs }
    pure (s.setProc i { s.proc i with cwd := cwd, state := .RUNNABLE })

/-! ### Exit and wait -/

/-- Pass the abandoned children of `i` to init. -/
def reparent (s : State) (i : Fin nproc) : State :=
  { s with proc := fun j => if (s.proc j).parent = some i then { s.proc j with parent := s.initproc } else s.proc j }

/-- `kexit` up to `wait_lock`: close all open files and leave the directory. -/
def exitClose (s : State) (i : Fin nproc) : Except Stop State := do
  let fileRef ← eachFile fileclose (s.proc i).ofile s.fileRef
  let fs ← s.fs.beginOp
  let cwd ← deref (s.proc i).cwd
  let fs ← fs.iput (s.proc i).pid cwd
  let fs ← fs.endOp
  let s := { s with fileRef := fileRef, fs := fs }
  pure (s.setProc i { s.proc i with ofile := fun _ => none, cwd := none })

/-- `p->xstate = status; p->state = ZOMBIE`. -/
def exitZombie (s : State) (i : Fin nproc) (status : Int) : State :=
  s.setProc i { s.proc i with xstate := status, state := .ZOMBIE }

/-- Exit the current process. It remains a zombie until its parent calls wait. -/
def kexit (s : State) (i : Fin nproc) (status : Int) : Except Stop State :=
  if s.initproc = some i then throw (.panic .initExiting)
  else do
    let s ← exitClose s i
    pure (exitZombie (reparent s i) i status)

/-- The bytes of an `int`. -/
def intBytes (n : Int) : List UInt8 :=
  (List.range 4).map fun i => UInt8.ofNat ((n % 2 ^ 32).toNat / 256 ^ i)

/-- Copy an `int` to the memory of process `i`, unless the address is 0. -/
def copyoutInt (s : State) (i : Fin nproc) (addr : Nat) (n : Int) : Except Stop (Bool × State) :=
  if addr = 0 then pure (true, s)
  else do
    let p := s.proc i
    let pt ← deref p.pagetable
    let (copied, k, pt) ← copyout s.kmem p.sz pt none addr (intBytes n)
    pure (copied, { s.setProc i { p with pagetable := some pt } with kmem := k })

/-- What `kwait2` does with a child `j` that has exited: copy out its status and its count, and
free it. -/
def reap (s : State) (i j : Fin nproc) (status count : Nat) : Except Stop (Bool × State) := do
  let (copied, s) ← copyoutInt s i status (s.proc j).xstate
  if !copied then pure (false, s)
  else
    let (copied, s) ← copyoutInt s i count (s.proc j).countp
    if !copied then pure (false, s)
    else
      let (k, pp) ← freeproc s.kmem (s.proc j)
      pure (true, { s.setProc j pp with kmem := k })

/-- Wait for a child process to exit and return its pid. -/
def kwait2 (s : State) (i : Fin nproc) (status count : Nat) : Except Stop (Int × State) :=
  match (List.finRange nproc).find? fun j =>
      (s.proc j).parent = some i ∧ (s.proc j).state = .ZOMBIE with
  | some j => do
    let (collected, t) ← reap s i j status count
    pure (if collected then (s.proc j).pid else -1, t)
  | none =>
    if (∀ j, (s.proc j).parent ≠ some i) ∨ (s.proc i).killed then pure (-1, s) else throw .sleep

/-! ### Calls on single fields -/

/-- Kill the process with the given pid. -/
def kkill (s : State) (pid : Int) : Int × State :=
  match (List.finRange nproc).find? fun j => (s.proc j).pid = pid with
  | none => (-1, s)
  | some j =>
    let p := s.proc j
    let state := if p.state = .SLEEPING then .RUNNABLE else p.state
    (0, s.setProc j { p with killed := true, state := state })

/-- Set the nice level, clamped to 0..3, and with it the priority. -/
def sysNice (s : State) (i : Fin nproc) (n : Int) : State :=
  let n := if n < 0 then 0 else n
  let n := if 3 < n then 3 else n
  s.setProc i { s.proc i with niceLv := n, priority := 3 - n }

def sysStracing (s : State) (i : Fin nproc) : State :=
  s.setProc i { s.proc i with stracing := 1 }

/-! ### Memory calls -/

/-- Grow or shrink user memory by `n` bytes. -/
def growproc (s : State) (i : Fin nproc) (n : Int) : Except Stop (Int × State) := do
  let p := s.proc i
  if 0 < n then
    let pt ← deref p.pagetable
    let (sz, k, pt) ← uvmalloc s.kmem pt p.sz (u64 (p.sz + n.toNat)) .W
    if sz = 0 then pure (-1, { s.setProc i { p with pagetable := some pt } with kmem := k })
    else pure (0, { s.setProc i { p with pagetable := some pt, sz := sz } with kmem := k })
  else if n < 0 then
    let pt ← deref p.pagetable
    let (sz, k, pt) ← uvmdealloc s.kmem pt p.sz (sub64 p.sz n.natAbs)
    pure (0, { s.setProc i { p with pagetable := some pt, sz := sz } with kmem := k })
  else pure (0, s)

/-- `sbrk`; `eager` is `t == SBRK_EAGER`. -/
def sysSbrk (s : State) (i : Fin nproc) (n : Int) (eager : Bool) : Except Stop (Int × State) := do
  let addr := (s.proc i).sz
  if eager ∨ n < 0 then
    let (r, s) ← growproc s i n
    if r < 0 then pure (-1, s) else pure (addr, s)
  else if u64 (addr + n.toNat) < addr then pure (-1, s)
  else pure (addr, s.setProc i { s.proc i with sz := u64 (addr + n.toNat) })

/-- Map a new page at `p->mmap`. -/
def sysMmap (s : State) (i : Fin nproc) : Except Stop (Int × State) := do
  let p := s.proc i
  let va := p.mmap
  if va % pgsize ≠ 0 then pure (-1, s)
  else match s.kmem.kalloc with
    | (none, k) => pure (-1, { s with kmem := k })
    | (some pa, k) =>
      let k := k.fill pa 0
      let pt ← deref p.pagetable
      let (mapped, k, pt) ← mappages k pt va pgsize pa ((Perm.R.or .W).or .U)
      if !mapped then
        pure (-1, { s.setProc i { p with pagetable := some pt } with kmem := k.kfree pa })
      else
        let found ← walkaddr k pt va
        if found ≠ pa then throw (.panic .invalidMmap)
        else
          let p := { p with pagetable := some pt, mmap := sub64 va pgsize, hasMmap := true }
          pure (va, { s.setProc i p with kmem := k })

/-- A page fault of user code at `va`, as `usertrap` handles it. -/
def pageFault (s : State) (i : Fin nproc) (va : Nat) : Except Stop (Bool × State) := do
  let p := s.proc i
  let pt ← deref p.pagetable
  let (mem, k, pt) ← vmfault s.kmem p.sz pt pt va
  pure (mem ≠ 0, { s.setProc i { p with pagetable := some pt } with kmem := k })

/-! ### A kernel to start from -/

instance : NeZero nproc := ⟨by decide⟩

/-- A file system with nothing on it. -/
def emptyFs : Fs where
  sb := ⟨2000, 33, 46⟩
  dinode _ := ⟨0, 0, 0, fun _ => 0⟩
  bitmap _ := false
  block _ := fun _ => 0
  itable _ := ⟨0, 0, 0, false, 0, false, ⟨0, 0, 0, fun _ => 0⟩⟩
  log := ⟨0, false, []⟩

/-- A kernel before `userinit`, with `n` free pages. -/
def freshKernel (n : Nat) : State where
  kmem := ⟨(List.range n).map fun i => kernbase + (i + 64) * pgsize, fun _ => 0, fun _ _ => 0⟩
  proc _ := ⟨.UNUSED, false, 0, 0, none, 0, none, none, fun _ => none, none, [], 0, 0, 0, 0, 0, false⟩
  initproc := none
  nextpid := 1
  fileRef _ := 0
  fs := emptyFs
  trampoline := kernbase + pgsize

instance : Inhabited State := ⟨freshKernel 0⟩

/-- The result of a call that has returned. -/
@[irreducible] def returned {α : Type} [Inhabited α] (x : Except Stop α) : α :=
  match x with
  | .ok a => a
  | .error _ => default

lemma eq_ok {α : Type} [Inhabited α] {x : Except Stop α} (h : x.isOk = true) :
    x = .ok (returned x) := by
  unfold returned
  cases x with
  | ok a => rfl
  | error e => cases h

/-- How a call has ended that has not returned. -/
def stopped {α : Type} (x : Except Stop α) : Option Stop :=
  match x with
  | .ok _ => none
  | .error e => some e

lemma eq_error {α : Type} {x : Except Stop α} {e : Stop} (h : stopped x = some e) : x = .error e := by
  cases x with
  | ok a => cases h
  | error e' => exact congrArg Except.error (Option.some.inj h)

lemma eq_ok_pair {α β : Type} [Inhabited α] [Inhabited β] {x : Except Stop (α × β)} {a : α}
    (h : x.isOk = true) (ha : (returned x).1 = a) : x = .ok (a, (returned x).2) := by
  rw [← ha]
  exact eq_ok h

end FogOS.Kernel
