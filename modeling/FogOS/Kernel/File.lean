import FogOS.Lib.Pointers
import FogOS.Lib.Steps
import FogOS.Kernel.Pipe
import FogOS.Kernel.Proc

/-!
# Open files

`kernel/file.c`, `pipealloc` and `pipeclose` of `kernel/pipe.c`, and what `open`, `dup`, `close`, `pipe`,
`fork` and `exit` do to the table of open files and to the descriptors of processes. What happens in
the file system is left out, except that `fileclose` hands an inode to `iput`.
-/

namespace FogOS.Kernel

/-- `NFILE`. -/
def nfile : Nat := 100

/-- `NDEV`. -/
def ndev : Nat := 10

/-- The types of a `struct file`. -/
inductive FdType
  | FD_NONE
  | FD_PIPE
  | FD_INODE
  | FD_DEVICE
  deriving DecidableEq

/-- The types of an inode. -/
inductive InodeType
  | T_DIR
  | T_FILE
  | T_DEVICE
  deriving DecidableEq

/-- `omode & flag`, for `O_WRONLY`, `O_RDWR` and `O_CREATE`. -/
def oWronly (omode : Nat) : Bool := omode.testBit 0

def oRdwr (omode : Nat) : Bool := omode.testBit 1

def oCreate (omode : Nat) : Bool := omode.testBit 9

/-- `struct file`. -/
structure File where
  type : FdType
  ref : Int
  readable : Bool
  writable : Bool
  pipe : Nat
  ip : Nat
  off : Nat
  major : Int

/-- A pipe's page is allocated or freed, or a reference to an inode is dropped. -/
inductive FileEvent
  | kalloc (pi : Nat)
  | kfree (pi : Nat)
  | iput (ip : Nat)
  deriving DecidableEq

/-- `ftable`, the pipes by the addresses of their pages, the allocator, `p->ofile[fd]` and `p->state` of all
processes, and the pages that other code holds. -/
structure Files where
  file : Nat → File
  pipe : Nat → Pipe
  kmem : Kmem
  ofile : Fin nproc × Fin nofile → Option Nat
  state : Fin nproc → ProcState
  initproc : Fin nproc
  held : Multiset Nat

namespace Files

/-- Assignment to an entry of `ftable`. -/
def setFile (s : Files) (f : Nat) (x : File) : Files := { s with file := Function.update s.file f x }

/-- Assignment to `p->ofile[fd]`. -/
def setOfile (s : Files) (x : Fin nproc × Fin nofile) (f : Option Nat) : Files :=
  { s with ofile := Function.update s.ofile x f }

/-! ### file.c -/

/-- Allocate a file structure. -/
def filealloc (s : Files) : Option Nat × Files :=
  match (List.range nfile).find? fun f => (s.file f).ref == 0 with
  | none => (none, s)
  | some f => (some f, s.setFile f { s.file f with ref := 1 })

/-- Increment the reference count of a file. -/
def filedup (s : Files) (f : Nat) : Except Stop Files :=
  if (s.file f).ref < 1 then throw (.panic .filedup)
  else pure (s.setFile f { s.file f with ref := (s.file f).ref + 1 })

/-- Close one end of a pipe; when both are closed the page is freed. -/
def pipeclose (s : Files) (pi : Nat) (writable : Bool) : List FileEvent × Files :=
  let p := FogOS.Kernel.pipeclose (s.pipe pi) writable
  let s := { s with pipe := Function.update s.pipe pi p }
  if !p.readopen && !p.writeopen then ([.kfree pi], { s with kmem := s.kmem.kfree pi }) else ([], s)

/-- Decrement the reference count; close the file when it reaches 0. -/
def fileclose (s : Files) (f : Nat) : Except Stop (List FileEvent × Files) :=
  if (s.file f).ref < 1 then throw (.panic .fileclose)
  else if 0 < (s.file f).ref - 1 then pure ([], s.setFile f { s.file f with ref := (s.file f).ref - 1 })
  else
    let ff := s.file f
    let s := s.setFile f { ff with ref := 0, type := .FD_NONE }
    match ff.type with
    | .FD_PIPE => pure (s.pipeclose ff.pipe ff.writable)
    | .FD_INODE | .FD_DEVICE => pure ([.iput ff.ip], s)
    | .FD_NONE => pure ([], s)

/-! ### pipe.c -/

/-- `bad` in `pipealloc`; `pi` is 0 if there is no page. -/
def pipeallocBad (s : Files) (pi : Nat) (f0 f1 : Option Nat) : Except Stop (List FileEvent × Files) := do
  let (evs, s) := if pi ≠ 0 then ([.kfree pi], { s with kmem := s.kmem.kfree pi }) else ([], s)
  let (evs0, s) ← f0.elim (pure ([], s)) s.fileclose
  let (evs1, s) ← f1.elim (pure ([], s)) s.fileclose
  pure (evs ++ evs0 ++ evs1, s)

/-- Two files for the ends of a new pipe. -/
def pipealloc (s : Files) : Except Stop (Option (Nat × Nat) × List FileEvent × Files) :=
  match s.filealloc with
  | (none, s) => do
    let (evs, s) ← s.pipeallocBad 0 none none
    pure (none, evs, s)
  | (some f0, s) =>
    match s.filealloc with
    | (none, s) => do
      let (evs, s) ← s.pipeallocBad 0 (some f0) none
      pure (none, evs, s)
    | (some f1, s) =>
      match s.kmem.kalloc with
      | (none, k) => do
        let (evs, s) ← { s with kmem := k }.pipeallocBad 0 (some f0) (some f1)
        pure (none, evs, s)
      | (some pi, k) =>
        -- `kalloc` leaves the page filled with 5
        let s := { s with
          kmem := k
          pipe := Function.update s.pipe pi ⟨fun _ => 5, 0, 0, true, true⟩ }
        let s := s.setFile f0 { s.file f0 with type := .FD_PIPE, readable := true, writable := false, pipe := pi }
        let s := s.setFile f1 { s.file f1 with type := .FD_PIPE, readable := false, writable := true, pipe := pi }
        pure (some (f0, f1), [.kalloc pi], s)

/-! ### sysfile.c -/

/-- The descriptor that an argument of a call names, and its file. -/
def argfd (s : Files) (i : Fin nproc) (n : Int) : Option (Fin nofile × Nat) :=
  if h : 0 ≤ n ∧ n < nofile then
    let fd : Fin nofile := ⟨n.toNat, by omega⟩
    (s.ofile (i, fd)).map fun f => (fd, f)
  else none

/-- Allocate a descriptor for the file. -/
def fdalloc (s : Files) (i : Fin nproc) (f : Nat) : Option (Fin nofile) × Files :=
  match (List.finRange nofile).find? fun fd => (s.ofile (i, fd)).isNone with
  | none => (none, s)
  | some fd => (some fd, s.setOfile (i, fd) (some f))

def sysDup (s : Files) (i : Fin nproc) (n : Int) : Except Stop (Int × List FileEvent × Files) :=
  match s.argfd i n with
  | none => pure (-1, [], s)
  | some (_, f) =>
    match s.fdalloc i f with
    | (none, s) => pure (-1, [], s)
    | (some fd, s) => do
      let s ← s.filedup f
      pure (fd.val, [], s)

def sysClose (s : Files) (i : Fin nproc) (n : Int) : Except Stop (Int × List FileEvent × Files) :=
  match s.argfd i n with
  | none => pure (-1, [], s)
  | some (fd, f) => do
    let (evs, s) ← (s.setOfile (i, fd) none).fileclose f
    pure (0, evs, s)

/-- `open`, where `found` is the inode, with its type and device number, that `create` or `namei` returned
for the path, or `none` if the path could not be read or there is no such inode. -/
def sysOpen (s : Files) (i : Fin nproc) (omode : Nat) (found : Option (Nat × InodeType × Int)) :
    Except Stop (Int × List FileEvent × Files) :=
  match found with
  | none => pure (-1, [], s)
  | some (ip, type, major) =>
    if !oCreate omode && type == .T_DIR && omode != 0 then pure (-1, [], s)
    else if type == .T_DEVICE && (decide (major < 0) || decide ((ndev : Int) ≤ major)) then pure (-1, [], s)
    else
      match s.filealloc with
      | (none, s) => pure (-1, [], s)
      | (some f, s) =>
        match s.fdalloc i f with
        | (none, s) => do
          let (evs, s) ← s.fileclose f
          pure (-1, evs, s)
        | (some fd, s) =>
          let x := s.file f
          let x := if type == .T_DEVICE then { x with type := .FD_DEVICE, major := major }
            else { x with type := .FD_INODE, off := 0 }
          let x := { x with
            ip := ip
            readable := !oWronly omode
            writable := oWronly omode || oRdwr omode }
          pure (fd.val, [], s.setFile f x)

/-- The end of `pipe` when it fails: both files are closed. -/
def closeBoth (s : Files) (rf wf : Nat) : Except Stop (List FileEvent × Files) := do
  let (evs, s) ← s.fileclose rf
  let (evs', s) ← s.fileclose wf
  pure (evs ++ evs', s)

/-- `pipe`, where `copied` says whether both descriptors could be copied out. -/
def sysPipe (s : Files) (i : Fin nproc) (copied : Bool) : Except Stop (Int × List FileEvent × Files) := do
  match ← s.pipealloc with
  | (none, evs, s) => pure (-1, evs, s)
  | (some (rf, wf), evs, s) =>
    match s.fdalloc i rf with
    | (none, s) =>
      let (evs', s) ← s.closeBoth rf wf
      pure (-1, evs ++ evs', s)
    | (some fd0, s) =>
      match s.fdalloc i wf with
      | (none, s) =>
        let (evs', s) ← (s.setOfile (i, fd0) none).closeBoth rf wf
        pure (-1, evs ++ evs', s)
      | (some fd1, s) =>
        if !copied then
          let (evs', s) ← ((s.setOfile (i, fd0) none).setOfile (i, fd1) none).closeBoth rf wf
          pure (-1, evs ++ evs', s)
        else pure (0, evs, s)

/-! ### proc.c -/

/-- One round of the loop of `kfork` over descriptors. -/
def forkFile (i j : Fin nproc) (s : Files) (fd : Fin nofile) : Except Stop Files :=
  match s.ofile (i, fd) with
  | none => pure s
  | some f => do
    let s ← s.filedup f
    pure (s.setOfile (j, fd) (some f))

/-- `kfork`, where `memory` says whether there is enough of it. The return value is the slot of the child. -/
def kfork (s : Files) (i : Fin nproc) (memory : Bool) : Except Stop (Int × List FileEvent × Files) :=
  match (List.finRange nproc).find? fun j => s.state j == .UNUSED with
  | none => pure (-1, [], s)
  | some j =>
    if !memory then pure (-1, [], s)
    else do
      let s ← (List.finRange nofile).foldlM (forkFile i j) { s with state := Function.update s.state j .USED }
      pure (j.val, [], { s with state := Function.update s.state j .RUNNABLE })

/-- One round of the loop of `kexit` over descriptors. -/
def exitFile (i : Fin nproc) : List FileEvent × Files → Fin nofile → Except Stop (List FileEvent × Files)
  | (evs, s), fd =>
    match s.ofile (i, fd) with
    | none => pure (evs, s)
    | some f => do
      let (new, s) ← s.fileclose f
      pure (evs ++ new, s.setOfile (i, fd) none)

def kexit (s : Files) (i : Fin nproc) : Except Stop (Int × List FileEvent × Files) :=
  if i = s.initproc then throw (.panic .initExiting)
  else do
    let (evs, s) ← (List.finRange nofile).foldlM (exitFile i) ([], s)
    pure (0, evs, { s with state := Function.update s.state i .ZOMBIE })

end Files

/-- The system calls, with what the rest of the kernel contributes to them. -/
inductive FileCall
  | open (omode : Nat) (found : Option (Nat × InodeType × Int))
  | dup (n : Int)
  | close (n : Int)
  | pipe (copied : Bool)
  | fork (memory : Bool)
  | exit

namespace Files

/-- A call by process `i`, with its return value. -/
def call (s : Files) (i : Fin nproc) : FileCall → Except Stop (Int × List FileEvent × Files)
  | .open omode found => s.sysOpen i omode found
  | .dup n => s.sysDup i n
  | .close n => s.sysClose i n
  | .pipe copied => s.sysPipe i copied
  | .fork memory => s.kfork i memory
  | .exit => s.kexit i

/-- A process makes a call; a zombie is waited for; bytes go through a pipe; or other code uses the
allocator. -/
inductive Step (V : Arena) : Files → List FileEvent → Files → Prop
  | call {s t : Files} {i : Fin nproc} {c : FileCall} {r : Int} {evs : List FileEvent}
      (hi : s.state i ≠ .UNUSED ∧ s.state i ≠ .ZOMBIE) (h : s.call i c = .ok (r, evs, t)) : Step V s evs t
  | wait {s : Files} {i : Fin nproc} (hi : s.state i = .ZOMBIE) :
      Step V s [] { s with state := Function.update s.state i .UNUSED }
  | transfer {s : Files} {pi : Nat} {p : Pipe} (hread : p.readopen = (s.pipe pi).readopen)
      (hwrite : p.writeopen = (s.pipe pi).writeopen) : Step V s [] { s with pipe := Function.update s.pipe pi p }
  | other {s : Files} {k : Kmem} {H : Multiset Nat} (h : Kmem.Trades V s.kmem k s.held H) :
      Step V s [] { s with kmem := k, held := H }

/-- No file is open, and only the first process is there. -/
def boot (k : Kmem) (held : Multiset Nat) (pipe : Nat → Pipe) (init : Fin nproc) : Files where
  file := fun _ => ⟨.FD_NONE, 0, false, false, 0, 0, 0, 0⟩
  pipe := pipe
  kmem := k
  ofile := fun _ => none
  state := Function.update (fun _ => .UNUSED) init .RUNNABLE
  initproc := init
  held := held

/-- Some descriptor belongs to the pipe. -/
def Open (s : Files) (pi : Nat) : Prop :=
  ∃ x f, s.ofile x = some f ∧ (s.file f).type = .FD_PIPE ∧ (s.file f).pipe = pi

end Files

end FogOS.Kernel
