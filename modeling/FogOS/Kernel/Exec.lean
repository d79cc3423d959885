import FogOS.Kernel.Proc
import Mathlib.Data.List.TakeWhile

/-!
# Executing a program

`kernel/exec.c`. `kexec` is cut at the points where it changes what it works on: finding and
loading the image (with the file open, inside a transaction), building the stack, and committing
to the new image. A `#!` line makes `kexec` call itself as its last action, so following it is
part of finding the image.
-/

namespace FogOS.Kernel

open ByteMem

/-- A string as the kernel passes it to `kexec`: no NUL inside, and it fits in a page. -/
structure CStr where
  bytes : List UInt8
  noNul : 0 ∉ bytes
  short : bytes.length < pgsize

/-- The number at offset `off`, of `n` bytes. -/
def field (b : List UInt8) (off n : Nat) : Nat := Fs.leNat ((b.drop off).take n)

/-- `ELF_MAGIC`. -/
def elfMagic : Nat := 0x464C457F

/-- `sizeof(struct elfhdr)` and `sizeof(struct proghdr)`. -/
def elfhdrSize : Nat := 64
def proghdrSize : Nat := 56

/-- The fields of `struct elfhdr`. -/
def ehMagic (h : List UInt8) : Nat := field h 0 4
def ehEntry (h : List UInt8) : Nat := field h 24 8
def ehPhoff (h : List UInt8) : Nat := field h 32 8
def ehPhnum (h : List UInt8) : Nat := field h 56 2

/-- The fields of `struct proghdr`. -/
def phType (h : List UInt8) : Nat := field h 0 4
def phFlags (h : List UInt8) : Nat := field h 4 4
def phOff (h : List UInt8) : Nat := field h 8 8
def phVaddr (h : List UInt8) : Nat := field h 16 8
def phFilesz (h : List UInt8) : Nat := field h 32 8
def phMemsz (h : List UInt8) : Nat := field h 40 8

/-- Map ELF permissions to PTE permission bits. -/
def flags2perm (flags : Nat) : Perm :=
  ⟨false, flags / 2 % 2 = 1, flags % 2 = 1, false⟩

/-! ### Loading -/

/-- Load an ELF program segment into the page table at virtual address `va`. -/
def loadsegLoop (pt : Pagetable) (va : Nat) (ip : Fin ninode) (offset sz : Nat) :
    Nat → Kmem → Fs → Nat → Except Stop (Bool × Kmem × Fs)
  | 0, k, fs, _ => pure (true, k, fs)
  | n + 1, k, fs, i => do
    let pa ← walkaddr k pt (u64 (va + i))
    if pa = 0 then throw (.panic .loadseg)
    else
      let m := if sz - i < pgsize then sz - i else pgsize
      let (bytes, fs) ← fs.readi ip (u32 (offset + i)) m
      let k := k.setPage pa (blit (k.page pa) 0 bytes)
      if bytes.length ≠ m then pure (false, k, fs)
      else loadsegLoop pt va ip offset sz n k fs (i + pgsize)

def loadseg (k : Kmem) (fs : Fs) (pt : Pagetable) (va : Nat) (ip : Fin ninode) (offset sz : Nat) :
    Except Stop (Bool × Kmem × Fs) :=
  loadsegLoop pt va ip offset sz (rounds 0 sz) k fs 0

/-- The loop over the program headers: did all segments load, and the size reached. -/
def loadSegments (ip : Fin ninode) :
    Nat → Kmem → Fs → Pagetable → Nat → Nat → Except Stop (Bool × Nat × Kmem × Fs × Pagetable)
  | 0, k, fs, pt, sz, _ => pure (true, sz, k, fs, pt)
  | n + 1, k, fs, pt, sz, off => do
    let (ph, fs) ← fs.readi ip off proghdrSize
    if ph.length ≠ proghdrSize then pure (false, sz, k, fs, pt)
    else if phType ph ≠ 1 then loadSegments ip n k fs pt sz (u32 (off + proghdrSize))
    else if phMemsz ph < phFilesz ph then pure (false, sz, k, fs, pt)
    else if u64 (phVaddr ph + phMemsz ph) < phVaddr ph then pure (false, sz, k, fs, pt)
    else if phVaddr ph % pgsize ≠ 0 then pure (false, sz, k, fs, pt)
    else
      let (sz1, k, pt) ←
        uvmalloc k pt sz (u64 (phVaddr ph + phMemsz ph)) (flags2perm (phFlags ph))
      if sz1 = 0 then pure (false, sz, k, fs, pt)
      else
        let (loaded, k, fs) ← loadseg k fs pt (phVaddr ph) ip (u32 (phOff ph)) (u32 (phFilesz ph))
        if !loaded then pure (false, sz1, k, fs, pt)
        else loadSegments ip n k fs pt sz1 (u32 (off + proghdrSize))

/-- A program in memory: its page table, its size, its entry point, and the path and arguments
it was reached by. -/
structure Image where
  pagetable : Pagetable
  sz : Nat
  entry : Nat
  path : CStr
  argv : List CStr

/-- `bad:` with the file still open. -/
def loadBad (s : State) (i : Fin nproc) (ip : Fin ninode) : Except Stop (Option Image × State) := do
  let fs ← s.fs.iunlockput (s.proc i).pid ip
  let fs ← fs.endOp
  pure (none, { s with fs := fs })

/-- Load the ELF file `ip`, which is open and locked. -/
def loadElf (s : State) (i : Fin nproc) (ip : Fin ninode) (path : CStr) (argv : List CStr) :
    Except Stop (Option Image × State) := do
  let (hdr, fs) ← s.fs.readi ip 0 elfhdrSize
  let s := { s with fs := fs }
  if hdr.length ≠ elfhdrSize then loadBad s i ip
  else if ehMagic hdr ≠ elfMagic then loadBad s i ip
  else
    let tf ← deref (s.proc i).trapframe
    match ← procPagetable s.kmem s.trampoline tf with
    | (none, k) => loadBad { s with kmem := k } i ip
    | (some pt, k) =>
      let (loaded, sz, k, fs, pt) ←
        loadSegments ip (ehPhnum hdr) k s.fs pt 0 (u32 (ehPhoff hdr))
      if !loaded then
        let k ← procFreepagetable k pt sz
        loadBad { s with kmem := k, fs := fs } i ip
      else
        let fs ← fs.iunlockput (s.proc i).pid ip
        let fs ← fs.endOp
        pure (some ⟨pt, sz, ehEntry hdr, path, argv⟩, { s with kmem := k, fs := fs })

/-- The interpreter line after `#!`, at most 31 bytes. -/
def readInterp (ip : Fin ninode) :
    Nat → Fs → Nat → List UInt8 → Except Stop (List UInt8 × Fs)
  | 0, fs, _, acc => pure (acc, fs)
  | n + 1, fs, off, acc => do
    let (c, fs) ← fs.readi ip off 1
    match c with
    | [c] => if c = 10 then pure (acc, fs) else readInterp ip n fs (off + 1) (acc ++ [c])
    | _ => pure (acc, fs)

lemma zero_notMem_line (b : List UInt8) : 0 ∉ (b.take 31).takeWhile (· ≠ 0) := by
  intro h
  have := List.mem_takeWhile_imp h
  simp at this

lemma length_line_lt (b : List UInt8) : ((b.take 31).takeWhile (· ≠ 0)).length < pgsize := by
  have h1 := (List.takeWhile_prefix (fun x : UInt8 => decide (x ≠ 0)) (l := b.take 31)).length_le
  have h2 := List.length_take_le 31 b
  simp only [pgsize]
  omega

/-- The first bytes of a buffer, up to a NUL, as a string. -/
def toCStr (b : List UInt8) : CStr where
  bytes := (b.take 31).takeWhile (· ≠ 0)
  noNul := zero_notMem_line b
  short := length_line_lt b

/-- `"#!"`. -/
def shebang : List UInt8 := [35, 33]

/-- Open the executable file, follow `#!` lines, and load the image. Each line followed leaves an
operation open, so `fuel` is used up when `begin_op` has to wait for the log. -/
def loadImage : Nat → State → Fin nproc → CStr → List CStr → Except Stop (Option Image × State)
  | 0, _, _, _, _ => throw .sleep
  | fuel + 1, s, i, path, argv => do
    let fs ← s.fs.beginOp
    match ← fs.namei (s.proc i).pid (s.proc i).cwd path.bytes with
    | (none, fs) =>
      let fs ← fs.endOp
      pure (none, { s with fs := fs })
    | (some ip, fs) =>
      let fs ← fs.ilock (s.proc i).pid ip
      let (first, fs) ← fs.readi ip 0 2
      if first.length ≠ 2 then loadBad { s with fs := fs } i ip
      else if first = shebang then
        let (line, fs) ← readInterp ip (maxarg - 1) fs 2 []
        let interp := toCStr line
        loadImage fuel { s with fs := fs } i interp (interp :: path :: (argv.drop 1).take (maxarg - 3))
      else loadElf { s with fs := fs } i ip path argv

/-! ### The stack -/

/-- The arguments pushed so far: stack pointer and `ustack`. -/
structure Pushed where
  sp : Nat
  ustack : List Nat

/-- Copy argument strings into the new stack. -/
def pushArgs (psz : Nat) (pt : Pagetable) (stackbase : Nat) :
    List CStr → Kmem → Pagetable → Pushed → Except Stop (Option Pushed × Kmem × Pagetable)
  | [], k, ppt, st => pure (some st, k, ppt)
  | a :: argv, k, ppt, st =>
    if maxarg ≤ st.ustack.length then pure (none, k, ppt)
    else
      let sp := sub64 st.sp (a.bytes.length + 1)
      let sp := sp - sp % 16
      if sp < stackbase then pure (none, k, ppt)
      else do
        let (copied, k, ppt) ← copyout k psz ppt (some pt) sp (a.bytes ++ [0])
        if !copied then pure (none, k, ppt)
        else pushArgs psz pt stackbase argv k ppt ⟨sp, st.ustack ++ [sp]⟩

/-- The bytes of an array of `uint64`. -/
def wordBytes (l : List Nat) : List UInt8 :=
  l.flatMap fun w => (List.range 8).map fun i => UInt8.ofNat (w / 256 ^ i)

/-- Push a copy of `ustack[]`, the array of `argv[]` pointers. -/
def pushUstack (psz : Nat) (pt : Pagetable) (stackbase : Nat) (k : Kmem) (ppt : Pagetable)
    (st : Pushed) : Except Stop (Option Nat × Kmem × Pagetable) :=
  let sp := sub64 st.sp ((st.ustack.length + 1) * 8)
  let sp := sp - sp % 16
  if sp < stackbase then pure (none, k, ppt)
  else do
    let (copied, k, ppt) ← copyout k psz ppt (some pt) sp (wordBytes (st.ustack ++ [0]))
    if !copied then pure (none, k, ppt) else pure (some sp, k, ppt)

/-- An image with its stack, ready to be committed to. -/
structure Ready where
  image : Image
  sz : Nat
  sp : Nat
  argc : Nat
  oldsz : Nat

/-- `bad:` after the file has been closed. -/
def stackBad (s : State) (i : Fin nproc) (ppt : Pagetable) (k : Kmem) (pt : Pagetable) (sz : Nat) :
    Except Stop (Option Ready × State) := do
  let k ← procFreepagetable k pt sz
  pure (none, { s.setProc i { s.proc i with pagetable := some ppt } with kmem := k })

/-- Reset the mmap region of the process, and give the new image a stack with the arguments. -/
def setupStack (s : State) (i : Fin nproc) (img : Image) : Except Stop (Option Ready × State) := do
  let p := { s.proc i with mmap := trapframeVa - pgsize, hasMmap := false }
  let s := s.setProc i p
  let ppt ← deref p.pagetable
  let sz := pgRoundUp img.sz
  let (sz1, k, pt) ←
    uvmalloc s.kmem img.pagetable sz (u64 (sz + (userstack + 1) * pgsize)) .W
  if sz1 = 0 then stackBad s i ppt k pt sz
  else
    let pt ← uvmclear k pt (sub64 sz1 ((userstack + 1) * pgsize))
    let stackbase := sub64 sz1 (userstack * pgsize)
    match ← pushArgs p.sz pt stackbase img.argv k ppt ⟨sz1, []⟩ with
    | (none, k, ppt) => stackBad s i ppt k pt sz1
    | (some st, k, ppt) =>
      match ← pushUstack p.sz pt stackbase k ppt st with
      | (none, k, ppt) => stackBad s i ppt k pt sz1
      | (some sp, k, ppt) =>
        pure (some ⟨{ img with pagetable := pt }, sz1, sp, st.ustack.length, p.sz⟩,
          { s.setProc i { p with pagetable := some ppt } with kmem := k })

/-! ### Committing -/

/-- The last component of a path. -/
def lastName (path : List UInt8) : List UInt8 :=
  (path.reverse.takeWhile (· ≠ Fs.slash)).reverse

/-- Commit to the user image. -/
def commitImage (s : State) (i : Fin nproc) (r : Ready) : Except Stop State := do
  let p := s.proc i
  let tf ← deref p.trapframe
  let oldpagetable ← deref p.pagetable
  let regs := ((s.kmem.page tf).store64 tfA1 r.sp).store64 tfEpc r.image.entry
  let k := s.kmem.setPage tf (regs.store64 tfSp r.sp)
  let p := { p with name := (lastName r.image.path.bytes).take 15, pagetable := some r.image.pagetable, sz := r.sz }
  let k ← procFreepagetable k oldpagetable r.oldsz
  pure { s.setProc i p with kmem := k }

/-- How many `#!` lines can be followed before `begin_op` has to wait. -/
def execDepth (s : State) : Nat :=
  ((logblocks / maxopblocks : Nat) - s.fs.log.outstanding).toNat + 1

/-- Everything `kexec` does before it commits. -/
def kexecPrepare (s : State) (i : Fin nproc) (path : CStr) (argv : List CStr) :
    Except Stop (Option Ready × State) := do
  match ← loadImage (execDepth s) s i path argv with
  | (none, s) => pure (none, s)
  | (some img, s) => setupStack s i img

/-- The implementation of the exec() system call. -/
def kexec (s : State) (i : Fin nproc) (path : CStr) (argv : List CStr) :
    Except Stop (Int × State) := do
  match ← kexecPrepare s i path argv with
  | (none, s) => pure (-1, s)
  | (some r, s) =>
    let s ← commitImage s i r
    pure (r.argc, s)

end FogOS.Kernel
