import FogOS.Lib.ByteMem
import FogOS.Kernel.Basic

/-!
# Inodes, paths and transactions

The parts of `kernel/fs.c`, `kernel/log.c` and `kernel/sleeplock.c` by which the kernel finds and
reads a file: the log's admission of operations, disk blocks, the in-memory inode table with its
references and sleep-locks, reading, and path lookup.

The disk is what `bread` shows: inode blocks and bitmap blocks are kept as inodes and bits, other
blocks as bytes. There is one device. A function that would sleep on a lock or on the log ends in
`Stop.sleep`; `pid` is the caller's. The buffers of the cache are counted where blocks are freed:
there a transaction may come near their number.
-/

namespace FogOS.Kernel

open ByteMem

/-- `NINODE`. -/
def ninode : Nat := 50

/-- `MAXOPBLOCKS`. -/
def maxopblocks : Nat := 10

/-- `LOGBLOCKS`. -/
def logblocks : Nat := 30

/-- `BSIZE`. -/
def bsize : Nat := 1024

/-- `BPB`, bitmap bits per block. -/
def bpb : Nat := 8192

/-- `IPB`, inodes per block. -/
def ipb : Nat := 16

/-- `NDIRECT`. -/
def ndirect : Nat := 12

/-- `NINDIRECT`. -/
def nindirect : Nat := 256

/-- `DIRSIZ`. -/
def dirsiz : Nat := 14

/-- `ROOTDEV` and `ROOTINO`. -/
def rootdev : Nat := 1
def rootino : Nat := 1

/-- `T_DIR`. -/
def tDir : Int := 1

/-- `struct dinode`. The device numbers are not used here. -/
structure Dinode where
  type : Int
  nlink : Int
  size : Nat
  addrs : Nat → Nat

/-- `struct inode` with its sleep-lock. -/
structure Inode where
  dev : Nat
  inum : Nat
  ref : Int
  locked : Bool
  lockPid : Int
  valid : Bool
  d : Dinode

/-- The fields of the superblock that are used. -/
structure Superblock where
  size : Nat
  inodestart : Nat
  bmapstart : Nat

/-- `struct log`; `block` is the list `lh.block` of length `lh.n`. -/
structure Log where
  outstanding : Int
  committing : Bool
  block : List Nat

/-- The file system. -/
structure Fs where
  sb : Superblock
  dinode : Nat → Dinode
  bitmap : Nat → Bool
  block : Nat → Mem
  itable : Fin ninode → Inode
  log : Log

namespace Fs

/-! ### The log -/

/-- Called at the start of each FS system call. -/
def beginOp (fs : Fs) : Except Stop Fs :=
  if fs.log.committing then throw .sleep
  else if (logblocks : Int) < fs.log.block.length + (fs.log.outstanding + 1) * maxopblocks then
    throw .sleep
  else pure { fs with log := { fs.log with outstanding := fs.log.outstanding + 1 } }

/-- Called at the end of each FS system call. The last one commits, which empties the log. -/
def endOp (fs : Fs) : Except Stop Fs :=
  let log := { fs.log with outstanding := fs.log.outstanding - 1 }
  if log.committing then throw (.panic .logCommitting)
  else if log.outstanding = 0 then pure { fs with log := { log with block := [] } }
  else pure { fs with log := log }

/-- Record a block that has been modified. -/
def logWrite (fs : Fs) (b : Nat) : Except Stop Fs :=
  if logblocks ≤ fs.log.block.length then throw (.panic .logTooBig)
  else if fs.log.outstanding < 1 then throw (.panic .logOutside)
  else if b ∈ fs.log.block then pure fs
  else pure { fs with log := { fs.log with block := fs.log.block ++ [b] } }

/-! ### Blocks -/

/-- `bread` of block `b` by a caller with the buffers of the blocks `held`. A block in the log keeps its
buffer until the transaction is committed. -/
def bread (fs : Fs) (held : List Nat) (b : Nat) : Except Stop Unit :=
  let used := (fs.log.block ++ held).toFinset
  if b ∈ held then throw .sleep
  else if b ∉ used ∧ nbuf ≤ used.card then throw (.panic .bgetNoBuffers)
  else pure ()

/-- `BBLOCK`. -/
def bblock (fs : Fs) (b : Nat) : Nat := b / bpb + fs.sb.bmapstart

/-- `IBLOCK`. -/
def iblock (fs : Fs) (i : Nat) : Nat := i / ipb + fs.sb.inodestart

/-- Allocate a zeroed disk block; 0 if out of disk space. -/
def balloc (fs : Fs) : Except Stop (Nat × Fs) :=
  match (List.range fs.sb.size).find? fun b => !fs.bitmap b with
  | none => pure (0, fs)
  | some b => do
    let fs := { fs with bitmap := Function.update fs.bitmap b true }
    let fs ← fs.logWrite (fs.bblock b)
    let fs := { fs with block := Function.update fs.block b fun _ => 0 }
    let fs ← fs.logWrite b
    pure (b, fs)

/-- Free a disk block. The caller has the buffers of the blocks `held`. -/
def bfree (fs : Fs) (held : List Nat) (b : Nat) : Except Stop Fs := do
  let bp := fs.bblock b
  fs.bread held bp
  if !fs.bitmap b then throw (.panic .bfree)
  else logWrite { fs with bitmap := Function.update fs.bitmap b false } bp

/-- The `i`-th entry of an indirect block. -/
def indirect (fs : Fs) (b i : Nat) : Nat :=
  let m := fs.block b
  (m (4 * i)).toNat + 256 * ((m (4 * i + 1)).toNat + 256 * ((m (4 * i + 2)).toNat +
    256 * (m (4 * i + 3)).toNat))

def setIndirect (fs : Fs) (b i v : Nat) : Fs :=
  { fs with block := Function.update fs.block b fun x => if 4 * i ≤ x ∧ x < 4 * i + 4 then UInt8.ofNat (v / 256 ^ (x - 4 * i)) else fs.block b x }

/-! ### The inode table -/

/-- Assignment to fields of an entry. -/
def setInode (fs : Fs) (ip : Fin ninode) (v : Inode) : Fs :=
  { fs with itable := Function.update fs.itable ip v }

/-- Find the inode with number `inum` on device `dev` and return the in-memory copy. -/
def iget (fs : Fs) (dev inum : Nat) : Except Stop (Fin ninode × Fs) :=
  match (List.finRange ninode).find? fun i =>
      0 < (fs.itable i).ref ∧ (fs.itable i).dev = dev ∧ (fs.itable i).inum = inum with
  | some ip => pure (ip, fs.setInode ip { fs.itable ip with ref := (fs.itable ip).ref + 1 })
  | none =>
    match (List.finRange ninode).find? fun i => (fs.itable i).ref = 0 with
    | none => throw (.panic .igetNoInodes)
    | some ip =>
      pure (ip, fs.setInode ip { fs.itable ip with dev := dev, inum := inum, ref := 1, valid := false })

/-- Increment the reference count. -/
def idup (fs : Fs) (ip : Fin ninode) : Fs :=
  fs.setInode ip { fs.itable ip with ref := (fs.itable ip).ref + 1 }

/-- Copy a modified in-memory inode to disk. -/
def iupdate (fs : Fs) (ip : Fin ninode) : Except Stop Fs := do
  let bp := fs.iblock (fs.itable ip).inum
  fs.bread [] bp
  logWrite { fs with dinode := Function.update fs.dinode (fs.itable ip).inum (fs.itable ip).d } bp

def acquiresleep (fs : Fs) (pid : Int) (ip : Fin ninode) : Except Stop Fs :=
  if (fs.itable ip).locked then throw .sleep
  else pure (fs.setInode ip { fs.itable ip with locked := true, lockPid := pid })

def releasesleep (fs : Fs) (ip : Fin ninode) : Fs :=
  fs.setInode ip { fs.itable ip with locked := false, lockPid := 0 }

def holdingsleep (fs : Fs) (pid : Int) (ip : Fin ninode) : Bool :=
  (fs.itable ip).locked && (fs.itable ip).lockPid == pid

/-- Lock the given inode and read it from disk if necessary. -/
def ilock (fs : Fs) (pid : Int) (ip : Fin ninode) : Except Stop Fs :=
  if (fs.itable ip).ref < 1 then throw (.panic .ilock)
  else do
    let fs ← fs.acquiresleep pid ip
    if (fs.itable ip).valid then pure fs
    else
      let d := fs.dinode (fs.itable ip).inum
      if d.type = 0 then throw (.panic .ilockNoType)
      else pure (fs.setInode ip { fs.itable ip with d := d, valid := true })

/-- Unlock the given inode. -/
def iunlock (fs : Fs) (pid : Int) (ip : Fin ninode) : Except Stop Fs :=
  if !fs.holdingsleep pid ip || decide ((fs.itable ip).ref < 1) then throw (.panic .iunlock)
  else pure (fs.releasesleep ip)

/-- Free the blocks an inode or an indirect block lists. -/
def bfreeAll (fs : Fs) (held l : List Nat) : Except Stop Fs :=
  l.foldlM (fun fs b => if b = 0 then pure fs else fs.bfree held b) fs

/-- Free an indirect block and the blocks it lists, with its buffer in hand until they are free. -/
def bfreeIndirect (fs : Fs) (ind : Nat) : Except Stop Fs :=
  if ind = 0 then pure fs
  else do
    fs.bread [] ind
    let fs ← fs.bfreeAll [ind] ((List.range nindirect).map (fs.indirect ind))
    fs.bfree [] ind

/-- Truncate inode. -/
def itrunc (fs : Fs) (ip : Fin ninode) : Except Stop Fs := do
  let d := (fs.itable ip).d
  let fs ← fs.bfreeAll [] ((List.range ndirect).map d.addrs)
  let fs ← fs.bfreeIndirect (d.addrs ndirect)
  let d := { d with addrs := fun i => if i ≤ ndirect then 0 else d.addrs i, size := 0 }
  (fs.setInode ip { fs.itable ip with d := d }).iupdate ip

/-- The part of `iput` for the last reference to an inode without links: truncate and free. -/
def iputLast (fs : Fs) (pid : Int) (ip : Fin ninode) : Except Stop Fs := do
  let fs ← fs.acquiresleep pid ip
  let fs ← fs.itrunc ip
  let i := fs.itable ip
  let fs ← (fs.setInode ip { i with d := { i.d with type := 0 } }).iupdate ip
  pure ((fs.setInode ip { fs.itable ip with valid := false }).releasesleep ip)

/-- `ip->ref--`. -/
def idrop (fs : Fs) (ip : Fin ninode) : Fs :=
  fs.setInode ip { fs.itable ip with ref := (fs.itable ip).ref - 1 }

/-- Drop a reference to an in-memory inode. -/
def iput (fs : Fs) (pid : Int) (ip : Fin ninode) : Except Stop Fs :=
  let i := fs.itable ip
  if i.ref = 1 ∧ i.valid ∧ i.d.nlink = 0 then do
    let fs ← fs.iputLast pid ip
    pure (fs.idrop ip)
  else pure (fs.idrop ip)

/-- Common idiom: unlock, then put. -/
def iunlockput (fs : Fs) (pid : Int) (ip : Fin ninode) : Except Stop Fs := do
  let fs ← fs.iunlock pid ip
  fs.iput pid ip

/-! ### Reading -/

/-- An address of an inode's block list, allocated if it is not there. -/
def bmapDirect (fs : Fs) (ip : Fin ninode) (bn : Nat) : Except Stop (Nat × Fs) :=
  let d := (fs.itable ip).d
  if d.addrs bn ≠ 0 then pure (d.addrs bn, fs)
  else do
    let (addr, fs) ← fs.balloc
    if addr = 0 then pure (0, fs)
    else
      pure (addr, fs.setInode ip { fs.itable ip with d := { d with addrs := Function.update d.addrs bn addr } })

/-- Return the disk block address of the nth block in an inode; 0 if out of disk space. -/
def bmap (fs : Fs) (ip : Fin ninode) (bn : Nat) : Except Stop (Nat × Fs) :=
  if bn < ndirect then fs.bmapDirect ip bn
  else if bn - ndirect < nindirect then do
    let (ind, fs) ← fs.bmapDirect ip ndirect
    if ind = 0 then pure (0, fs)
    else if fs.indirect ind (bn - ndirect) ≠ 0 then pure (fs.indirect ind (bn - ndirect), fs)
    else
      let (addr, fs) ← fs.balloc
      if addr = 0 then pure (0, fs)
      else
        let fs ← (fs.setIndirect ind (bn - ndirect) addr).logWrite ind
        pure (addr, fs)
  else throw (.panic .bmap)

/-- The loop of `readi`, to a kernel address. Every round reads at least one byte. -/
def readiLoop (ip : Fin ninode) :
    Nat → Fs → Nat → Nat → List UInt8 → Except Stop (List UInt8 × Fs)
  | 0, fs, _, _, acc => pure (acc, fs)
  | fuel + 1, fs, off, n, acc =>
    if n = 0 then pure (acc, fs)
    else do
      let (addr, fs) ← fs.bmap ip (off / bsize)
      if addr = 0 then pure (acc, fs)
      else
        let m := min n (bsize - off % bsize)
        let bytes := (List.range m).map fun j => fs.block addr (off % bsize + j)
        readiLoop ip fuel fs (off + m) (n - m) (acc ++ bytes)

/-- Read data from inode: the bytes read, which may be fewer than `n`. -/
def readi (fs : Fs) (ip : Fin ninode) (off n : Nat) : Except Stop (List UInt8 × Fs) :=
  let size := (fs.itable ip).d.size
  if size < off ∨ u32 (off + n) < off then pure ([], fs)
  else
    let n := if size < u32 (off + n) then size - off else n
    readiLoop ip n fs off n []

/-! ### Directories and paths -/

/-- A little-endian number. -/
def leNat : List UInt8 → Nat
  | [] => 0
  | b :: l => b.toNat + 256 * leNat l

/-- The entries from `off` on. -/
def dirlookupLoop (ip : Fin ninode) (name : List UInt8) :
    Nat → Fs → Nat → Except Stop (Option (Fin ninode) × Fs)
  | 0, fs, _ => pure (none, fs)
  | fuel + 1, fs, off =>
    if (fs.itable ip).d.size ≤ off then pure (none, fs)
    else do
      let (de, fs) ← fs.readi ip off 16
      if de.length ≠ 16 then throw (.panic .dirlookupRead)
      else if leNat (de.take 2) ≠ 0 ∧ name = (de.drop 2).takeWhile (· ≠ 0) then
        let (next, fs) ← fs.iget (fs.itable ip).dev (leNat (de.take 2))
        pure (some next, fs)
      else dirlookupLoop ip name fuel fs (off + 16)

/-- Look for a directory entry in a directory. -/
def dirlookup (fs : Fs) (ip : Fin ninode) (name : List UInt8) :
    Except Stop (Option (Fin ninode) × Fs) :=
  if (fs.itable ip).d.type ≠ tDir then throw (.panic .dirlookupNotDir)
  else dirlookupLoop ip name ((fs.itable ip).d.size / 16 + 1) fs 0

/-- `'/'`. -/
def slash : UInt8 := 47

/-- The next path element, cut to `DIRSIZ` bytes, and the path after it. -/
def skipelem (path : List UInt8) : Option (List UInt8 × List UInt8) :=
  match path.dropWhile (· = slash) with
  | [] => none
  | s => some ((s.takeWhile (· ≠ slash)).take dirsiz,
      (s.dropWhile (· ≠ slash)).dropWhile (· = slash))

/-- The loop of `namex`. Every round takes at least one byte off the path. -/
def namexLoop (pid : Int) (nameiparent : Bool) :
    Nat → Fs → Fin ninode → List UInt8 → Except Stop (Option (Fin ninode × List UInt8) × Fs)
  | 0, _, _, _ => throw .wild
  | fuel + 1, fs, ip, path =>
    match skipelem path with
    | none => do
      if nameiparent then
        let fs ← fs.iput pid ip
        pure (none, fs)
      else pure (some (ip, []), fs)
    | some (name, path) => do
      let fs ← fs.ilock pid ip
      if (fs.itable ip).d.type ≠ tDir then
        let fs ← fs.iunlockput pid ip
        pure (none, fs)
      else if nameiparent && path.isEmpty then
        let fs ← fs.iunlock pid ip
        pure (some (ip, name), fs)
      else
        let (next, fs) ← fs.dirlookup ip name
        let fs ← fs.iunlockput pid ip
        match next with
        | none => pure (none, fs)
        | some next => namexLoop pid nameiparent fuel fs next path

/-- Where a path starts: at the root or in the current directory. -/
def namexStart (fs : Fs) (cwd : Option (Fin ninode)) (path : List UInt8) :
    Except Stop (Fin ninode × Fs) :=
  if path.head? = some slash then fs.iget rootdev rootino
  else match cwd with
    | none => throw .wild
    | some cwd => pure (cwd, fs.idup cwd)

/-- Look up the inode for a path name. -/
def namex (fs : Fs) (pid : Int) (cwd : Option (Fin ninode)) (path : List UInt8)
    (nameiparent : Bool) : Except Stop (Option (Fin ninode × List UInt8) × Fs) := do
  let (ip, fs) ← fs.namexStart cwd path
  namexLoop pid nameiparent (path.length + 1) fs ip path

def namei (fs : Fs) (pid : Int) (cwd : Option (Fin ninode)) (path : List UInt8) :
    Except Stop (Option (Fin ninode) × Fs) := do
  let (r, fs) ← fs.namex pid cwd path false
  pure (r.map (·.1), fs)

end Fs

end FogOS.Kernel
