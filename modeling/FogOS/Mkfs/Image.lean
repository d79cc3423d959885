import FogOS.Kernel.Paths

/-!
# Making a file system

`mkfs/mkfs.c`, and the image that it writes. The image is kept as the kernel sees the disk: inodes,
bits of the bitmap, and the bytes of the other blocks. The input files come with the pieces in which
`read` delivers them. Both sides take the numbers in an image as little-endian.
-/

namespace FogOS.Mkfs

open Kernel ByteMem Placement

/-! ### The program -/

/-- `NINODES`. -/
def ninodes : Nat := 200

/-- `FSSIZE`. -/
def fssize : Nat := 4000

def nbitmap : Nat := fssize / bpb + 1
def ninodeblocks : Nat := ninodes / ipb + 1
def nlog : Nat := logblocks + 1

/-- Number of meta blocks (boot, sb, nlog, inode, bitmap). -/
def nmeta : Nat := 2 + nlog + ninodeblocks + nbitmap

def superblock : Superblock := ⟨fssize, 2 + nlog, 2 + nlog + ninodeblocks⟩

/-- `T_FILE`. -/
def tFile : Int := 2

/-- How `mkfs` stops: an assertion fails, it calls `die`, or it writes an inode beyond the inode
blocks. -/
inductive Failure
  | assertion
  | die
  | overrun
  deriving DecidableEq, Repr

/-- The image, `freeinode` and `freeblock`. -/
structure Image where
  fs : Fs
  freeinode : Nat
  freeblock : Nat

/-- An inode of zeros. -/
def noDinode : Dinode := ⟨0, 0, 0, fun _ => 0⟩

/-- The image after it has been filled with zeros and the superblock has been written. The kernel's
inode table is empty then. -/
def Image.blank : Image where
  fs :=
    { sb := superblock
      dinode := fun _ => noDinode
      bitmap := fun _ => false
      block := fun _ _ => 0
      itable := fun _ => ⟨0, 0, 0, false, 0, false, noDinode⟩
      log := ⟨0, false, []⟩ }
  freeinode := 1
  freeblock := nmeta

/-- `rsect` of a block of data; there is nothing to read beyond the end of the image. -/
def Image.rsect (img : Image) (sec : Nat) : Except Failure Mem :=
  if sec < fssize then pure (img.fs.block sec) else throw .die

/-- `wsect`, of a block that has been read before. -/
def Image.wsect (img : Image) (sec : Nat) (buf : Mem) : Image :=
  { img with fs := { img.fs with block := Function.update img.fs.block sec buf } }

def Image.winode (img : Image) (inum : Nat) (ip : Dinode) : Except Failure Image :=
  if inum < ninodeblocks * ipb then
    pure { img with fs := { img.fs with dinode := Function.update img.fs.dinode inum ip } }
  else throw .overrun

def Image.ialloc (img : Image) (type : Int) : Except Failure (Nat × Image) := do
  let inum := img.freeinode
  let img ← { img with freeinode := img.freeinode + 1 }.winode inum ⟨type, 1, 0, fun _ => 0⟩
  pure (inum, img)

/-- Mark the blocks below `used` in the bitmap, which is one block long. -/
def Image.balloc (img : Image) (used : Nat) : Except Failure Image :=
  if used < bpb then
    pure { img with fs := { img.fs with bitmap := fun b => decide (b < used) } }
  else throw .assertion

/-- `freeblock++`. -/
def Image.bump (img : Image) : Image := { img with freeblock := img.freeblock + 1 }

/-- The inode with its indirect block. -/
def Image.indirectFor (img : Image) (din : Dinode) : Dinode × Image :=
  if din.addrs ndirect = 0 then (Fs.withAddr din ndirect img.freeblock, img.bump) else (din, img)

/-- The block `x` for `fbn`, which gets a number if it has none. -/
def Image.blockFor (img : Image) (din : Dinode) (fbn : Nat) :
    Except Failure (Nat × Dinode × Image) :=
  if fbn < ndirect then
    if din.addrs fbn = 0 then
      pure (img.freeblock, Fs.withAddr din fbn img.freeblock, img.bump)
    else pure (din.addrs fbn, din, img)
  else
    let (din, img) := img.indirectFor din
    let ind := din.addrs ndirect
    if ind < fssize then
      if img.fs.indirect ind (fbn - ndirect) = 0 then
        let fs := img.fs.setIndirect ind (fbn - ndirect) img.freeblock
        pure (img.freeblock, din, { img with fs := fs }.bump)
      else pure (img.fs.indirect ind (fbn - ndirect), din, img)
    else throw .die

/-- `bcopy(p, buf + pos, n1)`. -/
def bcopy (p : List UInt8) (buf : Mem) (pos n1 : Nat) : Mem := fun y =>
  if pos ≤ y ∧ y < pos + n1 then p.getD (y - pos) 0 else buf y

/-- The loop of `iappend`: the image, `din` and `off` at its end. Every round appends at least one
byte. -/
def iappendLoop : Nat → Image → Dinode → Nat → List UInt8 → Except Failure (Image × Dinode × Nat)
  | 0, img, din, off, _ => pure (img, din, off)
  | fuel + 1, img, din, off, p =>
    if p = [] then pure (img, din, off)
    else if Fs.maxfile ≤ off / bsize then throw .assertion
    else do
      let (x, din, img) ← img.blockFor din (off / bsize)
      let buf ← img.rsect x
      let n1 := min p.length ((off / bsize + 1) * bsize - off)
      let img := img.wsect x (bcopy p buf (off - off / bsize * bsize) n1)
      iappendLoop fuel img din (off + n1) (p.drop n1)

def Image.iappend (img : Image) (inum : Nat) (p : List UInt8) : Except Failure Image := do
  let din := img.fs.dinode inum
  let (img, din, off) ← iappendLoop p.length img din din.size p
  img.winode inum { din with size := off }

/-- `struct dirent`: the inode number, and the name with NULs up to `DIRSIZ`. -/
def direntBytes (inum : Nat) (name : List UInt8) : List UInt8 :=
  [UInt8.ofNat inum, UInt8.ofNat (inum / 256)] ++ (name ++ List.replicate (dirsiz - name.length) 0)

/-- `"user/"`. -/
def userDir : List UInt8 := [117, 115, 101, 114, 47]

/-- An argument of `mkfs` without `user/`. -/
def basename (arg : List UInt8) : List UInt8 :=
  if arg.take 5 = userDir then arg.drop 5 else arg

/-- The name in the file system: a leading underscore is skipped. -/
def shortname (arg : List UInt8) : List UInt8 :=
  if (basename arg).head? = some 95 then (basename arg).tail else basename arg

/-- An input file: its name on the command line, and what the calls of `read` return. -/
structure Input where
  arg : List UInt8
  chunks : List (List UInt8)

/-- The body of the loop over the arguments. -/
def Image.add (img : Image) (input : Input) : Except Failure Image :=
  if 47 ∈ basename input.arg then throw .assertion
  else if dirsiz < (shortname input.arg).length then throw .assertion
  else do
    let (inum, img) ← img.ialloc tFile
    let img ← img.iappend rootino (direntBytes inum (shortname input.arg))
    input.chunks.foldlM (fun img chunk => img.iappend inum chunk) img

/-- The size of the root directory is rounded up. -/
def Image.fixRoot (img : Image) : Except Failure Image :=
  let din := img.fs.dinode rootino
  img.winode rootino { din with size := (din.size / bsize + 1) * bsize }

/-- `main`, for the given input files. -/
def main (files : List Input) : Except Failure Image := do
  let (root, img) ← Image.blank.ialloc tDir
  let img ← img.iappend root (direntBytes root [46])
  let img ← img.iappend root (direntBytes root [46, 46])
  let img ← files.foldlM Image.add img
  let img ← img.fixRoot
  img.balloc img.freeblock

end FogOS.Mkfs
