import FogOS.Lib.ByteMem

/-!
# Kernel constants and outcomes

`param.h`, `memlayout.h` and `riscv.h`, and what a call inside the kernel can end in other than a
result: a panic, or sleep from which only another process can wake it.
-/

namespace FogOS.Kernel

-- Wrap-around of `uint`.
export ByteMem (u32)

/-! ### Memory layout -/

/-- `PGSIZE`. -/
def pgsize : Nat := 4096

/-- `KERNBASE`. -/
def kernbase : Nat := 0x80000000

/-- `PHYSTOP`. -/
def phystop : Nat := kernbase + 128 * 1024 * 1024

/-- `MAXVA`: one bit less than Sv39 allows. -/
def maxva : Nat := 2 ^ 38

/-- `TRAMPOLINE`. -/
def trampolineVa : Nat := maxva - pgsize

/-- `TRAPFRAME`. -/
def trapframeVa : Nat := trampolineVa - pgsize

/-- `USERSTACK`, in pages. -/
def userstack : Nat := 1

/-- `MAXARG`. -/
def maxarg : Nat := 32

/-- `NBUF`. -/
def nbuf : Nat := 30

/-- Wrap-around of `uint64`. -/
def u64 (n : Nat) : Nat := n % 2 ^ 64

/-- The subtraction `a - b` on `uint64`. -/
def sub64 (a b : Nat) : Nat := (a + 2 ^ 64 - b) % 2 ^ 64

/-- The value of an `int` after an arithmetic operation that gave `n`. -/
def toInt32 (n : Int) : Int := n.bmod (2 ^ 32)

lemma toInt32_eq {n : Int} (hlo : -2 ^ 31 ≤ n) (hhi : n < 2 ^ 31) : toInt32 n = n := by
  unfold toInt32
  rw [Int.bmod_eq_of_le] <;> omega

/-- `PGROUNDUP`. -/
def pgRoundUp (sz : Nat) : Nat := u64 (sz + pgsize - 1) / pgsize * pgsize

/-- `PGROUNDDOWN`. -/
def pgRoundDown (a : Nat) : Nat := a / pgsize * pgsize

/-! ### Outcomes -/

/-- The calls of `panic` in the modelled code. -/
inductive Panic
  | walk
  | mappagesVa
  | mappagesSizeAlign
  | mappagesSize
  | mappagesRemap
  | uvmunmap
  | freewalkLeaf
  | uvmclear
  | loadseg
  | invalidMmap
  | initExiting
  | filedup
  | fileclose
  | igetNoInodes
  | ilock
  | ilockNoType
  | iunlock
  | dirlookupNotDir
  | dirlookupRead
  | dirlinkRead
  | isdiremptyRead
  | unlinkNlink
  | unlinkWritei
  | bmap
  | bfree
  | bgetNoBuffers
  | logCommitting
  | logTooBig
  | logOutside
  deriving DecidableEq, Repr

/-- The text `panic` prints. -/
def Panic.msg : Panic → String
  | walk => "walk"
  | mappagesVa => "mappages: va not aligned"
  | mappagesSizeAlign => "mappages: size not aligned"
  | mappagesSize => "mappages: size"
  | mappagesRemap => "mappages: remap"
  | uvmunmap => "uvmunmap: not aligned"
  | freewalkLeaf => "freewalk: leaf"
  | uvmclear => "uvmclear"
  | loadseg => "loadseg: address should exist"
  | invalidMmap => "invalid mmap"
  | initExiting => "init exiting"
  | filedup => "filedup"
  | fileclose => "fileclose"
  | igetNoInodes => "iget: no inodes"
  | ilock => "ilock"
  | ilockNoType => "ilock: no type"
  | iunlock => "iunlock"
  | dirlookupNotDir => "dirlookup not DIR"
  | dirlookupRead => "dirlookup read"
  | dirlinkRead => "dirlink read"
  | isdiremptyRead => "isdirempty: readi"
  | unlinkNlink => "unlink: nlink < 1"
  | unlinkWritei => "unlink: writei"
  | bmap => "bmap: out of range"
  | bfree => "freeing free block"
  | bgetNoBuffers => "bget: no buffers"
  | logCommitting => "log.committing"
  | logTooBig => "too big a transaction"
  | logOutside => "log_write outside of trans"

/-- How a call ends when it does not return. -/
inductive Stop
  /-- The kernel panics. -/
  | panic (p : Panic)
  /-- The process sleeps, and nothing it could do itself wakes it. -/
  | sleep
  /-- The code follows a pointer that does not point to what it expects. -/
  | wild
  deriving DecidableEq, Repr

section Outcome

variable {α β : Type} {ε : Type}

/-- A sequence that returns has returned in its first part. -/
lemma bind_ok {x : Except ε α} {f : α → Except ε β} {b : β} (h : x >>= f = .ok b) :
    ∃ a, x = .ok a ∧ f a = .ok b := by
  cases x with
  | error e => cases h
  | ok a => exact ⟨a, rfl, h⟩

lemma ok_bind (a : α) (f : α → Except ε β) : (Except.ok a >>= f) = f a := rfl

lemma pure_ok {a b : α} (h : (pure a : Except ε α) = .ok b) : b = a := by
  cases h
  rfl

lemma guard_ok {c : Prop} [Decidable c] {e : ε} {x : Except ε α} {b : α}
    (h : (if c then throw e else x) = .ok b) : ¬ c ∧ x = .ok b := by
  by_cases hc : c
  · rw [if_pos hc] at h
    cases h
  · rw [if_neg hc] at h
    exact ⟨hc, h⟩

end Outcome

end FogOS.Kernel
