import FogOS.Kernel.PageTable

/-!
# User address spaces

The functions of `kernel/vm.c` that build, copy, look up and tear down a user page table. They
take the allocator and the page table and return both as they leave them. `true` stands for a
return value of 0 and `false` for -1, except where the source returns an address or a size.
-/

namespace FogOS.Kernel

open ByteMem Ledger

/-- `a | b` on permission bits. -/
def Perm.or (a b : Perm) : Perm := ⟨a.r || b.r, a.w || b.w, a.x || b.x, a.u || b.u⟩

def Perm.R : Perm := ⟨true, false, false, false⟩
def Perm.W : Perm := ⟨false, true, false, false⟩
def Perm.X : Perm := ⟨false, false, true, false⟩
def Perm.U : Perm := ⟨false, false, false, true⟩

/-- How often `for(a = first; a < last; a += PGSIZE)` goes round. -/
def rounds (first last : Nat) : Nat := (last - first + (pgsize - 1)) / pgsize

/-- A page count that passes through an `int`. -/
def int32 (n : Nat) : Nat :=
  if n % 2 ^ 32 < 2 ^ 31 then n % 2 ^ 32 else n % 2 ^ 32 + (2 ^ 64 - 2 ^ 32)

/-! ### Looking up -/

/-- The physical address of a user page, or 0 if not mapped. -/
def walkaddr (k : Kmem) (pt : Pagetable) (va : Nat) : Except Stop Nat :=
  if maxva ≤ va then pure 0
  else do
    let (found, _, pt) ← walk k pt va false
    if !found then pure 0
    else match pt.pte va with
      | none => pure 0
      | some q => if !q.perm.u then pure 0 else pure q.pa

def ismapped (k : Kmem) (pt : Pagetable) (va : Nat) : Except Stop Bool := do
  let (found, _, pt) ← walk k pt va false
  if !found then pure false else pure (pt.pte va).isSome

/-! ### Mapping -/

/-- The loop of `mappages`; its last round is the one with `a == last`. -/
def mappagesLoop (perm : Perm) :
    Nat → Kmem → Pagetable → Nat → Nat → Except Stop (Bool × Kmem × Pagetable)
  | 0, k, pt, _, _ => pure (true, k, pt)
  | n + 1, k, pt, a, pa => do
    let (found, k, pt) ← walk k pt a true
    if !found then pure (false, k, pt)
    else if (pt.pte a).isSome then throw (.panic .mappagesRemap)
    else mappagesLoop perm n k (pt.setPte a (some (pa2pte pa perm))) (a + pgsize) (pa + pgsize)

/-- Create PTEs for virtual addresses starting at `va` that refer to physical addresses starting
at `pa`. -/
def mappages (k : Kmem) (pt : Pagetable) (va size pa : Nat) (perm : Perm) :
    Except Stop (Bool × Kmem × Pagetable) :=
  if va % pgsize ≠ 0 then throw (.panic .mappagesVa)
  else if size % pgsize ≠ 0 then throw (.panic .mappagesSizeAlign)
  else if size = 0 then throw (.panic .mappagesSize)
  else mappagesLoop perm (size / pgsize) k pt va pa

/-- An empty user page table, or `none` if out of memory. -/
def uvmcreate (k : Kmem) : Option Pagetable × Kmem :=
  match k.kalloc with
  | (none, k) => (none, k)
  | (some pa, k) => (some (Table.zero pa), k.fill pa 0)

/-! ### Unmapping -/

def uvmunmapLoop (doFree : Bool) : Nat → Kmem → Pagetable → Nat → Except Stop (Kmem × Pagetable)
  | 0, k, pt, _ => pure (k, pt)
  | n + 1, k, pt, a => do
    let (found, k, pt) ← walk k pt a false
    if !found then uvmunmapLoop doFree n k pt (a + pgsize)
    else match pt.pte a with
      | none => uvmunmapLoop doFree n k pt (a + pgsize)
      | some q =>
        let k := if doFree then k.kfree q.pa else k
        uvmunmapLoop doFree n k (pt.setPte a none) (a + pgsize)

/-- Remove `npages` of mappings starting from `va`. It is OK if the mappings don't exist. -/
def uvmunmap (k : Kmem) (pt : Pagetable) (va npages : Nat) (doFree : Bool) :
    Except Stop (Kmem × Pagetable) :=
  if va % pgsize ≠ 0 then throw (.panic .uvmunmap)
  else uvmunmapLoop doFree (rounds va (u64 (va + u64 (npages * pgsize)))) k pt va

/-- Deallocate user pages to bring the process size from `oldsz` to `newsz`. -/
def uvmdealloc (k : Kmem) (pt : Pagetable) (oldsz newsz : Nat) :
    Except Stop (Nat × Kmem × Pagetable) :=
  if oldsz ≤ newsz then pure (oldsz, k, pt)
  else if pgRoundUp newsz < pgRoundUp oldsz then do
    let npages := int32 ((pgRoundUp oldsz - pgRoundUp newsz) / pgsize)
    let (k, pt) ← uvmunmap k pt (pgRoundUp newsz) npages true
    pure (newsz, k, pt)
  else pure (newsz, k, pt)

/-! ### Growing -/

def uvmallocLoop (oldsz : Nat) (xperm : Perm) :
    Nat → Kmem → Pagetable → Nat → Except Stop (Bool × Kmem × Pagetable)
  | 0, k, pt, _ => pure (true, k, pt)
  | n + 1, k, pt, a =>
    match k.kalloc with
    | (none, k) => do
      let (_, k, pt) ← uvmdealloc k pt a oldsz
      pure (false, k, pt)
    | (some mem, k) => do
      let k := k.fill mem 0
      let (mapped, k, pt) ← mappages k pt a pgsize mem ((Perm.R.or .U).or xperm)
      if !mapped then
        let k := k.kfree mem
        let (_, k, pt) ← uvmdealloc k pt a oldsz
        pure (false, k, pt)
      else uvmallocLoop oldsz xperm n k pt (a + pgsize)

/-- Allocate PTEs and physical memory to grow a process from `oldsz` to `newsz`. Returns the new
size or 0 on error. -/
def uvmalloc (k : Kmem) (pt : Pagetable) (oldsz newsz : Nat) (xperm : Perm) :
    Except Stop (Nat × Kmem × Pagetable) :=
  if newsz < oldsz then pure (oldsz, k, pt)
  else do
    let oldsz := pgRoundUp oldsz
    let (done, k, pt) ← uvmallocLoop oldsz xperm (rounds oldsz newsz) k pt oldsz
    pure (if done then newsz else 0, k, pt)

/-- Free user memory pages, then free page-table pages. -/
def uvmfree (k : Kmem) (pt : Pagetable) (sz : Nat) : Except Stop Kmem := do
  let (k, pt) ← if 0 < sz then uvmunmap k pt 0 (pgRoundUp sz / pgsize) true else pure (k, pt)
  freewalk k pt

/-! ### Copying an address space -/

def uvmcopyLoop (old : Pagetable) :
    Nat → Kmem → Pagetable → Nat → Except Stop (Bool × Kmem × Pagetable)
  | 0, k, new, _ => pure (true, k, new)
  | n + 1, k, new, i => do
    let (found, k, _) ← walk k old i false
    if !found then uvmcopyLoop old n k new (i + pgsize)
    else match old.pte i with
      | none => uvmcopyLoop old n k new (i + pgsize)
      | some q =>
        match k.kalloc with
        | (none, k) =>
          let (k, new) ← uvmunmap k new 0 (i / pgsize) true
          pure (false, k, new)
        | (some mem, k) =>
          let k := k.setPage mem (k.page q.pa)
          let (mapped, k, new) ← mappages k new i pgsize mem q.perm
          if !mapped then
            let k := k.kfree mem
            let (k, new) ← uvmunmap k new 0 (i / pgsize) true
            pure (false, k, new)
          else uvmcopyLoop old n k new (i + pgsize)

/-- Copy a parent's memory into a child's page table. Frees any allocated pages on failure. -/
def uvmcopy (k : Kmem) (old new : Pagetable) (sz : Nat) : Except Stop (Bool × Kmem × Pagetable) :=
  uvmcopyLoop old (rounds 0 sz) k new 0

/-- Mark a PTE invalid for user access. -/
def uvmclear (k : Kmem) (pt : Pagetable) (va : Nat) : Except Stop Pagetable := do
  let (found, _, pt) ← walk k pt va false
  if !found then throw (.panic .uvmclear)
  else pure (pt.setPte va ((pt.pte va).map fun q => { q with perm := { q.perm with u := false } }))

/-! ### Copying to user memory -/

/-- Allocate and map user memory if the process (`psz` and `ppt` are its size and page table)
refers to a page that was lazily allocated. Returns 0 or the physical address. -/
def vmfault (k : Kmem) (psz : Nat) (ppt pt : Pagetable) (va : Nat) :
    Except Stop (Nat × Kmem × Pagetable) :=
  if psz ≤ va then pure (0, k, ppt)
  else do
    let va := pgRoundDown va
    if ← ismapped k pt va then pure (0, k, ppt)
    else match k.kalloc with
      | (none, k) => pure (0, k, ppt)
      | (some mem, k) =>
        let k := k.fill mem 0
        let (mapped, k, ppt) ← mappages k ppt va pgsize mem ((Perm.W.or .U).or .R)
        if !mapped then pure (0, k.kfree mem, ppt) else pure (mem, k, ppt)

/-- The physical page for a user page, faulted in if need be. -/
def faultIn (k : Kmem) (psz : Nat) (ppt pt : Pagetable) (va0 : Nat) :
    Except Stop (Nat × Kmem × Pagetable) := do
  let pa0 ← walkaddr k pt va0
  if pa0 = 0 then vmfault k psz ppt pt va0 else pure (pa0, k, ppt)

/-- The bytes of `src` stored from offset `off` on. -/
def blit (m : Mem) (off : Nat) (src : List UInt8) : Mem :=
  fun x => if off ≤ x ∧ x < off + src.length then src.getD (x - off) 0 else m x

/-- The loop of `copyout`. `pt` is the page table argument; `none` means that it is the page
table `ppt` of the process itself, so that a fault is seen in it. -/
def copyoutLoop (psz : Nat) (pt : Option Pagetable) :
    Nat → Kmem → Pagetable → Nat → List UInt8 → Except Stop (Bool × Kmem × Pagetable)
  | 0, k, ppt, _, _ => pure (true, k, ppt)
  | fuel + 1, k, ppt, dstva, src =>
    if src = [] then pure (true, k, ppt)
    else
      let va0 := pgRoundDown dstva
      if maxva ≤ va0 then pure (false, k, ppt)
      else do
        let (pa0, k, ppt) ← faultIn k psz ppt (pt.getD ppt) va0
        if pa0 = 0 then pure (false, k, ppt)
        else
          let (found, _, pagetable) ← walk k (pt.getD ppt) va0 false
          if !found then throw .wild
          else if !((pagetable.pte va0).any (·.perm.w)) then pure (false, k, ppt)
          else
            let n := min (pgsize - (dstva - va0)) src.length
            let k := k.setPage pa0 (blit (k.page pa0) (dstva - va0) (src.take n))
            copyoutLoop psz pt fuel k ppt (va0 + pgsize) (src.drop n)

/-- Copy bytes from kernel to user. Each round of the loop copies at least one byte. -/
def copyout (k : Kmem) (psz : Nat) (ppt : Pagetable) (pt : Option Pagetable) (dstva : Nat)
    (src : List UInt8) : Except Stop (Bool × Kmem × Pagetable) :=
  copyoutLoop psz pt src.length k ppt dstva src

end FogOS.Kernel
