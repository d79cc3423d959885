import FogOS.Kernel.Freelist
import FogOS.Kernel.Vm

/-!
# Page tables in memory

`walk`, `mappages`, `uvmcreate`, `uvmunmap`, `uvmclear` and `freewalk` of `kernel/vm.c` at the level of
the machine: a page table is the address of a page of 512 words, and an entry is a packed word. The
trees of `FogOS.Kernel.PageTable` are what this memory stands for.
-/

namespace FogOS.Kernel

open ByteMem

/-! ### Packed entries -/

/-- `PTE_V`. -/
def pteV : Nat := 1

/-- `PTE_R | PTE_W | PTE_X`. -/
def pteRWX : Nat := 14

/-- `PTE_U`. -/
def pteU : Nat := 16

/-- `PA2PTE`. -/
def pa2pteWord (pa : Nat) : Nat := (pa >>> 12) <<< 10

/-- `PTE2PA`, on `uint64`. -/
def pte2pa (w : Nat) : Nat := u64 ((w >>> 10) <<< 12)

/-- The bits `PTE_R`, `PTE_W`, `PTE_X` and `PTE_U`. -/
def Perm.bits (p : Perm) : Nat := 2 * p.r.toNat + 4 * p.w.toNat + 8 * p.x.toNat + 16 * p.u.toNat

/-- The permissions in an entry. -/
def Perm.ofWord (w : Nat) : Perm := ⟨w.testBit 1, w.testBit 2, w.testBit 3, w.testBit 4⟩

/-- The word of a leaf. -/
def Pte.word (q : Pte) : Nat := q.ppn * 1024 + q.perm.bits + 1

/-- The word of an entry that points to a table. -/
def Table.word {α : Type} (t : Table α) : Nat := t.addr / pgsize * 1024 + 1

lemma Perm.bits_le (p : Perm) : p.bits ≤ 30 := by
  obtain ⟨r, w, x, u⟩ := p
  cases r <;> cases w <;> cases x <;> cases u <;> decide

lemma shiftLeft_or {a b : Nat} (hb : b < 1024) : a <<< 10 ||| b = a * 1024 + b := by
  rw [← Nat.shiftLeft_add_eq_or_of_lt (by simpa using hb), Nat.shiftLeft_eq]

lemma Pte.word_eq (pa : Nat) (perm : Perm) : pa2pteWord pa ||| perm.bits ||| pteV = (pa2pte pa perm).word := by
  have hle := perm.bits_le
  have heven : perm.bits ||| 1 = perm.bits + 1 := by
    obtain ⟨r, w, x, u⟩ := perm
    cases r <;> cases w <;> cases x <;> cases u <;> decide
  have hpage : pa >>> 12 = pa / pgsize := Nat.shiftRight_eq_div_pow pa 12
  rw [Nat.or_assoc, pteV, heven, pa2pteWord, shiftLeft_or (by omega), hpage, pa2pte, Pte.word, Nat.add_assoc]

lemma Table.word_eq {α : Type} (t : Table α) : pa2pteWord t.addr ||| pteV = t.word := by
  have hpage : t.addr >>> 12 = t.addr / pgsize := Nat.shiftRight_eq_div_pow t.addr 12
  rw [pteV, pa2pteWord, shiftLeft_or (by decide), hpage, Table.word]

/-- The valid bit is the last one. -/
lemma and_pteV (w : Nat) : w &&& pteV = w % 2 := Nat.and_one_is_mod w

lemma and_pteRWX (w : Nat) : w &&& pteRWX = w % 16 &&& 14 := by
  have hmask : (14 : Nat) = 15 &&& 14 := by decide
  rw [pteRWX]
  nth_rewrite 1 [hmask]
  rw [← Nat.and_assoc, show (15 : Nat) = 2 ^ 4 - 1 by decide, Nat.and_two_pow_sub_one_eq_mod]

lemma pte2pa_eq (w : Nat) : pte2pa w = u64 (w / 1024 * pgsize) := by
  rw [pte2pa, Nat.shiftRight_eq_div_pow, Nat.shiftLeft_eq]
  rfl

namespace Pte

variable {q : Pte}

lemma word_lt (h : q.ppn < 2 ^ 52) : q.word < 2 ^ 64 := by
  have := q.perm.bits_le
  unfold word
  omega

lemma word_odd (q : Pte) : q.word % 2 = 1 := by
  unfold word Perm.bits
  omega

lemma pte2pa_word (h : q.ppn < 2 ^ 52) : pte2pa q.word = q.pa := by
  have := q.perm.bits_le
  have hdiv : q.word / 1024 = q.ppn := by
    unfold word
    omega
  rw [pte2pa_eq, hdiv, u64, Nat.mod_eq_of_lt]
  · rfl
  · unfold pgsize
    omega

lemma testBit_eq (n i : Nat) : n.testBit i = decide (n / 2 ^ i % 2 = 1) := by
  rw [Nat.testBit_eq_decide_div_mod_eq]

lemma ofWord_word (q : Pte) : Perm.ofWord q.word = q.perm := by
  obtain ⟨ppn, r, w, x, u⟩ := q
  unfold Perm.ofWord word Perm.bits
  simp only [testBit_eq, Perm.mk.injEq]
  cases r <;> cases w <;> cases x <;> cases u <;> simp <;> omega

/-- A leaf has one of the permissions to read, write and execute. -/
def Leaf (q : Pte) : Prop := (q.perm.r || q.perm.w || q.perm.x) = true

lemma Leaf.and_pteRWX (h : q.Leaf) : q.word &&& pteRWX ≠ 0 := by
  have hmod : q.word % 16 = 2 * q.perm.r.toNat + 4 * q.perm.w.toNat + 8 * q.perm.x.toNat + 1 := by
    unfold word Perm.bits
    have hr := q.perm.r.toNat_le
    have hw := q.perm.w.toNat_le
    have hx := q.perm.x.toNat_le
    omega
  have hall : ∀ r w x : Bool, (r || w || x) = true →
      2 * r.toNat + 4 * w.toNat + 8 * x.toNat + 1 &&& 14 ≠ 0 := by
    decide
  rw [FogOS.Kernel.and_pteRWX, hmod]
  exact hall _ _ _ h

/-- `*pte &= ~PTE_U`. -/
def withoutU (q : Pte) : Pte := { q with perm := { q.perm with u := false } }

lemma word_withoutU (h : q.ppn < 2 ^ 52) : q.word &&& (2 ^ 64 - 1 - pteU) = q.withoutU.word := by
  have hlt : q.word < 2 ^ 64 := word_lt h
  have hlow : (q.word &&& (2 ^ 64 - 1 - pteU)) % 1024 = q.word % 1024 &&& 1007 := by
    have := Nat.and_mod_two_pow (a := q.word) (b := 2 ^ 64 - 1 - pteU) (n := 10)
    simpa [pteU] using this
  have hhigh : (q.word &&& (2 ^ 64 - 1 - pteU)) / 1024 = q.word / 1024 := by
    have hshift := Nat.shiftRight_and_distrib (a := q.word) (b := 2 ^ 64 - 1 - pteU) (i := 10)
    rw [Nat.shiftRight_eq_div_pow, Nat.shiftRight_eq_div_pow, Nat.shiftRight_eq_div_pow] at hshift
    have hmask : (2 ^ 64 - 1 - pteU) / 2 ^ 10 = 2 ^ 54 - 1 := by decide
    rw [hmask, Nat.and_two_pow_sub_one_eq_mod, Nat.mod_eq_of_lt (by omega)] at hshift
    exact hshift
  have hword : q.word % 1024 = q.perm.bits + 1 ∧ q.word / 1024 = q.ppn := by
    have := q.perm.bits_le
    unfold word
    omega
  have hbits : (q.perm.bits + 1) &&& 1007 = q.withoutU.perm.bits + 1 := by
    obtain ⟨ppn, r, w, x, u⟩ := q
    cases r <;> cases w <;> cases x <;> cases u <;> simp [Perm.bits, withoutU]
  rw [hword.1, hbits] at hlow
  rw [hword.2] at hhigh
  have hsplit := Nat.div_add_mod (q.word &&& (2 ^ 64 - 1 - pteU)) 1024
  rw [hlow, hhigh] at hsplit
  rw [← hsplit]
  unfold word withoutU
  ring

end Pte

namespace Table

variable {α : Type} {t : Table α}

lemma word_lt (h : PageAddr t.addr) : t.word < 2 ^ 64 := by
  have hbelow : t.addr < 2281701376 := h.below
  unfold word pgsize
  omega

lemma word_odd (t : Table α) : t.word % 2 = 1 := by
  unfold word
  omega

lemma pte2pa_word (h : PageAddr t.addr) : pte2pa t.word = t.addr := by
  have hbelow : t.addr < 2281701376 := h.below
  have hdiv : t.word / 1024 = t.addr / pgsize := by
    unfold word
    omega
  rw [pte2pa_eq, hdiv, Nat.div_mul_cancel h.aligned, u64, Nat.mod_eq_of_lt (by omega)]

lemma word_and_pteRWX (t : Table α) : t.word &&& pteRWX = 0 := by
  have hmod : t.word % 16 = 1 := by
    unfold word
    omega
  rw [and_pteRWX, hmod]
  decide

end Table

/-! ### The functions -/

/-- What is written to the entry of page number `n`. -/
inductive PteEvent
  | map (n pa : Nat) (perm : Perm)
  | unmap (n pa : Nat)
  | clear (n : Nat)
  deriving DecidableEq

/-- `&pagetable[i]`. -/
def entryAddr (pagetable : Nat) (i : Fin 512) : Nat := pagetable + 8 * i

namespace Phys

/-- `*pte = w`. -/
def setEntry (s : Phys) (pte w : Nat) : Phys := { s with mem := s.mem.store64 pte w }

/-- The loop of `walk` from `level` on. -/
def walkLoop (va : Nat) (alloc : Bool) : Nat → Phys → Nat → Nat × Phys
  | 0, s, pagetable => (entryAddr pagetable (px 0 va), s)
  | level + 1, s, pagetable =>
    let pte := entryAddr pagetable (px (level + 1) va)
    if s.mem.load64 pte &&& pteV ≠ 0 then walkLoop va alloc level s (pte2pa (s.mem.load64 pte))
    else if !alloc then (0, s)
    else
      let (pagetable, s) := s.kalloc
      if pagetable = 0 then (0, s)
      else
        let s := { s with mem := s.mem.fill pagetable pgsize 0 }
        walkLoop va alloc level (s.setEntry pte (pa2pteWord pagetable ||| pteV)) pagetable

/-- The address of the entry for `va`; 0 if there is none. -/
def walk (s : Phys) (pagetable va : Nat) (alloc : Bool) : Except Stop (Nat × Phys) :=
  if maxva ≤ va then throw (.panic .walk) else pure (walkLoop va alloc 2 s pagetable)

def uvmcreate (s : Phys) : Nat × Phys :=
  let (pagetable, s) := s.kalloc
  if pagetable = 0 then (0, s) else (pagetable, { s with mem := s.mem.fill pagetable pgsize 0 })

/-- The loop of `mappages`; the last of its rounds is the one with `a == last`. -/
def mappagesLoop (pagetable : Nat) (perm : Perm) :
    Nat → Phys → Nat → Nat → Except Stop (List PteEvent × Bool × Phys)
  | 0, s, _, _ => pure ([], true, s)
  | n + 1, s, a, pa => do
    let (pte, s) ← s.walk pagetable a true
    if pte = 0 then pure ([], false, s)
    else if s.mem.load64 pte &&& pteV ≠ 0 then throw (.panic .mappagesRemap)
    else
      let s := s.setEntry pte (pa2pteWord pa ||| perm.bits ||| pteV)
      let (evs, done, s) ← mappagesLoop pagetable perm n s (a + pgsize) (u64 (pa + pgsize))
      pure (.map (a / pgsize) pa perm :: evs, done, s)

def mappages (s : Phys) (pagetable va size pa : Nat) (perm : Perm) : Except Stop (List PteEvent × Bool × Phys) :=
  if va % pgsize ≠ 0 then throw (.panic .mappagesVa)
  else if size % pgsize ≠ 0 then throw (.panic .mappagesSizeAlign)
  else if size = 0 then throw (.panic .mappagesSize)
  else mappagesLoop pagetable perm (size / pgsize) s va pa

def uvmunmapLoop (pagetable : Nat) (doFree : Bool) : Nat → Phys → Nat → Except Stop (List PteEvent × Phys)
  | 0, s, _ => pure ([], s)
  | n + 1, s, a => do
    let (pte, s) ← s.walk pagetable a false
    if pte = 0 then uvmunmapLoop pagetable doFree n s (a + pgsize)
    else if s.mem.load64 pte &&& pteV = 0 then uvmunmapLoop pagetable doFree n s (a + pgsize)
    else
      let pa := pte2pa (s.mem.load64 pte)
      let s := if doFree then s.kfree pa else s
      let (evs, s) ← uvmunmapLoop pagetable doFree n (s.setEntry pte 0) (a + pgsize)
      pure (.unmap (a / pgsize) pa :: evs, s)

def uvmunmap (s : Phys) (pagetable va npages : Nat) (doFree : Bool) : Except Stop (List PteEvent × Phys) :=
  if va % pgsize ≠ 0 then throw (.panic .uvmunmap)
  else uvmunmapLoop pagetable doFree (rounds va (u64 (va + u64 (npages * pgsize)))) s va

def uvmclear (s : Phys) (pagetable va : Nat) : Except Stop (List PteEvent × Phys) := do
  let (pte, s) ← s.walk pagetable va false
  if pte = 0 then throw (.panic .uvmclear)
  else pure ([.clear (va / pgsize)], s.setEntry pte (s.mem.load64 pte &&& (2 ^ 64 - 1 - pteU)))

/-- One round of the loop of `freewalk`, with `sub` for the call on the table below. -/
def freewalkEntry (sub : Phys → Nat → Except Stop (List Nat × Phys)) (pagetable : Nat) :
    List Nat × Phys → Fin 512 → Except Stop (List Nat × Phys)
  | (freed, s), i =>
    let pte := s.mem.load64 (entryAddr pagetable i)
    if pte &&& pteV ≠ 0 ∧ pte &&& pteRWX = 0 then do
      let (l, s) ← sub s (pte2pa pte)
      pure (freed ++ l, s.setEntry (entryAddr pagetable i) 0)
    else if pte &&& pteV ≠ 0 then throw (.panic .freewalkLeaf)
    else pure (freed, s)

/-- `freewalk`, which goes down at most `depth` levels, with the pages that it frees. -/
def freewalk : Nat → Phys → Nat → Except Stop (List Nat × Phys)
  | 0, _, _ => throw .wild
  | depth + 1, s, pagetable => do
    let (freed, s) ← (List.finRange 512).foldlM (freewalkEntry (freewalk depth) pagetable) ([], s)
    pure (freed ++ [pagetable], s.kfree pagetable)

/-- What `walk(.., 0)` finds for `va`: the physical page and the permissions of a valid entry. -/
def lookup (s : Phys) (pagetable va : Nat) : Option (Nat × Perm) :=
  match walkLoop va false 2 s pagetable with
  | (0, _) => none
  | (pte, s) =>
    if s.mem.load64 pte &&& pteV = 0 then none
    else some (pte2pa (s.mem.load64 pte), Perm.ofWord (s.mem.load64 pte))

end Phys

end FogOS.Kernel
