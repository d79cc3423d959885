import FogOS.Lib.Ring
import FogOS.Umalloc.Basic

/-!
# Heaps as lists of blocks

What the bytes of a heap stand for: the list of its blocks in address order and the list of the
free ones in free-list order. `head`, `tail` and `free_head` are read as the links of the null
node, so that both lists are rings through `0`.
-/

namespace FogOS.Umalloc

open ByteMem Ring

/-! ### The size word -/

lemma and_mask_eq (w : Nat) (hw : w < 2 ^ 64) : w &&& (2 ^ 64 - 2) = 2 * (w / 2) := by
  apply Nat.eq_of_testBit_eq
  intro i
  rw [Nat.testBit_and]
  cases i with
  | zero => simp
  | succ i =>
    rw [Nat.testBit_succ, Nat.testBit_succ, Nat.testBit_succ,
      show (2 ^ 64 - 2) / 2 = 2 ^ 63 - 1 by norm_num, Nat.testBit_two_pow_sub_one,
      show 2 * (w / 2) / 2 = w / 2 by omega]
    by_cases hi : i < 63
    · simp [hi]
    · have hbit : (w / 2).testBit i = false := by
        apply Nat.testBit_lt_two_pow
        calc w / 2 < 2 ^ 63 := by omega
          _ ≤ 2 ^ i := Nat.pow_le_pow_right (by omega) (by omega)
      simp [hi, hbit]

lemma or_one_eq (w : Nat) : w ||| 1 = 2 * (w / 2) + 1 := by
  apply Nat.eq_of_testBit_eq
  intro i
  rw [Nat.testBit_or]
  cases i with
  | zero => simp
  | succ i =>
    rw [Nat.testBit_succ, Nat.testBit_succ, Nat.testBit_succ,
      show (2 * (w / 2) + 1) / 2 = w / 2 by omega]
    simp

/-- A block of the heap: its address, its size with the header, and its free bit. -/
structure Block where
  addr : Nat
  size : Nat
  free : Bool
  deriving DecidableEq, Repr

/-- The size field of a block: the free bit is the lowest bit. -/
def Block.word (b : Block) : Nat := b.size + b.free.toNat

/-- A size that fits its field next to the free bit. -/
def Block.Fits (b : Block) : Prop := b.size % 2 = 0 ∧ b.size < 2 ^ 32

lemma Block.Fits.word_lt {b : Block} (h : b.Fits) : b.word < 2 ^ 64 := by
  have h1 := b.free.toNat_le
  have h2 := h.2
  unfold Block.word
  omega

/-! ### Fields, extended to the null node -/

/-- The 64-bit fields the allocator uses. -/
inductive Field where
  | size
  | next
  | prev
  | nextFree
  | prevFree
  deriving DecidableEq

def Field.off : Field → Nat
  | .size => 8
  | .next => 16
  | .prev => 24
  | .nextFree => 32
  | .prevFree => 40

/-- The fields of the null node that stand for a variable: `head`, `tail` and `free_head`. -/
def Field.HasRoot (f : Field) : Prop := f = .next ∨ f = .prev ∨ f = .nextFree

lemma Field.off_le (f : Field) : 8 ≤ f.off ∧ f.off ≤ 40 := by
  cases f <;> simp [Field.off]

lemma Field.off_ne {f g : Field} (h : g ≠ f) : g.off + 8 ≤ f.off ∨ f.off + 8 ≤ g.off := by
  cases f <;> cases g <;> simp_all [Field.off]

namespace State

/-- The variable that the field of the null node stands for. -/
def root (s : State) : Field → Nat
  | .next => s.head
  | .prev => s.tail
  | .nextFree => s.freeHead
  | _ => 0

def setRoot (s : State) (f : Field) (v : Nat) : State :=
  match f with
  | .next => { s with head := v }
  | .prev => { s with tail := v }
  | .nextFree => { s with freeHead := v }
  | _ => s

def field (s : State) (f : Field) (x : Nat) : Nat := if x = 0 then s.root f else s.get x f.off

def store (s : State) (f : Field) (x v : Nat) : State :=
  if x = 0 then s.setRoot f v else s.put x f.off v

variable {s : State} {a v : Nat}

lemma sizeField_eq (ha : a ≠ 0) : s.sizeField a = s.field .size a := (if_neg ha).symm
lemma nextBlock_eq (ha : a ≠ 0) : s.nextBlock a = s.field .next a := (if_neg ha).symm
lemma prevBlock_eq (ha : a ≠ 0) : s.prevBlock a = s.field .prev a := (if_neg ha).symm
lemma nextFree_eq (ha : a ≠ 0) : s.nextFree a = s.field .nextFree a := (if_neg ha).symm
lemma prevFree_eq (ha : a ≠ 0) : s.prevFree a = s.field .prevFree a := (if_neg ha).symm

lemma putSize_eq (ha : a ≠ 0) : s.putSize a v = s.store .size a v := (if_neg ha).symm
lemma putNextBlock_eq (ha : a ≠ 0) : s.putNextBlock a v = s.store .next a v := (if_neg ha).symm
lemma putPrevBlock_eq (ha : a ≠ 0) : s.putPrevBlock a v = s.store .prev a v := (if_neg ha).symm
lemma putNextFree_eq (ha : a ≠ 0) : s.putNextFree a v = s.store .nextFree a v := (if_neg ha).symm
lemma putPrevFree_eq (ha : a ≠ 0) : s.putPrevFree a v = s.store .prevFree a v := (if_neg ha).symm

end State

/-- Two nodes whose headers and free-list nodes do not overlap, or one node twice. -/
def Apart (a b : Nat) : Prop := a = 0 ∨ b = 0 ∨ a = b ∨ a + 48 ≤ b ∨ b + 48 ≤ a

variable {s : State} {f g : Field} {a b v : Nat}

/-- A stored field is read back, and no other field changes. -/
lemma State.field_store (hab : Apart a b) (hv : v < 2 ^ 64) (hf : a ≠ 0 ∨ f.HasRoot) :
    (s.store f a v).field g b = if g = f ∧ b = a then v else s.field g b := by
  by_cases ha : a = 0
  · subst ha
    have hroot : f.HasRoot := by simpa using hf
    by_cases hb : b = 0
    · subst hb
      rcases hroot with rfl | rfl | rfl <;> cases g <;> simp [store, field, setRoot, root]
    · rcases hroot with rfl | rfl | rfl <;> simp [store, field, setRoot, hb, get]
  · by_cases hb : b = 0
    · subst hb
      have hne : (0 : Nat) ≠ a := fun h => ha h.symm
      cases g <;> simp [store, field, root, ha, put, hne]
    · simp only [store, field, ha, hb, if_false, get, put]
      have hoff := f.off_le
      have hoff' := g.off_le
      by_cases hab' : b = a
      · subst hab'
        by_cases hgf : g = f
        · subst hgf
          simp [Mem.load64_store64_same _ _ _ hv]
        · have h1 := Field.off_ne hgf
          rw [Mem.load64_store64_ne _ _ _ _ (by omega)]
          simp [hgf]
      · have h1 : a + 48 ≤ b ∨ b + 48 ≤ a := by
          rcases hab with h | h | h | h <;> simp_all
        rw [Mem.load64_store64_ne _ _ _ _ (by omega)]
        simp [hab']

lemma State.field_store_same (hv : v < 2 ^ 64) (hf : a ≠ 0 ∨ f.HasRoot) :
    (s.store f a v).field f a = v := by
  rw [State.field_store (by simp [Apart]) hv hf]
  simp

lemma State.field_lt (s : State) (f : Field) (ha : a ≠ 0) : s.field f a < 2 ^ 64 := by
  simp only [field, ha, if_false, get]
  exact Mem.load64_lt _ _

@[simp] lemma State.store_brk : (s.store f a v).brk = s.brk := by
  unfold store setRoot put
  split
  · cases f <;> rfl
  · rfl

@[simp] lemma State.store_currentFsm : (s.store f a v).currentFsm = s.currentFsm := by
  unfold store setRoot put
  split
  · cases f <;> rfl
  · rfl

/-- The bytes that the allocator owns: the headers of `as` and the free-list nodes of `fs`. -/
def Meta (as fs : List Nat) (x : Nat) : Prop :=
  (∃ a ∈ as, a ≤ x ∧ x < a + 32) ∨ ∃ a ∈ fs, a + 32 ≤ x ∧ x < a + 48

lemma Meta.mono {as fs as' fs' : List Nat} {x : Nat} (h : Meta as fs x) (h1 : ∀ a ∈ as, a ∈ as')
    (h2 : ∀ a ∈ fs, a ∈ fs') : Meta as' fs' x := by
  rcases h with ⟨a, ha, hx⟩ | ⟨a, ha, hx⟩
  · exact Or.inl ⟨a, h1 a ha, hx⟩
  · exact Or.inr ⟨a, h2 a ha, hx⟩

/-- The fields of a header, as opposed to those of a free-list node. -/
def Field.InHeader (f : Field) : Prop := f = .size ∨ f = .next ∨ f = .prev

lemma Field.eq_of_not_inHeader (f : Field) (hf : ¬ f.InHeader) : f = .nextFree ∨ f = .prevFree := by
  cases f <;> simp_all [Field.InHeader]

lemma State.store_frame_header {as fs : List Nat} (ha : a = 0 ∨ a ∈ as) (hf : f.InHeader) :
    Mem.Frame (Meta as fs) s.mem (s.store f a v).mem := by
  by_cases h0 : a = 0
  · subst h0
    rcases hf with rfl | rfl | rfl <;> exact Mem.Frame.refl _ _
  · simp only [store, h0, if_false, put]
    apply Mem.Frame.store64
    intro x hx hx'
    refine Or.inl ⟨a, ha.resolve_left h0, ?_⟩
    rcases hf with rfl | rfl | rfl <;> simp only [Field.off] at hx hx' <;> omega

lemma State.store_frame_node {as fs : List Nat} (ha : a = 0 ∨ a ∈ fs) (hf : ¬ f.InHeader) :
    Mem.Frame (Meta as fs) s.mem (s.store f a v).mem := by
  have hf' := f.eq_of_not_inHeader hf
  by_cases h0 : a = 0
  · subst h0
    rcases hf' with rfl | rfl <;> exact Mem.Frame.refl _ _
  · simp only [store, h0, if_false, put]
    apply Mem.Frame.store64
    intro x hx hx'
    refine Or.inr ⟨a, ha.resolve_left h0, ?_⟩
    rcases hf' with rfl | rfl <;> simp only [Field.off] at hx hx' <;> omega

/-! ### The representation -/

/-- The back link of the free list; the null node is given the last node, which no variable
holds. -/
def State.freePrev (s : State) (fs : List Nat) (x : Nat) : Nat :=
  if x = 0 then fs.getLastD 0 else s.field .prevFree x

/-- The heap in `s` consists of the blocks `bs`, and its free list holds the nodes `fs`. -/
structure Rep (s : State) (bs : List Block) (fs : List Nat) : Prop where
  ring : IsRing (s.field .next) (s.field .prev) 0 (bs.map Block.addr)
  freeRing : IsRing (s.field .nextFree) (s.freePrev fs) 0 fs
  header : ∀ b ∈ bs, s.field .size b.addr = b.word
  fits : ∀ b ∈ bs, b.Fits
  spaced : bs.Pairwise fun b c => b.addr + 48 ≤ c.addr
  addr : ∀ b ∈ bs, 0 < b.addr ∧ b.addr < 2 ^ 63
  nodup : fs.Nodup
  sub : ∀ a ∈ fs, a ∈ bs.map Block.addr

namespace Rep

variable {bs l r : List Block} {fs : List Nat} {c : Block}

lemma apart_of_spaced (h : bs.Pairwise fun b c => b.addr + 48 ≤ c.addr)
    (ha : a ∈ 0 :: bs.map Block.addr) (hb : b ∈ 0 :: bs.map Block.addr) : Apart a b := by
  simp only [List.mem_cons, List.mem_map] at ha hb
  rcases ha with rfl | ⟨x, hx, rfl⟩
  · exact Or.inl rfl
  rcases hb with rfl | ⟨y, hy, rfl⟩
  · exact Or.inr (Or.inl rfl)
  obtain ⟨i, hi, rfl⟩ := List.mem_iff_getElem.mp hx
  obtain ⟨j, hj, rfl⟩ := List.mem_iff_getElem.mp hy
  rw [List.pairwise_iff_getElem] at h
  rcases lt_trichotomy i j with hij | rfl | hij
  · have := h i j hi hj hij
    unfold Apart; omega
  · unfold Apart; omega
  · have := h j i hj hi hij
    unfold Apart; omega

lemma apart (h : Rep s bs fs) (ha : a ∈ 0 :: bs.map Block.addr)
    (hb : b ∈ 0 :: bs.map Block.addr) : Apart a b :=
  apart_of_spaced h.spaced ha hb

lemma nodup_of_spaced (h : bs.Pairwise fun b c => b.addr + 48 ≤ c.addr)
    (h0 : ∀ b ∈ bs, 0 < b.addr) : (0 :: bs.map Block.addr).Nodup := by
  rw [List.nodup_cons]
  constructor
  · intro hm
    obtain ⟨b, hb, h0b⟩ := List.mem_map.mp hm
    have := h0 b hb
    omega
  · rw [List.Nodup, List.pairwise_map]
    exact h.imp fun hbc heq => by omega

lemma nodup_addr (h : Rep s bs fs) : (0 :: bs.map Block.addr).Nodup :=
  nodup_of_spaced h.spaced fun b hb => (h.addr b hb).1

lemma nodup_free (h : Rep s bs fs) : (0 :: fs).Nodup := by
  rw [List.nodup_cons]
  refine ⟨fun hm => ?_, h.nodup⟩
  exact (List.nodup_cons.mp h.nodup_addr).1 (h.sub 0 hm)

lemma mem_addr (h : Rep s bs fs) (ha : a ∈ 0 :: fs) : a ∈ 0 :: bs.map Block.addr := by
  rcases List.mem_cons.mp ha with rfl | ha
  · simp
  · exact List.mem_cons_of_mem _ (h.sub a ha)

lemma addr_lt (h : Rep s bs fs) (ha : a ∈ 0 :: bs.map Block.addr) : a < 2 ^ 64 := by
  rcases List.mem_cons.mp ha with rfl | ha
  · norm_num
  · obtain ⟨b, hb, rfl⟩ := List.mem_map.mp ha
    have := (h.addr b hb).2
    omega

lemma ne_zero (h : Rep s bs fs) (hc : c ∈ bs) : c.addr ≠ 0 := by
  have := (h.addr c hc).1
  omega

/-- What a store to a node of the heap changes, at the nodes of the heap. -/
lemma field_store (h : Rep s bs fs) (ha : a ∈ 0 :: bs.map Block.addr)
    (hb : b ∈ 0 :: bs.map Block.addr) (hv : v < 2 ^ 64) (hf : a ≠ 0 ∨ f.HasRoot) :
    (s.store f a v).field g b = if g = f ∧ b = a then v else s.field g b :=
  State.field_store (h.apart ha hb) hv hf

/-- The representation depends only on the fields of the nodes. -/
lemma congr {s' : State} (h : Rep s bs fs)
    (hf : ∀ f, ∀ x ∈ 0 :: bs.map Block.addr, s'.field f x = s.field f x) : Rep s' bs fs where
  ring := h.ring.congr (hf _) (hf _)
  freeRing := by
    refine h.freeRing.congr (fun x hx => hf _ x (h.mem_addr hx)) fun x hx => ?_
    unfold State.freePrev
    rw [hf _ x (h.mem_addr hx)]
  header b hb := by rw [hf _ _ (List.mem_cons_of_mem _ (List.mem_map_of_mem hb)), h.header b hb]
  fits := h.fits
  spaced := h.spaced
  addr := h.addr
  nodup := h.nodup
  sub := h.sub

/-! ### Reading a header -/

lemma sizeField_eq (h : Rep s bs fs) (hc : c ∈ bs) : s.sizeField c.addr = c.word := by
  rw [State.sizeField_eq (h.ne_zero hc), h.header c hc]

lemma isFree_eq (h : Rep s bs fs) (hc : c ∈ bs) : s.isFree c.addr = c.free := by
  have hfit := (h.fits c hc).1
  unfold State.isFree
  rw [h.sizeField_eq hc, Nat.and_one_is_mod, Block.word]
  cases hfree : c.free <;> simp <;> omega

lemma getSize_eq (h : Rep s bs fs) (hc : c ∈ bs) : s.getSize c.addr = c.size := by
  have hfit := h.fits c hc
  unfold State.getSize u32
  rw [h.sizeField_eq hc, and_mask_eq _ hfit.word_lt, Block.word]
  obtain ⟨he, hlt⟩ := hfit
  cases hfree : c.free
  · simp only [Bool.toNat_false]; omega
  · simp only [Bool.toNat_true]; omega

lemma nextBlock_eq (h : Rep s (l ++ c :: r) fs) :
    s.nextBlock c.addr = (r.map Block.addr).headD 0 := by
  have h1 := h.ring
  rw [List.map_append, List.map_cons] at h1
  rw [State.nextBlock_eq (h.ne_zero (c := c) (by simp)), h1.nx_eq]

lemma prevBlock_eq (h : Rep s (l ++ c :: r) fs) :
    s.prevBlock c.addr = (l.map Block.addr).getLastD 0 := by
  have h1 := h.ring
  rw [List.map_append, List.map_cons] at h1
  rw [State.prevBlock_eq (h.ne_zero (c := c) (by simp)), h1.pv_eq]

lemma head_eq (h : Rep s bs fs) : s.head = (bs.map Block.addr).headD 0 := h.ring.nx_nil

lemma tail_eq (h : Rep s bs fs) : s.tail = (bs.map Block.addr).getLastD 0 := h.ring.pv_nil

lemma freeHead_eq (h : Rep s bs fs) : s.freeHead = fs.headD 0 := h.freeRing.nx_nil

lemma ne_zero_of_free (h : Rep s bs fs) (ha : a ∈ fs) : a ≠ 0 := by
  rintro rfl
  exact (List.nodup_cons.mp h.nodup_free).1 ha

lemma nextFree_eq {fl fr : List Nat} (h : Rep s bs (fl ++ a :: fr)) :
    s.nextFree a = fr.headD 0 := by
  rw [State.nextFree_eq (h.ne_zero_of_free (by simp)), h.freeRing.nx_eq]

lemma prevFree_eq {fl fr : List Nat} (h : Rep s bs (fl ++ a :: fr)) :
    s.prevFree a = fl.getLastD 0 := by
  have h0 := h.ne_zero_of_free (a := a) (by simp)
  have h1 := h.freeRing.pv_eq
  rw [State.freePrev, if_neg h0] at h1
  rw [State.prevFree_eq h0, h1]

/-! ### Writing a header -/

/-- Overwriting the size word of a block changes that block only. -/
lemma store_size {c' : Block} (h : Rep s (l ++ c :: r) fs) (ha : c'.addr = c.addr)
    (hfit : c'.Fits) : Rep (s.store .size c.addr c'.word) (l ++ c' :: r) fs := by
  have hc : c ∈ l ++ c :: r := by simp
  have hmap : (l ++ c' :: r).map Block.addr = (l ++ c :: r).map Block.addr := by simp [ha]
  have hfs : ∀ g, ∀ x ∈ 0 :: (l ++ c :: r).map Block.addr,
      (s.store .size c.addr c'.word).field g x =
        if g = .size ∧ x = c.addr then c'.word else s.field g x := fun g x hx =>
    h.field_store (List.mem_cons_of_mem _ (List.mem_map_of_mem hc)) hx hfit.word_lt
      (Or.inl (h.ne_zero hc))
  refine ⟨?_, ?_, ?_, ?_, ?_, ?_, h.nodup, ?_⟩
  · rw [hmap]
    refine h.ring.congr (fun x hx => ?_) fun x hx => ?_
    · rw [hfs _ x hx]; simp
    · rw [hfs _ x hx]; simp
  · refine h.freeRing.congr (fun x hx => ?_) fun x hx => ?_
    · rw [hfs _ x (h.mem_addr hx)]; simp
    · unfold State.freePrev
      rw [hfs _ x (h.mem_addr hx)]; simp
  · intro b hb
    have hbm : b.addr ∈ 0 :: (l ++ c :: r).map Block.addr := by
      rw [← hmap]
      exact List.mem_cons_of_mem _ (List.mem_map_of_mem hb)
    rw [hfs _ _ hbm]
    simp only [List.mem_append, List.mem_cons] at hb
    by_cases hbc : b.addr = c.addr
    · have hbc' : b = c' := by
        rcases hb with hb | rfl | hb
        · have := List.pairwise_append.mp h.spaced
          have := this.2.2 b hb c (by simp)
          omega
        · rfl
        · have := (List.pairwise_cons.mp (List.pairwise_append.mp h.spaced).2.1).1 b hb
          omega
      simp [hbc']; intro hne; exact absurd ha hne
    · have hbm' : b ∈ l ++ c :: r := by
        rcases hb with hb | rfl | hb
        · simp [hb]
        · exact absurd ha hbc
        · simp [hb]
      simp [hbc, h.header b hbm']
  · intro b hb
    simp only [List.mem_append, List.mem_cons] at hb
    rcases hb with hb | rfl | hb
    · exact h.fits b (by simp [hb])
    · exact hfit
    · exact h.fits b (by simp [hb])
  · have h1 := h.spaced
    rw [List.pairwise_append, List.pairwise_cons] at h1 ⊢
    refine ⟨h1.1, ⟨fun x hx => ?_, h1.2.1.2⟩, fun x hx y hy => ?_⟩
    · rw [ha]; exact h1.2.1.1 x hx
    · rcases List.mem_cons.mp hy with rfl | hy
      · rw [ha]; exact h1.2.2 x hx c (by simp)
      · exact h1.2.2 x hx y (by simp [hy])
  · intro b hb
    simp only [List.mem_append, List.mem_cons] at hb
    rcases hb with hb | rfl | hb
    · exact h.addr b (by simp [hb])
    · rw [ha]; exact h.addr c hc
    · exact h.addr b (by simp [hb])
  · rw [hmap]; exact h.sub

end Rep

end FogOS.Umalloc
