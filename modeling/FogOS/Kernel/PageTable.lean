import FogOS.Kernel.Kalloc
import Mathlib.Algebra.BigOperators.Fin
import Mathlib.Algebra.Order.BigOperators.Group.Multiset

/-!
# Page tables

The three-level Sv39 tables of `kernel/vm.c`. A table is kept as a tree: each page-table page has
its physical address, as the allocator knows it, and its 512 entries. An entry of the two upper
levels is the table it points to; an entry of the lowest level is a leaf. `none` is an entry
without `PTE_V`.
-/

namespace FogOS.Kernel

open ByteMem Ledger

/-- `PTE_R`, `PTE_W`, `PTE_X` and `PTE_U`. -/
structure Perm where
  r : Bool
  w : Bool
  x : Bool
  u : Bool
  deriving DecidableEq

/-- A valid leaf entry: physical page number and permissions. -/
structure Pte where
  ppn : Nat
  perm : Perm
  deriving DecidableEq

/-- `PTE2PA`. -/
def Pte.pa (q : Pte) : Nat := q.ppn * pgsize

/-- `PA2PTE(pa) | perm | PTE_V`. -/
def pa2pte (pa : Nat) (perm : Perm) : Pte := ⟨pa / pgsize, perm⟩

lemma pa_pa2pte {pa : Nat} (h : pgsize ∣ pa) (perm : Perm) : (pa2pte pa perm).pa = pa :=
  Nat.div_mul_cancel h

/-- A page-table page. -/
structure Table (α : Type) where
  addr : Nat
  entry : Fin 512 → Option α

/-- A user page table. -/
abbrev Pagetable : Type := Table (Table (Table Pte))

variable {α : Type}

namespace Table

/-- A page-table page filled with zeros. -/
def zero (addr : Nat) : Table α := ⟨addr, fun _ => none⟩

/-- Assignment to an entry. -/
def set (t : Table α) (i : Fin 512) (v : Option α) : Table α :=
  { t with entry := Function.update t.entry i v }

/-- One round of the loop of `walk`: the table an entry points to, a new one if there is none
and `alloc` is set. -/
def next (k : Kmem) (t : Table (Table α)) (i : Fin 512) (alloc : Bool) :
    Option (Table α × Kmem) :=
  match t.entry i with
  | some c => some (c, k)
  | none =>
    if !alloc then none
    else match k.kalloc with
      | (none, _) => none
      | (some pa, k) => some (zero pa, k.fill pa 0)

/-- `freewalk` on one page-table page, with `f` for what its entries point to. -/
def free (f : Kmem → α → Except Stop Kmem) (k : Kmem) (t : Table α) : Except Stop Kmem := do
  let k ← (List.finRange 512).foldlM (fun k i => (t.entry i).elim (pure k) (f k)) k
  pure (k.kfree t.addr)

end Table

/-- `PX(level, va)`. -/
def px (level va : Nat) : Fin 512 := ⟨va / 2 ^ (12 + 9 * level) % 512, Nat.mod_lt _ (by decide)⟩

namespace Pagetable

/-- The entry for `va`, once `walk` has reached its table. -/
def pte (pt : Pagetable) (va : Nat) : Option Pte :=
  (pt.entry (px 2 va)).bind fun t1 => (t1.entry (px 1 va)).bind fun t0 => t0.entry (px 0 va)

/-- Assignment to the entry for `va`. -/
def setPte (pt : Pagetable) (va : Nat) (v : Option Pte) : Pagetable :=
  match pt.entry (px 2 va) with
  | none => pt
  | some t1 =>
    match t1.entry (px 1 va) with
    | none => pt
    | some t0 => pt.set (px 2 va) (some (t1.set (px 1 va) (some (t0.set (px 0 va) v))))

end Pagetable

/-- Is there an entry for `va`? With `alloc`, the page-table pages on the way to it are created;
those created before memory ran out stay. -/
def walk (k : Kmem) (pt : Pagetable) (va : Nat) (alloc : Bool) :
    Except Stop (Bool × Kmem × Pagetable) :=
  if maxva ≤ va then throw (.panic .walk)
  else match pt.next k (px 2 va) alloc with
    | none => pure (false, k, pt)
    | some (t1, k1) =>
      match t1.next k1 (px 1 va) alloc with
      | none => pure (false, k1, pt.set (px 2 va) (some t1))
      | some (t0, k2) => pure (true, k2, pt.set (px 2 va) (some (t1.set (px 1 va) (some t0))))

/-- `freewalk` meets a leaf. An entry without permissions would be taken for a table. -/
def freewalkLeaf (_ : Kmem) (q : Pte) : Except Stop Kmem :=
  if q.perm.r || q.perm.w || q.perm.x then throw (.panic .freewalkLeaf) else throw .wild

/-- Free page-table pages. All leaf mappings must already have been removed. -/
def freewalk (k : Kmem) (pt : Pagetable) : Except Stop Kmem :=
  Table.free (Table.free (Table.free freewalkLeaf)) k pt

/-! ### The page-table pages -/

namespace Table

/-- The pages a table consists of, where `f` gives those of what the entries point to. -/
def nodes (f : α → Multiset Nat) (t : Table α) : Multiset Nat :=
  {t.addr} + ∑ i, (t.entry i).elim 0 f

lemma nodes_zero (f : α → Multiset Nat) (addr : Nat) : (zero addr : Table α).nodes f = {addr} := by
  simp [nodes, zero]

@[simp] lemma set_entry_self (t : Table α) (i : Fin 512) : t.set i (t.entry i) = t := by
  simp [set]

@[simp] lemma set_set (t : Table α) (i : Fin 512) (v w : Option α) :
    (t.set i v).set i w = t.set i w := by
  simp [set]

@[simp] lemma set_entry (t : Table α) (i : Fin 512) (v : Option α) : (t.set i v).entry i = v := by
  simp [set]

lemma set_entry_of_ne (t : Table α) {i j : Fin 512} (h : j ≠ i) (v : Option α) :
    (t.set i v).entry j = t.entry j := by
  simp [set, Function.update_of_ne h]

/-- The pages of a table are those below one entry and others. -/
lemma exists_nodes_set (f : α → Multiset Nat) (t : Table α) (i : Fin 512) :
    ∃ rest, ∀ v, (t.set i v).nodes f = v.elim 0 f + rest := by
  refine ⟨{t.addr} + ∑ j ∈ Finset.univ.erase i, (t.entry j).elim 0 f, fun v => ?_⟩
  have hothers : ∑ j ∈ Finset.univ.erase i, ((t.set i v).entry j).elim 0 f =
      ∑ j ∈ Finset.univ.erase i, (t.entry j).elim 0 f := by
    refine Finset.sum_congr rfl fun j hj => ?_
    rw [set_entry_of_ne t (Finset.ne_of_mem_erase hj)]
  rw [nodes, ← Finset.add_sum_erase _ _ (Finset.mem_univ i), hothers, set_entry]
  exact add_left_comm _ _ _

/-- The entries of the list, one after the other. -/
lemma free_entries {f : Kmem → α → Except Stop Kmem} {g : α → Multiset Nat} {V : Arena}
    (hf : ∀ c k k', f k c = .ok k' → k.Trades V k' (g c) 0) (t : Table α) (l : List (Fin 512))
    {k k' : Kmem} (h : l.foldlM (fun k i => (t.entry i).elim (pure k) (f k)) k = .ok k') :
    k.Trades V k' (l.map fun i => (t.entry i).elim 0 g).sum 0 := by
  induction l generalizing k with
  | nil =>
    obtain rfl := pure_ok h
    exact Trade.refl _ _ _
  | cons i l ih =>
    rw [List.foldlM_cons] at h
    obtain ⟨k1, h1, h2⟩ := bind_ok h
    rw [List.map_cons, List.sum_cons]
    cases hi : t.entry i with
    | none =>
      rw [hi] at h1
      obtain rfl := pure_ok h1
      rw [Option.elim_none, zero_add]
      exact ih h2
    | some c =>
      rw [hi] at h1
      have hc := (hf c k k1 h1).frame (l.map fun i => (t.entry i).elim 0 g).sum
      rw [zero_add] at hc
      exact hc.trans (ih h2)

/-- A table that is freed gives back the pages it consists of. -/
lemma trades_free {f : Kmem → α → Except Stop Kmem} {g : α → Multiset Nat} {V : Arena}
    (hf : ∀ c k k', f k c = .ok k' → k.Trades V k' (g c) 0) (t : Table α)
    {k k' : Kmem} (h : Table.free f k t = .ok k') : k.Trades V k' (t.nodes g) 0 := by
  obtain ⟨k1, h1, h2⟩ := bind_ok h
  obtain rfl := pure_ok h2
  have hentries := (free_entries hf t _ h1).frame_left {t.addr}
  rw [← Fin.sum_univ_def, add_zero] at hentries
  exact hentries.trans (Kmem.trades_kfree V k1 t.addr)

/-- Freeing a table means freeing what each entry points to. -/
lemma free_entry_ok {f : Kmem → α → Except Stop Kmem} {t : Table α} {i : Fin 512} {c : α}
    (hi : t.entry i = some c) {l : List (Fin 512)} (hmem : i ∈ l) {k k' : Kmem}
    (h : l.foldlM (fun k i => (t.entry i).elim (pure k) (f k)) k = .ok k') :
    ∃ k k', f k c = .ok k' := by
  induction l generalizing k with
  | nil => cases hmem
  | cons j l ih =>
    rw [List.foldlM_cons] at h
    obtain ⟨k1, h1, h2⟩ := bind_ok h
    rcases List.mem_cons.mp hmem with rfl | hmem
    · rw [hi] at h1
      exact ⟨k, k1, h1⟩
    · exact ih hmem h2

lemma free_ok {f : Kmem → α → Except Stop Kmem} {t : Table α} {k k' : Kmem}
    (h : Table.free f k t = .ok k') {i : Fin 512} {c : α} (hi : t.entry i = some c) :
    ∃ k k', f k c = .ok k' := by
  obtain ⟨k1, h1, -⟩ := bind_ok h
  exact free_entry_ok hi (List.mem_finRange i) h1

/-- The entries of the list can be freed when everything they point to can. -/
lemma free_entries_total {f : Kmem → α → Except Stop Kmem} {t : Table α}
    (h : ∀ i c, t.entry i = some c → ∀ k, ∃ k', f k c = .ok k') (l : List (Fin 512)) (k : Kmem) :
    ∃ k', l.foldlM (fun k i => (t.entry i).elim (pure k) (f k)) k = .ok k' := by
  induction l generalizing k with
  | nil => exact ⟨k, rfl⟩
  | cons i l ih =>
    rw [List.foldlM_cons]
    cases hi : t.entry i with
    | none => exact ih k
    | some c =>
      obtain ⟨k1, h1⟩ := h i c hi k
      obtain ⟨k2, h2⟩ := ih k1
      refine ⟨k2, ?_⟩
      rw [Option.elim_some, h1]
      exact h2

lemma free_total {f : Kmem → α → Except Stop Kmem} {t : Table α}
    (h : ∀ i c, t.entry i = some c → ∀ k, ∃ k', f k c = .ok k') (k : Kmem) :
    ∃ k', Table.free f k t = .ok k' := by
  obtain ⟨k1, h1⟩ := free_entries_total h (List.finRange 512) k
  refine ⟨k1.kfree t.addr, ?_⟩
  rw [Table.free, h1]
  rfl

/-- The table found by `next`, if it is not new, is that of the entry. -/
lemma next_some {k k' : Kmem} {t : Table (Table α)} {i : Fin 512} {alloc : Bool} {c : Table α}
    (h : t.next k i alloc = some (c, k')) :
    (t.entry i = some c ∧ k' = k) ∨
      (t.entry i = none ∧ alloc = true ∧
        ∃ pa k1, k.kalloc = (some pa, k1) ∧ c = zero pa ∧ k' = k1.fill pa 0) := by
  unfold next at h
  split at h
  · next d hd =>
    obtain ⟨rfl, rfl⟩ : d = c ∧ k = k' := by simpa using h
    exact Or.inl ⟨hd, rfl⟩
  · next hnone =>
    split at h
    · cases h
    · next halloc =>
      split at h
      · cases h
      · next pa k1 hk =>
        obtain ⟨rfl, rfl⟩ : zero pa = c ∧ k1.fill pa 0 = k' := by simpa using h
        exact Or.inr ⟨hnone, by simpa using halloc, pa, k1, hk, rfl, rfl⟩

lemma trades_next {V : Arena} (f : α → Multiset Nat) {k k' : Kmem} {t : Table (Table α)}
    {i : Fin 512} {alloc : Bool} {c : Table α} (h : t.next k i alloc = some (c, k')) :
    k.Trades V k' (t.nodes (nodes f)) ((t.set i (some c)).nodes (nodes f)) := by
  rcases next_some h with ⟨hc, rfl⟩ | ⟨hnone, -, pa, k1, hk, rfl, rfl⟩
  · rw [← hc, set_entry_self]
    exact Trade.refl _ _ _
  · obtain ⟨rest, hrest⟩ := exists_nodes_set (nodes f) t i
    have hold := hrest none
    rw [← hnone, set_entry_self, hnone, Option.elim_none, zero_add] at hold
    rw [hold, hrest, Option.elim_some, nodes_zero]
    exact Kmem.trades_take hk _ _

end Table

/-! ### The map a page table stands for -/

namespace Pagetable

/-- The pages a page table consists of. -/
def nodes (pt : Pagetable) : Multiset Nat :=
  Table.nodes (Table.nodes (Table.nodes fun _ => 0)) pt

/-- The leaf of page number `n`, over the whole range the three levels span. -/
def leaf (pt : Pagetable) (n : Nat) : Option Pte :=
  if n < 2 ^ 27 then pt.pte (n * pgsize) else none

/-- The lowest table for `va` is there. -/
def Reaches (pt : Pagetable) (va : Nat) : Prop :=
  ((pt.entry (px 2 va)).bind fun t1 => t1.entry (px 1 va)).isSome

/-- Every entry of the lowest level is the leaf of some page. -/
lemma exists_page (i2 i1 i0 : Fin 512) : ∃ n < 2 ^ 27,
    px 2 (n * pgsize) = i2 ∧ px 1 (n * pgsize) = i1 ∧ px 0 (n * pgsize) = i0 := by
  have h2 := i2.isLt
  have h1 := i1.isLt
  have h0 := i0.isLt
  refine ⟨i2 * 2 ^ 18 + i1 * 2 ^ 9 + i0, by omega, ?_, ?_, ?_⟩
  all_goals
    apply Fin.ext
    simp only [px, pgsize]
    omega

/-- Two pages with the same indices are the same page. -/
lemma page_eq {n m : Nat} (hn : n < 2 ^ 27) (hm : m < 2 ^ 27)
    (h2 : px 2 (n * pgsize) = px 2 (m * pgsize)) (h1 : px 1 (n * pgsize) = px 1 (m * pgsize))
    (h0 : px 0 (n * pgsize) = px 0 (m * pgsize)) : n = m := by
  simp only [px, pgsize, Fin.mk.injEq] at h2 h1 h0
  omega

/-- The table of an address depends on its page only. -/
lemma pte_of_va (pt : Pagetable) {va : Nat} (h : va < maxva) : pt.pte va = pt.leaf (va / pgsize) := by
  have hlt : va / pgsize < 2 ^ 27 := by
    simp only [maxva, pgsize] at *
    omega
  have hpx : ∀ level ≤ 2, px level va = px level (va / pgsize * pgsize) := by
    intro level hl
    apply Fin.ext
    interval_cases level <;> simp only [px, pgsize] <;> omega
  rw [leaf, if_pos hlt, pte, pte, hpx 0 (by omega), hpx 1 (by omega), hpx 2 (by omega)]

variable {pt pt' : Pagetable} {va n : Nat} {v : Option Pte}

lemma reaches_of_leaf {q : Pte} (h : pt.pte va = some q) : pt.Reaches va := by
  unfold pte at h
  obtain ⟨t1, h1, h⟩ := Option.bind_eq_some_iff.mp h
  obtain ⟨t0, h0, -⟩ := Option.bind_eq_some_iff.mp h
  simp [Reaches, h1, h0]

lemma setPte_eq {t1 : Table (Table Pte)} {t0 : Table Pte} (h1 : pt.entry (px 2 va) = some t1)
    (h0 : t1.entry (px 1 va) = some t0) (v : Option Pte) :
    pt.setPte va v =
      pt.set (px 2 va) (some (t1.set (px 1 va) (some (t0.set (px 0 va) v)))) := by
  simp only [setPte, h1, h0]

lemma Reaches.tables (h : pt.Reaches va) :
    ∃ t1 t0, pt.entry (px 2 va) = some t1 ∧ t1.entry (px 1 va) = some t0 := by
  obtain ⟨t0, h⟩ := Option.isSome_iff_exists.mp h
  obtain ⟨t1, h1, h0⟩ := Option.bind_eq_some_iff.mp h
  exact ⟨t1, t0, h1, h0⟩

/-- Below the entry that is set, nothing but the entry changes. -/
lemma leaf_setPte (h : pt.Reaches (n * pgsize)) (hn : n < 2 ^ 27) (v : Option Pte) :
    (pt.setPte (n * pgsize) v).leaf = Function.update pt.leaf n v := by
  obtain ⟨t1, t0, h1, h0⟩ := h.tables
  funext m
  by_cases hm : m < 2 ^ 27
  · rw [setPte_eq h1 h0, leaf, if_pos hm, pte]
    by_cases hnm : m = n
    · subst hnm
      simp
    rw [Function.update_of_ne hnm, leaf, if_pos hm, pte]
    -- the first index at which the two pages differ decides
    by_cases h2 : px 2 (m * pgsize) = px 2 (n * pgsize)
    · rw [h2, Table.set_entry, h1, Option.bind_some, Option.bind_some]
      by_cases h3 : px 1 (m * pgsize) = px 1 (n * pgsize)
      · rw [h3, Table.set_entry, h0, Option.bind_some, Option.bind_some]
        refine Table.set_entry_of_ne t0 (fun h4 => hnm ?_) v
        exact page_eq hm hn h2 h3 h4
      · rw [Table.set_entry_of_ne t1 h3]
    · rw [Table.set_entry_of_ne pt h2]
  · rw [leaf, if_neg hm, Function.update_of_ne (by omega), leaf, if_neg hm]

lemma nodes_setPte (pt : Pagetable) (va : Nat) (v : Option Pte) :
    (pt.setPte va v).nodes = pt.nodes := by
  by_cases h : pt.Reaches va
  · obtain ⟨t1, t0, h1, h0⟩ := h.tables
    obtain ⟨rest0, hrest0⟩ := Table.exists_nodes_set (fun _ : Pte => 0) t0 (px 0 va)
    obtain ⟨rest1, hrest1⟩ := Table.exists_nodes_set (Table.nodes fun _ : Pte => 0) t1 (px 1 va)
    obtain ⟨rest2, hrest2⟩ :=
      Table.exists_nodes_set (Table.nodes (Table.nodes fun _ : Pte => 0)) pt (px 2 va)
    have e0 := hrest0 (t0.entry (px 0 va))
    have e1 := hrest1 (t1.entry (px 1 va))
    have e2 := hrest2 (pt.entry (px 2 va))
    rw [Table.set_entry_self] at e0 e1 e2
    have hzero : ∀ w : Option Pte, w.elim (0 : Multiset Nat) (fun _ => 0) = 0 := by
      intro w
      cases w <;> rfl
    rw [setPte_eq h1 h0, nodes, nodes, hrest2, e2, h1, Option.elim_some, Option.elim_some, hrest1,
      e1, h0, Option.elim_some, Option.elim_some, hrest0, e0, hzero, hzero]
  · have : pt.setPte va v = pt := by
      unfold setPte
      split
      · rfl
      · next t1 h1 =>
        split
        · rfl
        · next t0 h0 => simp [Reaches, h1, h0] at h
    rw [this]

end Pagetable

/-! ### `walk` and `freewalk` -/

/-- A new table does not map anything. -/
lemma Table.bind_next {β : Type} {k k' : Kmem} {t : Table (Table α)} {i : Fin 512} {alloc : Bool}
    {c : Table α} (h : t.next k i alloc = some (c, k')) {f : Table α → Option β}
    (hf : ∀ a, f (zero a) = none) (j : Fin 512) :
    ((t.set i (some c)).entry j).bind f = (t.entry j).bind f := by
  by_cases hji : j = i
  · subst hji
    rcases next_some h with ⟨hc, -⟩ | ⟨hnone, -, pa, -, -, rfl, -⟩
    · rw [set_entry, hc]
    · rw [set_entry, hnone, Option.bind_some, hf]
      rfl
  · rw [set_entry_of_ne t hji]

lemma Table.next_freelist {k k' : Kmem} {t : Table (Table α)} {i : Fin 512} {alloc : Bool}
    {c : Table α} (h : t.next k i alloc = some (c, k')) :
    k'.freelist.length ≤ k.freelist.length := by
  rcases next_some h with ⟨-, rfl⟩ | ⟨-, -, pa, k1, hk, -, rfl⟩
  · exact le_rfl
  · rw [(Kmem.kalloc_some hk).1]
    exact Nat.le_succ _

section Walk

variable {V : Arena} {k k' : Kmem} {pt pt' : Pagetable} {va n : Nat} {alloc b : Bool}

/-- What `walk` does: it may add page-table pages, and it maps nothing. -/
structure Walked (V : Arena) (k : Kmem) (pt : Pagetable) (va : Nat) (b : Bool) (k' : Kmem)
    (pt' : Pagetable) : Prop where
  leaf : pt'.leaf = pt.leaf
  trades : k.Trades V k' pt.nodes pt'.nodes
  reaches : b = true → pt'.Reaches va
  free : k'.freelist.length ≤ k.freelist.length

lemma walked_walk (h : walk k pt va alloc = .ok (b, k', pt')) :
    va < maxva ∧ Walked V k pt va b k' pt' := by
  obtain ⟨hva, h⟩ := guard_ok h
  refine ⟨by omega, ?_⟩
  split at h
  · cases h
    exact ⟨rfl, Trade.refl _ _ _, by simp, le_rfl⟩
  · next t1 k1 h1 =>
    have hleaf1 : Pagetable.leaf (pt.set (px 2 va) (some t1)) = pt.leaf := by
      funext m
      unfold Pagetable.leaf Pagetable.pte
      rw [Table.bind_next h1]
      exact fun _ => rfl
    have htrade1 : k.Trades V k1 pt.nodes (Pagetable.nodes (pt.set (px 2 va) (some t1))) :=
      Table.trades_next _ h1
    split at h
    · cases h
      exact ⟨hleaf1, htrade1, by simp, Table.next_freelist h1⟩
    · next t0 k2 h0 =>
      cases h
      refine ⟨?_, htrade1.trans ?_, fun _ => ?_, (Table.next_freelist h0).trans (Table.next_freelist h1)⟩
      · rw [← hleaf1]
        funext m
        unfold Pagetable.leaf Pagetable.pte
        by_cases hm : px 2 (m * pgsize) = px 2 va
        · rw [hm, Table.set_entry, Table.set_entry, Option.bind_some, Option.bind_some,
            Table.bind_next h0]
          exact fun _ => rfl
        · simp only [Table.set_entry_of_ne pt hm]
      · obtain ⟨rest, hrest⟩ :=
          Table.exists_nodes_set (Table.nodes (Table.nodes fun _ : Pte => 0)) pt (px 2 va)
        rw [Pagetable.nodes, Pagetable.nodes, hrest, hrest]
        exact (Table.trades_next _ h0).frame rest
      · simp [Pagetable.Reaches]

/-- Without `alloc`, `walk` only looks. -/
lemma walk_false (k : Kmem) (pt : Pagetable) (hva : va < maxva) :
    (pt.Reaches va ∧ walk k pt va false = .ok (true, k, pt)) ∨
      (pt.pte va = none ∧ walk k pt va false = .ok (false, k, pt)) := by
  have hle : ¬ maxva ≤ va := by omega
  unfold walk Table.next
  simp only [if_neg hle]
  cases h1 : pt.entry (px 2 va) with
  | none =>
    right
    exact ⟨by simp [Pagetable.pte, h1], rfl⟩
  | some t1 =>
    cases h0 : t1.entry (px 1 va) with
    | none =>
      right
      refine ⟨by simp [Pagetable.pte, h1, h0], ?_⟩
      simp only [h0]
      rw [Bool.not_false, if_pos rfl, ← h1, Table.set_entry_self]
      rfl
    | some t0 =>
      left
      refine ⟨by simp [Pagetable.Reaches, h1, h0], ?_⟩
      simp only [h0]
      rw [← h0, Table.set_entry_self, ← h1, Table.set_entry_self]
      rfl

/-- Nothing is allocated on the way to an entry that can be reached. -/
lemma walk_of_reaches (k : Kmem) (hva : va < maxva) (h : pt.Reaches va) (alloc : Bool) :
    walk k pt va alloc = .ok (true, k, pt) := by
  have hle : ¬ maxva ≤ va := by omega
  unfold Pagetable.Reaches at h
  unfold walk Table.next
  rw [if_neg hle]
  cases h1 : pt.entry (px 2 va) with
  | none => simp [h1] at h
  | some t1 =>
    cases h0 : t1.entry (px 1 va) with
    | none => simp [h1, h0] at h
    | some t0 =>
      simp only [h0]
      rw [← h0, Table.set_entry_self, ← h1, Table.set_entry_self]
      rfl

lemma walk_total (hva : va < maxva) (k : Kmem) (pt : Pagetable) (alloc : Bool) :
    ∃ b k' pt', walk k pt va alloc = .ok (b, k', pt') := by
  have hle : ¬ maxva ≤ va := by omega
  unfold walk
  rw [if_neg hle]
  split
  · exact ⟨_, _, _, rfl⟩
  · split <;> exact ⟨_, _, _, rfl⟩

end Walk

lemma freewalkLeaf_ne_ok (k k' : Kmem) (q : Pte) : freewalkLeaf k q ≠ .ok k' := by
  unfold freewalkLeaf
  split <;> simp [throw, throwThe, MonadExceptOf.throw]

lemma trades_freewalk {V : Arena} {k k' : Kmem} {pt : Pagetable} (h : freewalk k pt = .ok k') :
    k.Trades V k' pt.nodes 0 := by
  refine Table.trades_free (fun t1 k k' h1 => ?_) pt h
  refine Table.trades_free (fun t0 k k' h0 => ?_) t1 h1
  refine Table.trades_free (fun q k k' hq => ?_) t0 h0
  exact absurd hq (freewalkLeaf_ne_ok k k' q)

/-- `freewalk` returns only if no leaf is left. -/
lemma leaf_of_freewalk {k k' : Kmem} {pt : Pagetable} (h : freewalk k pt = .ok k') (n : Nat) :
    pt.leaf n = none := by
  unfold Pagetable.leaf Pagetable.pte
  split
  · cases h1 : pt.entry (px 2 (n * pgsize)) with
    | none => rfl
    | some t1 =>
      cases h0 : t1.entry (px 1 (n * pgsize)) with
      | none => simp [h0]
      | some t0 =>
        cases hq : t0.entry (px 0 (n * pgsize)) with
        | none => simp [h0, hq]
        | some q =>
          obtain ⟨k1, k1', hf1⟩ := Table.free_ok h h1
          obtain ⟨k0, k0', hf0⟩ := Table.free_ok hf1 h0
          obtain ⟨kq, kq', hfq⟩ := Table.free_ok hf0 hq
          exact absurd hfq (freewalkLeaf_ne_ok kq kq' q)
  · rfl

lemma freewalk_total {pt : Pagetable} (h : ∀ n, pt.leaf n = none) (k : Kmem) :
    ∃ k', freewalk k pt = .ok k' := by
  refine Table.free_total (fun i2 t1 h1 k => ?_) k
  refine Table.free_total (fun i1 t0 h0 k => ?_) k
  refine Table.free_total (fun i0 q hq k => ?_) k
  obtain ⟨n, hn, e2, e1, e0⟩ := Pagetable.exists_page i2 i1 i0
  have hleaf := h n
  rw [Pagetable.leaf, if_pos hn, Pagetable.pte, e2, e1, e0, h1, Option.bind_some, h0,
    Option.bind_some, hq] at hleaf
  cases hleaf

-- from here on the tables are used through the lemmas above
attribute [irreducible] Pagetable.nodes freewalk

end FogOS.Kernel
