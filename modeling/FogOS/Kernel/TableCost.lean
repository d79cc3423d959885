import FogOS.Kernel.UserCopy

/-!
# What page tables cost

How many pages `walk`, `uvmalloc` and `proc_pagetable` take from the allocator. A walk takes one for
every table that is missing on its way, so that the tables of an image of `n` pages can be counted.
-/

namespace FogOS.Kernel

open ByteMem Ledger Copy

variable {k k' : Kmem} {pt pt' : Pagetable} {n m a : Nat} {b : Bool}

/-! ### The tables on the way to a page -/

lemma px_page (level n : Nat) : (px level (n * pgsize)).val = n / 2 ^ (9 * level) % 512 := by
  have hsplit : 2 ^ (12 + 9 * level) = pgsize * 2 ^ (9 * level) := pow_add 2 12 (9 * level)
  change n * pgsize / 2 ^ (12 + 9 * level) % 512 = _
  rw [hsplit, mul_comm n, Nat.mul_div_mul_left _ _ (by decide)]

lemma px_two_eq (hn : n < 2 ^ 26) (hm : m < 2 ^ 26) :
    px 2 (m * pgsize) = px 2 (n * pgsize) ↔ m / 2 ^ 18 = n / 2 ^ 18 := by
  rw [Fin.ext_iff, px_page, px_page]
  omega

lemma px_one_eq (h : m / 2 ^ 18 = n / 2 ^ 18) :
    px 1 (m * pgsize) = px 1 (n * pgsize) ↔ m / 512 = n / 512 := by
  rw [Fin.ext_iff, px_page, px_page]
  omega

namespace Pagetable

/-- The table of level 1 on the way to page `n`. -/
def mid (pt : Pagetable) (n : Nat) : Option (Table (Table Pte)) := pt.entry (px 2 (n * pgsize))

/-- The table of level 0 on the way to page `n`. -/
def low (pt : Pagetable) (n : Nat) : Option (Table Pte) :=
  (pt.mid n).bind fun t1 => t1.entry (px 1 (n * pgsize))

/-- How many tables are missing on the way to page `n`. -/
def missing (pt : Pagetable) (n : Nat) : Nat :=
  if (pt.low n).isSome then 0 else if (pt.mid n).isSome then 1 else 2

/-- `pt'` has the tables of `pt` and those on the way to page `n`. -/
structure Paved (pt : Pagetable) (n : Nat) (pt' : Pagetable) : Prop where
  mid : ∀ m < 2 ^ 26, (pt'.mid m).isSome ↔ (pt.mid m).isSome ∨ m / 2 ^ 18 = n / 2 ^ 18
  low : ∀ m < 2 ^ 26, (pt'.low m).isSome ↔ (pt.low m).isSome ∨ m / 512 = n / 512

/-- An entry for another page is written. -/
lemma mid_setPte (pt : Pagetable) (n m : Nat) (v : Option Pte) :
    ((pt.setPte (n * pgsize) v).mid m).isSome = (pt.mid m).isSome := by
  unfold setPte
  split
  · rfl
  next t1 h1 =>
  split
  · rfl
  · unfold mid
    by_cases hm : px 2 (m * pgsize) = px 2 (n * pgsize)
    · rw [hm, Table.set_entry, h1]
      rfl
    · rw [Table.set_entry_of_ne _ hm]

lemma low_setPte (pt : Pagetable) (n m : Nat) (v : Option Pte) :
    ((pt.setPte (n * pgsize) v).low m).isSome = (pt.low m).isSome := by
  unfold setPte
  split
  · rfl
  next t1 h1 =>
  split
  · rfl
  next t0 h0 =>
  unfold low mid
  by_cases hm : px 2 (m * pgsize) = px 2 (n * pgsize)
  · rw [hm, Table.set_entry, h1, Option.bind_some, Option.bind_some]
    by_cases hm1 : px 1 (m * pgsize) = px 1 (n * pgsize)
    · rw [hm1, Table.set_entry, h0]
      rfl
    · rw [Table.set_entry_of_ne _ hm1]
  · rw [Table.set_entry_of_ne _ hm]

/-- Both tables have been put in their places. -/
lemma paved_set (hn : n < 2 ^ 26) (t1 : Table (Table Pte)) (t0 : Table Pte)
    (h : ∀ i, (t1.entry i).isSome = ((pt.mid n).bind fun t => t.entry i).isSome) :
    Paved pt n (pt.set (px 2 (n * pgsize)) (some (t1.set (px 1 (n * pgsize)) (some t0)))) := by
  constructor
  · intro m hm
    rw [← px_two_eq hn hm]
    unfold mid
    by_cases heq : px 2 (m * pgsize) = px 2 (n * pgsize)
    · rw [heq, Table.set_entry]
      simp
    · rw [Table.set_entry_of_ne _ heq]
      simp [heq]
  · intro m hm
    by_cases heq : px 2 (m * pgsize) = px 2 (n * pgsize)
    · have hmid : pt.mid m = pt.mid n := by
        unfold mid
        rw [heq]
      rw [← px_one_eq ((px_two_eq hn hm).mp heq), low, low, hmid]
      unfold mid
      rw [heq, Table.set_entry, Option.bind_some]
      by_cases heq1 : px 1 (m * pgsize) = px 1 (n * pgsize)
      · rw [heq1, Table.set_entry]
        simp
      · rw [Table.set_entry_of_ne _ heq1, h]
        simp [heq1, mid]
    · have hne : m / 512 ≠ n / 512 := by
        intro hsame
        exact heq ((px_two_eq hn hm).mpr (by omega))
      unfold low mid
      rw [Table.set_entry_of_ne _ heq]
      simp [hne]

end Pagetable

open Pagetable

/-! ### Walking -/

/-- A table that was there costs nothing, a new one a page. -/
lemma next_cost {α : Type} {t : Table (Table α)} {i : Fin 512} {t' : Table α}
    (h : t.next k i true = some (t', k')) :
    (t.entry i = some t' ∧ k'.freelist.length = k.freelist.length) ∨
      (t.entry i = none ∧ (∀ j, t'.entry j = none) ∧ k.freelist.length = k'.freelist.length + 1) := by
  rcases Table.next_some h with ⟨hentry, rfl⟩ | ⟨hentry, -, pa, k1, hk, rfl, rfl⟩
  · exact Or.inl ⟨hentry, rfl⟩
  · refine Or.inr ⟨hentry, fun _ => rfl, ?_⟩
    change _ = k1.freelist.length + 1
    rw [(Kmem.kalloc_some hk).1, List.length_cons]

lemma next_none_entry {α : Type} {t : Table (Table α)} {i : Fin 512}
    (h : t.next k i true = none) : t.entry i = none := by
  unfold Table.next at h
  split at h
  · cases h
  · assumption

/-- `walk` fails exactly if there are fewer pages than tables are missing. -/
lemma walk_cost (hn : n < 2 ^ 26) (h : walk k pt (n * pgsize) true = .ok (b, k', pt')) :
    (b = true ↔ pt.missing n ≤ k.freelist.length) ∧
      (b = true → k.freelist.length = k'.freelist.length + pt.missing n ∧ Paved pt n pt') := by
  obtain ⟨-, h⟩ := guard_ok h
  split at h
  · next h1 =>
    cases h
    have hmid : pt.mid n = none := next_none_entry h1
    simp [missing, low, hmid, next_none h1]
  · next t1 k1 h1 =>
    have hcost1 := next_cost h1
    change (pt.mid n = some t1 ∧ _) ∨ (pt.mid n = none ∧ _) at hcost1
    split at h
    · next h0 =>
      cases h
      have hentry := next_none_entry h0
      have hempty : k'.freelist.length = 0 := by rw [next_none h0, List.length_nil]
      rcases hcost1 with ⟨hmid, hlen⟩ | ⟨hmid, -, hlen⟩
      · have hone : pt.missing n = 1 := by simp [missing, low, hmid, hentry]
        exact ⟨by simp; omega, fun hb => by cases hb⟩
      · have htwo : pt.missing n = 2 := by simp [missing, low, hmid]
        exact ⟨by simp; omega, fun hb => by cases hb⟩
    · next t0 k2 h0 =>
      cases h
      have hpaved := @paved_set pt n hn t1 t0
      rcases hcost1 with ⟨hmid, hlen⟩ | ⟨hmid, hblank, hlen⟩
      · have hset := hpaved fun i => by rw [hmid, Option.bind_some]
        rcases next_cost h0 with ⟨hlow, hlen0⟩ | ⟨hlow, -, hlen0⟩
        · have hzero : pt.missing n = 0 := by simp [missing, low, hmid, hlow]
          exact ⟨by simp [hzero], fun _ => ⟨by omega, hset⟩⟩
        · have hone : pt.missing n = 1 := by simp [missing, low, hmid, hlow]
          exact ⟨by simp; omega, fun _ => ⟨by omega, hset⟩⟩
      · have hset := hpaved fun i => by rw [hmid, hblank]; rfl
        rcases next_cost h0 with ⟨hlow, -⟩ | ⟨-, -, hlen0⟩
        · rw [hblank] at hlow
          cases hlow
        · have htwo : pt.missing n = 2 := by simp [missing, low, hmid]
          exact ⟨by simp; omega, fun _ => ⟨by omega, hset⟩⟩

lemma mappages_cost {pa : Nat} {perm : Perm} (hn : n < 2 ^ 26)
    (h : mappages k pt (n * pgsize) pgsize pa perm = .ok (b, k', pt')) :
    (b = true ↔ pt.missing n ≤ k.freelist.length) ∧
      (b = true → k.freelist.length = k'.freelist.length + pt.missing n ∧ Paved pt n pt') := by
  rw [mappages_page] at h
  obtain ⟨⟨found, k1, pt1⟩, hw, h⟩ := bind_ok h
  obtain ⟨hiff, hcost⟩ := walk_cost hn hw
  cases found with
  | false =>
    cases h
    exact ⟨hiff, fun hb => by cases hb⟩
  | true =>
    obtain ⟨-, h⟩ := guard_ok h
    cases h
    obtain ⟨hlen, hpaved⟩ := hcost rfl
    refine ⟨hiff, fun _ => ⟨hlen, fun m hm => ?_, fun m hm => ?_⟩⟩
    · rw [mid_setPte, hpaved.mid m hm]
    · rw [low_setPte, hpaved.low m hm]

/-! ### The tables of an image -/

/-- The tables for `n` pages of user memory from address 0 on, in a page table that has those for
the trampoline. -/
def tables (n : Nat) : Nat := if n = 0 then 0 else 1 + (n + 511) / 512

/-- The pages that `n` pages of user memory take, with the tables for them. -/
def cost (n : Nat) : Nat := n + tables n

lemma cost_zero : cost 0 = 0 := rfl

lemma cost_mono (h : n ≤ m) : cost n ≤ cost m := by
  unfold cost tables
  split <;> split <;> omega

/-- Three pages for each are enough. -/
lemma cost_le (h : n ≤ m) : cost m ≤ cost n + 3 * (m - n) := by
  unfold cost tables
  split <;> split <;> omega

/-- The tables are those for `n` pages of user memory, and for the two pages at the top. -/
structure Shaped (pt : Pagetable) (n : Nat) : Prop where
  mid : ∀ m < 2 ^ 26, (pt.mid m).isSome ↔ m / 2 ^ 18 = 255 ∨ m / 2 ^ 18 = 0 ∧ 0 < n
  low : ∀ m < 2 ^ 26, (pt.low m).isSome ↔ m / 512 = 131071 ∨ m / 512 < (n + 511) / 512

/-- The price of the next page. -/
lemma Shaped.missing (h : Shaped pt n) (hn : n < 2 ^ 18) : cost n + 1 + pt.missing n = cost (n + 1) := by
  have hmid := h.mid n (by omega)
  have hlow := h.low n (by omega)
  unfold Pagetable.missing cost tables
  by_cases hl : (pt.low n).isSome
  · have hl' := hlow.mp hl
    rw [if_pos hl, if_neg (by omega), if_neg (by omega)]
    omega
  · have hl' := mt hlow.mpr hl
    rw [if_neg hl]
    by_cases hm : (pt.mid n).isSome
    · have hm' := hmid.mp hm
      rw [if_pos hm, if_neg (by omega), if_neg (by omega)]
      omega
    · have hm' := mt hmid.mpr hm
      rw [if_neg hm, if_pos (by omega), if_neg (by omega)]
      omega

lemma Shaped.pave (h : Shaped pt n) (hn : n < 2 ^ 18) (ho : Paved pt n pt') : Shaped pt' (n + 1) := by
  refine ⟨fun m hm => ?_, fun m hm => ?_⟩
  · rw [ho.mid m hm, h.mid m hm]
    omega
  · rw [ho.low m hm, h.low m hm]
    omega

/-- The loop of `uvmalloc` fails exactly if the pages and their tables cost more than there is.
`a` pages are mapped already, so that the machine has no more than `a` and the free ones. -/
lemma uvmallocLoop_cost {s r : Nat} {xperm : Perm} (hs : Shaped pt a)
    (hroom : a + k.freelist.length ≤ 2 ^ 18)
    (h : uvmallocLoop s xperm r k pt (a * pgsize) = .ok (b, k', pt')) :
    (b = true ↔ cost (a + r) ≤ cost a + k.freelist.length) ∧
      (b = true → cost a + k.freelist.length = cost (a + r) + k'.freelist.length ∧
        Shaped pt' (a + r)) := by
  induction r generalizing k pt a with
  | zero =>
    cases h
    exact ⟨by simp, fun _ => ⟨rfl, hs⟩⟩
  | succ r ih =>
    have hfar : cost (a + 1) ≤ cost (a + (r + 1)) := cost_mono (by omega)
    have hnext : cost a + 1 ≤ cost (a + 1) := by
      unfold cost tables
      split <;> split <;> omega
    rw [uvmallocLoop] at h
    split at h
    · next k1 hnone =>
      obtain ⟨r1, -, h⟩ := bind_ok h
      cases h
      have hempty : k.freelist.length = 0 := by rw [kalloc_empty hnone, List.length_nil]
      exact ⟨by simp; omega, fun hb => by cases hb⟩
    · next mem k1 hsome =>
      have hone : k.freelist.length = k1.freelist.length + 1 := by
        rw [(Kmem.kalloc_some hsome).1, List.length_cons]
      have ha : a < 2 ^ 18 := by omega
      have hprice := hs.missing ha
      obtain ⟨⟨mapped, k2, pt2⟩, hm, h⟩ := bind_ok h
      obtain ⟨hiff, hcost⟩ := mappages_cost (by omega) hm
      change mapped = true ↔ _ ≤ k1.freelist.length at hiff
      change mapped = true → k1.freelist.length = _ ∧ _ at hcost
      cases mapped with
      | false =>
        obtain ⟨r1, -, h⟩ := bind_ok h
        cases h
        have hshort : ¬ pt.missing a ≤ k1.freelist.length := by simpa using hiff
        exact ⟨by simp; omega, fun hb => by cases hb⟩
      | true =>
        obtain ⟨hlen, hpaved⟩ := hcost rfl
        rw [next_page] at h
        obtain ⟨hb, hrest⟩ := ih (hs.pave ha hpaved) (by omega) h
        rw [show a + (r + 1) = a + 1 + r by omega]
        refine ⟨hb.trans (by omega), fun hb' => ?_⟩
        obtain ⟨hlen', hs'⟩ := hrest hb'
        exact ⟨by omega, hs'⟩

/-- `uvmalloc` grows the memory exactly if there are pages for it and its tables. -/
lemma uvmalloc_cost {sz newsz r : Nat} {xperm : Perm} (hs : Shaped pt (pages sz))
    (hroom : pages sz + k.freelist.length ≤ 2 ^ 18)
    (h : uvmalloc k pt sz newsz xperm = .ok (r, k', pt')) :
    (r ≠ 0 ↔ 0 < max sz newsz ∧
      cost (pages (max sz newsz)) ≤ cost (pages sz) + k.freelist.length) ∧
    (r ≠ 0 → cost (pages sz) + k.freelist.length =
      cost (pages (max sz newsz)) + k'.freelist.length ∧ Shaped pt' (pages (max sz newsz))) := by
  unfold uvmalloc at h
  split at h
  · next hlt =>
    cases h
    rw [max_eq_left hlt.le]
    exact ⟨by omega, fun _ => ⟨rfl, hs⟩⟩
  · next hle =>
    have hmono := pages_mono (not_lt.mp hle)
    rw [pgRoundUp_eq (by omega)] at h
    obtain ⟨⟨done, k1, pt1⟩, hl, h⟩ := bind_ok h
    cases h
    rw [rounds_sizes (not_lt.mp hle)] at hl
    obtain ⟨hiff, hcost⟩ := uvmallocLoop_cost hs hroom hl
    rw [show pages sz + (pages newsz - pages sz) = pages newsz by omega] at hiff hcost
    rw [max_eq_right (not_lt.mp hle)]
    cases done with
    | false =>
      have hshort : ¬ cost (pages newsz) ≤ cost (pages sz) + k.freelist.length := by simpa using hiff
      exact ⟨by simp; omega, fun hr => absurd rfl hr⟩
    | true =>
      have henough := hiff.mp rfl
      refine ⟨?_, fun _ => hcost rfl⟩
      rw [if_pos rfl]
      omega

/-- An empty page table with the two pages at the top takes three pages. -/
lemma procPagetable_cost {tramp tf : Nat} {r : Option Pagetable}
    (h : procPagetable k tramp tf = .ok (r, k')) :
    (r.isSome ↔ 3 ≤ k.freelist.length) ∧
      ∀ pt, r = some pt → k.freelist.length = k'.freelist.length + 3 ∧ Shaped pt 0 := by
  have htf := tfPage_eq
  unfold procPagetable uvmcreate at h
  cases hk : k.kalloc with
  | mk found k1 =>
  rw [hk] at h
  cases found with
  | none =>
    cases h
    rw [kalloc_empty hk]
    simp
  | some pa =>
    have hone : k.freelist.length = k1.freelist.length + 1 := by
      rw [(Kmem.kalloc_some hk).1, List.length_cons]
    dsimp only at h
    rw [trampolineVa_eq, trapframeVa_eq] at h
    obtain ⟨⟨b2, k2, pt2⟩, hmap2, h⟩ := bind_ok h
    obtain ⟨hiff2, hcost2⟩ := mappages_cost (by omega) hmap2
    have htwo : Pagetable.missing (Table.zero pa) (tfPage + 1) = 2 := rfl
    rw [htwo] at hiff2 hcost2
    change b2 = true ↔ 2 ≤ k1.freelist.length at hiff2
    change b2 = true → k1.freelist.length = k2.freelist.length + 2 ∧ _ at hcost2
    cases b2 with
    | false =>
      obtain ⟨k3, -, h⟩ := bind_ok h
      cases h
      have hshort : ¬ 2 ≤ k1.freelist.length := by simpa using hiff2
      exact ⟨by simp; omega, fun pt hpt => by cases hpt⟩
    | true =>
      obtain ⟨hlen2, hpaved2⟩ := hcost2 rfl
      obtain ⟨⟨b3, k3, pt3⟩, hmap3, h⟩ := bind_ok h
      obtain ⟨hiff3, hcost3⟩ := mappages_cost (by omega) hmap3
      have hthere : pt2.missing tfPage = 0 := by
        have hlow := (hpaved2.low tfPage (by omega)).mpr (Or.inr (by omega))
        rw [Pagetable.missing, if_pos hlow]
      rw [hthere] at hiff3 hcost3
      obtain rfl : b3 = true := hiff3.mpr (Nat.zero_le _)
      obtain ⟨hlen3, hpaved3⟩ := hcost3 rfl
      change k2.freelist.length = k3.freelist.length + 0 at hlen3
      cases h
      refine ⟨by simp; omega, fun pt hpt => ?_⟩
      cases hpt
      change k.freelist.length = k3.freelist.length + 3 ∧ _
      refine ⟨by omega, fun m hm => ?_, fun m hm => ?_⟩
      · rw [hpaved3.mid m hm, hpaved2.mid m hm, show Pagetable.mid (Table.zero pa) m = none from rfl]
        simp
        omega
      · rw [hpaved3.low m hm, hpaved2.low m hm, show Pagetable.low (Table.zero pa) m = none from rfl]
        simp
        omega

end FogOS.Kernel
