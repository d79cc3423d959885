import FogOS.Lib.Steps
import FogOS.Kernel.Pte

/-!
# Page tables refine maps

The memory from a root page on stands for a tree of page-table pages, and the tree for a map from page
numbers to physical pages and permissions. Each function of `FogOS.Kernel.Pte` does to the tree what it
should, as long as page-table pages belong to nobody else.
-/

namespace FogOS.Kernel

open ByteMem Ledger

/-! ### Trees in memory -/

/-- The page at `a` is the same in both memories. -/
def PageSame (m m' : Mem) (a : Nat) : Prop := ∀ x, a ≤ x → x < a + pgsize → m' x = m x

lemma PageSame.load64 {m m' : Mem} {a : Nat} (h : PageSame m m' a) (i : Fin 512) :
    m'.load64 (entryAddr a i) = m.load64 (entryAddr a i) := by
  refine Mem.load64_congr fun x hx hx' => h x ?_ ?_
  · unfold entryAddr at hx
    omega
  · have := i.isLt
    unfold entryAddr at hx'
    unfold pgsize
    omega

/-- What the relation `S` says of `c` in memory rests on the pages of `c`. -/
def Framed {α : Type} (f : α → Multiset Nat) (S : Mem → α → Prop) : Prop :=
  ∀ m m' c, (∀ a ∈ f c, PageSame m m' a) → S m c → S m' c

namespace Table

variable {α : Type} {f : α → Multiset Nat} {S : Mem → α → Prop} {w : α → Nat} {m m' : Mem} {t : Table α}
variable {i : Fin 512} {v : Option α}

/-- The memory holds the table, with words `w` for the entries, and all that is below it. -/
def Shows (w : α → Nat) (S : Mem → α → Prop) (m : Mem) (t : Table α) : Prop :=
  ∀ i, m.load64 (entryAddr t.addr i) = (t.entry i).elim 0 w ∧ ∀ c, t.entry i = some c → S m c

/-- The pages below an entry, and the others. -/
lemma nodes_split (f : α → Multiset Nat) (t : Table α) (i : Fin 512) :
    ∃ rest, t.addr ∈ rest ∧ (∀ j c, j ≠ i → t.entry j = some c → f c ≤ rest) ∧
      ∀ v, (t.set i v).nodes f = v.elim 0 f + rest := by
  obtain ⟨others, hothers⟩ : ∃ X, X = ∑ j ∈ Finset.univ.erase i, (t.entry j).elim 0 f := ⟨_, rfl⟩
  refine ⟨{t.addr} + others, ?_, fun j c hj hc => ?_, fun v => ?_⟩
  · exact Multiset.mem_add.mpr (.inl (Multiset.mem_singleton_self _))
  · have hle : (t.entry j).elim 0 f ≤ others := by
      rw [hothers]
      refine Finset.single_le_sum (f := fun j => (t.entry j).elim 0 f) (fun _ _ => Multiset.zero_le _) ?_
      exact Finset.mem_erase.mpr ⟨hj, Finset.mem_univ j⟩
    rw [hc] at hle
    exact hle.trans (Multiset.le_add_left _ _)
  · have hsame : ∑ j ∈ Finset.univ.erase i, ((t.set i v).entry j).elim 0 f = others := by
      rw [hothers]
      refine Finset.sum_congr rfl fun j hj => ?_
      rw [set_entry_of_ne t (Finset.ne_of_mem_erase hj)]
    rw [nodes, ← Finset.add_sum_erase _ _ (Finset.mem_univ i), hsame, set_entry]
    exact add_left_comm _ _ _

attribute [local irreducible] nodes

/-- The pages of a table, seen from one entry. -/
lemma nodes_eq (f : α → Multiset Nat) (t : Table α) (i : Fin 512) :
    ∃ rest, t.addr ∈ rest ∧ (∀ j c, j ≠ i → t.entry j = some c → f c ≤ rest) ∧
      (∀ v, (t.set i v).nodes f = v.elim 0 f + rest) ∧ t.nodes f = (t.entry i).elim 0 f + rest := by
  obtain ⟨rest, haddr, hrest, hnodes⟩ := nodes_split f t i
  have hself := hnodes (t.entry i)
  rw [set_entry_self] at hself
  exact ⟨rest, haddr, hrest, hnodes, hself⟩

lemma addr_mem_nodes (f : α → Multiset Nat) (t : Table α) : t.addr ∈ t.nodes f := by
  obtain ⟨rest, haddr, -, -, hself⟩ := nodes_eq f t 0
  rw [hself]
  exact Multiset.mem_add.mpr (.inr haddr)

lemma mem_nodes_of_entry {c : α} {a : Nat} (hc : t.entry i = some c) (ha : a ∈ f c) : a ∈ t.nodes f := by
  obtain ⟨rest, -, -, -, hself⟩ := nodes_eq f t i
  rw [hself, hc]
  exact Multiset.mem_add.mpr (.inl ha)

/-- The pages below an entry are apart from the table itself and from those below the others. -/
lemma nodup_apart {c : α} {a : Nat} (h : (t.nodes f).Nodup) (hc : t.entry i = some c) (ha : a ∈ f c) :
    a ≠ t.addr ∧ ∀ j c', j ≠ i → t.entry j = some c' → a ∉ f c' := by
  obtain ⟨rest, haddr, hrest, -, hself⟩ := nodes_eq f t i
  rw [hself, hc] at h
  have hdisjoint := Multiset.disjoint_left.mp (Multiset.nodup_add.mp h).2.2 ha
  refine ⟨?_, fun j c' hj hc' ha' => hdisjoint (Multiset.mem_of_le (hrest j c' hj hc') ha')⟩
  rintro rfl
  exact hdisjoint haddr

lemma framed_shows (hS : Framed f S) : Framed (nodes f) (Shows w S) := by
  intro m m' t hsame hshows i
  obtain ⟨hword, hbelow⟩ := hshows i
  refine ⟨?_, fun c hc => ?_⟩
  · rw [(hsame t.addr (addr_mem_nodes f t)).load64 i]
    exact hword
  · exact hS m m' c (fun a ha => hsame a (mem_nodes_of_entry hc ha)) (hbelow c hc)

/-- One entry is set, and what is below it changes. -/
lemma Shows.set (h : t.Shows w S m) (hS : Framed f S) (hnodup : (t.nodes f).Nodup)
    (hsame : ∀ a ∈ t.nodes f, a ∉ (t.entry i).elim 0 f → a ≠ t.addr → PageSame m m' a)
    (hother : ∀ j, j ≠ i → m'.load64 (entryAddr t.addr j) = m.load64 (entryAddr t.addr j))
    (hthis : m'.load64 (entryAddr t.addr i) = v.elim 0 w) (hbelow : ∀ c, v = some c → S m' c) :
    (t.set i v).Shows w S m' := by
  intro j
  by_cases hji : j = i
  · subst hji
    rw [set_entry]
    exact ⟨hthis, hbelow⟩
  · rw [set_entry_of_ne t hji]
    refine ⟨(hother j hji).trans (h j).1, fun c hc => ?_⟩
    refine hS m m' c (fun a ha => ?_) ((h j).2 c hc)
    obtain ⟨hne, hapart⟩ := nodup_apart hnodup hc ha
    refine hsame a (mem_nodes_of_entry hc ha) (fun hin => ?_) hne
    cases hi : t.entry i with
    | none =>
      rw [hi] at hin
      exact Multiset.notMem_zero a hin
    | some c' =>
      rw [hi] at hin
      exact hapart i c' (Ne.symm hji) hi hin

/-- A page of zeros. -/
lemma shows_zero {addr : Nat} (h : ∀ i, m.load64 (entryAddr addr i) = 0) : (zero addr : Table α).Shows w S m := by
  intro i
  refine ⟨h i, ?_⟩
  rintro c ⟨⟩

end Table

/-! ### Pages of the allocator -/

section Owns

variable {kend : Nat} {hlo : kernbase ≤ kend} {hhi : kend ≤ phystop} {s s' : Phys} {R : Multiset Nat} {a b r : Nat}

/-- The allocator keeps its books, `R` are the references to its pages, and an `int` can count them. -/
def Owns (hlo : kernbase ≤ kend) (hhi : kend ≤ phystop) (s : Phys) (R : Multiset Nat) : Prop :=
  ∃ k, Phys.Models kend s k ∧ k.Books (Phys.arena hlo hhi) R ∧ ∀ pa, R.count pa < 2 ^ 31

lemma Owns.pageAddr (h : Owns hlo hhi s R) (ha : a ∈ R) : PageAddr a := by
  obtain ⟨k, -, hbooks, -⟩ := h
  exact (Phys.arena hlo hhi).page_addr a (hbooks.subset a ha)

lemma pageSame_of_outside {m m' : Mem} (ha : PageAddr a) (hb : PageAddr b) (hne : b ≠ a)
    (h : ∀ x, x < a ∨ a + pgsize ≤ x → m' x = m x) : PageSame m m' b := by
  intro x hx hx'
  refine h x ?_
  have := Phys.pages_apart hb ha hne
  omega

/-- `kalloc` hands out a page that nobody refers to, and fills it. -/
lemma Owns.kalloc (h : Owns hlo hhi s R) (hk : s.kalloc = (r, s')) :
    r = 0 ∧ s' = s ∨
      r ≠ 0 ∧ PageAddr r ∧ r ∉ R ∧ Owns hlo hhi s' ({r} + R) ∧
        ∀ x, x < r ∨ r + pgsize ≤ x → s'.mem x = s.mem x := by
  obtain ⟨k, hm, hb, hcount⟩ := h
  cases ha : k.kalloc with
  | mk o k' =>
  cases o with
  | none =>
    have hfree : k.freelist = [] := by
      by_contra hne
      obtain ⟨pa, rest, hcons⟩ := List.exists_cons_of_ne_nil hne
      simp only [Kmem.kalloc, hcons] at ha
      split at ha <;> cases ha
    rw [hm.kalloc_none hfree] at hk
    cases hk
    exact .inl ⟨rfl, rfl⟩
  | some pa =>
    obtain ⟨s₁, hs₁, hm'⟩ := hm.kalloc_some hb ha
    rw [hs₁] at hk
    cases hk
    have hfree := (Kmem.kalloc_some ha).1
    have hmem : r ∈ k.freelist := by
      rw [hfree]
      exact List.mem_cons_self
    have hnot : r ∉ R := hb.notMem_of_free hmem
    have haddr := (Phys.pageAddr_of_free hb hmem).2
    have hbooks : k'.Books (Phys.arena hlo hhi) ({r} + R) := by
      have := (Kmem.trades_kalloc ha).accounts (R := R) (by rwa [add_zero])
      rwa [add_comm] at this
    refine .inr ⟨haddr.pos.ne', haddr, hnot, ⟨k', hm', hbooks, fun pb => ?_⟩, fun x hx => ?_⟩
    · rw [Multiset.count_add]
      by_cases hne : pb = r
      · rw [hne, Multiset.count_singleton_self, Multiset.count_eq_zero.mpr hnot]
        decide
      · rw [Multiset.count_singleton, if_neg hne, zero_add]
        exact hcount pb
    · have hhead : s.freelist = r := by
        have := Phys.kalloc_fst s
        rw [hs₁] at this
        exact this.symm
      rw [Phys.kalloc_page hhead haddr] at hs₁
      cases hs₁
      exact Mem.fill_apply_ne _ _ _ _ hx

/-- Writes to pages in use do not disturb the allocator. -/
lemma Owns.write {m' : Mem} (h : Owns hlo hhi s R) (hm' : ∀ pb, PageAddr pb → pb ∉ R → PageSame s.mem m' pb) :
    Owns hlo hhi { s with mem := m' } R := by
  obtain ⟨k, hm, hb, hcount⟩ := h
  refine ⟨{ k with page := fun pa i => m' (pa + i) }, ⟨hm.chain.congr fun pa hpa => ?_, hm.count,
    fun _ _ _ _ _ => rfl⟩, hb.congr rfl fun _ _ => rfl, hcount⟩
  have hpage := hm' pa (Phys.pageAddr_of_free hb hpa).2 (hb.notMem_of_free hpa)
  refine Mem.load64_congr fun x hx hx' => hpage x hx ?_
  unfold pgsize
  omega

/-- `kfree` drops a reference; the page is written only if it was the last. -/
lemma Owns.kfree (h : Owns hlo hhi s ({a} + R)) :
    Owns hlo hhi (s.kfree a) R ∧ ∀ b, PageAddr b → b ∈ R ∨ b ≠ a → PageSame s.mem (s.kfree a).mem b := by
  have haddr : PageAddr a := h.pageAddr (Multiset.mem_add.mpr (.inl (Multiset.mem_singleton_self a)))
  obtain ⟨k, hm, hb, hcount⟩ := h
  have hcounta := hcount a
  rw [Multiset.count_add, Multiset.count_singleton_self] at hcounta
  have hbooks : (k.kfree a).Books (Phys.arena hlo hhi) R := by
    have := (Kmem.trades_kfree (Phys.arena hlo hhi) k a).accounts (R := R) (by rwa [add_comm] at hb)
    rwa [add_zero] at this
  refine ⟨⟨k.kfree a, hm.kfree hb (by omega), hbooks, fun pb => ?_⟩, fun b hbaddr hb' => ?_⟩
  · have := hcount pb
    rw [Multiset.count_add] at this
    omega
  · obtain ⟨-, -, hs⟩ := hm.count_eq hb
    by_cases hlast : 0 < toInt32 (s.refCount (pa2idx a) - 1)
    · rw [Phys.kfree_shared hlast]
      exact fun _ _ _ => rfl
    · rw [Phys.kfree_last hlast]
      refine pageSame_of_outside haddr hbaddr ?_ (Phys.linked_ne _ _ _)
      rcases hb' with hin | hne
      · -- another reference is left, so this was not the last
        rintro rfl
        have hpos := Multiset.count_pos.mpr hin
        rw [hs, toInt32_eq (by omega) (by omega)] at hlast
        omega
      · exact hne

/-- `krefpage` adds a reference to a page in use. -/
lemma Owns.krefpage (h : Owns hlo hhi s R) (ha : a ∈ R) (hcount : R.count a + 1 < 2 ^ 31) :
    Owns hlo hhi (s.krefpage a) ({a} + R) := by
  obtain ⟨k, hm, hb, hcounts⟩ := h
  obtain ⟨rest, rfl⟩ := Multiset.exists_cons_of_mem ha
  rw [Multiset.count_cons_self] at hcount
  have hb' : k.Books (Phys.arena hlo hhi) ({a} + rest) := by
    rw [Multiset.singleton_add]
    exact hb
  refine ⟨k.krefpage a, hm.krefpage hb' (by omega), Kmem.books_krefpage hb ha, fun pb => ?_⟩
  rw [Multiset.count_add]
  by_cases heq : pb = a
  · rw [heq, Multiset.count_singleton_self, Multiset.count_cons_self]
    omega
  · rw [Multiset.count_singleton, if_neg heq, zero_add]
    exact hcounts pb

/-- An entry of a page in use is written. -/
lemma Owns.setEntry {i : Fin 512} {w : Nat} (h : Owns hlo hhi s R) (ha : a ∈ R) :
    Owns hlo hhi (s.setEntry (entryAddr a i) w) R ∧
      ∀ b, PageAddr b → b ≠ a → PageSame s.mem (s.setEntry (entryAddr a i) w).mem b := by
  have haddr := h.pageAddr ha
  have hout : ∀ x, x < a ∨ a + pgsize ≤ x → (s.setEntry (entryAddr a i) w).mem x = s.mem x := by
    intro x hx
    refine Mem.store64_apply_ne _ _ _ _ ?_
    have := i.isLt
    unfold entryAddr
    unfold pgsize at hx
    omega
  have hsame : ∀ b, PageAddr b → b ≠ a → PageSame s.mem (s.setEntry (entryAddr a i) w).mem b :=
    fun b hb hne => pageSame_of_outside haddr hb hne hout
  refine ⟨h.write fun pb hpb hnot => hsame pb hpb ?_, hsame⟩
  rintro rfl
  exact hnot ha

/-- The words of the page of an entry that is written. -/
lemma load64_setEntry {i j : Fin 512} {w : Nat} (s : Phys) (a : Nat) (hw : w < 2 ^ 64) :
    (s.setEntry (entryAddr a i) w).mem.load64 (entryAddr a i) = w ∧
      (j ≠ i → (s.setEntry (entryAddr a i) w).mem.load64 (entryAddr a j) = s.mem.load64 (entryAddr a j)) := by
  refine ⟨Mem.load64_store64_same _ _ _ hw, fun hji => Mem.load64_store64_ne _ _ _ _ ?_⟩
  have hne : (j : Nat) ≠ i := fun heq => hji (Fin.ext heq)
  unfold entryAddr
  omega

/-- A page of zeros is allocated. -/
lemma Owns.kallocZero (h : Owns hlo hhi s R) (hk : s.kalloc = (r, s')) (hr : r ≠ 0) :
    PageAddr r ∧ r ∉ R ∧ Owns hlo hhi { s' with mem := s'.mem.fill r pgsize 0 } ({r} + R) ∧
      (∀ b, PageAddr b → b ≠ r → PageSame s.mem (s'.mem.fill r pgsize 0) b) ∧
      ∀ i, (s'.mem.fill r pgsize 0).load64 (entryAddr r i) = 0 := by
  rcases h.kalloc hk with ⟨hzero, -⟩ | ⟨-, haddr, hnot, howns, hout⟩
  · exact absurd hzero hr
  have hout' : ∀ x, x < r ∨ r + pgsize ≤ x → s'.mem.fill r pgsize 0 x = s'.mem x :=
    fun x hx => Mem.fill_apply_ne _ _ _ _ hx
  refine ⟨haddr, hnot, howns.write fun pb hpb hpnot => ?_, fun b hb hne => ?_, fun i => ?_⟩
  · refine pageSame_of_outside haddr hpb ?_ hout'
    rintro rfl
    exact hpnot (Multiset.mem_add.mpr (.inl (Multiset.mem_singleton_self pb)))
  · exact pageSame_of_outside haddr hb hne fun x hx => (hout' x hx).trans (hout x hx)
  · have hbyte : ∀ x, entryAddr r i ≤ x → x < entryAddr r i + 8 → s'.mem.fill r pgsize 0 x = (fun _ => 0 : Mem) x := by
      intro x hx hx'
      have := i.isLt
      unfold entryAddr at hx hx'
      exact Mem.fill_apply_in _ _ _ _ (by omega) (by unfold pgsize; omega)
    rw [Mem.load64_congr hbyte]
    rfl

end Owns

/-! ### Page tables -/

namespace Pagetable

variable {pt : Pagetable} {t1 : Table (Table Pte)} {t0 : Table Pte} {m m' : Mem} {i j : Fin 512} {a : Nat}

/-- The pages of a table of the lowest level: itself. -/
def nodes0 (t0 : Table Pte) : Multiset Nat := t0.nodes fun _ => 0

/-- The pages of a table of the middle level. -/
def nodes1 (t1 : Table (Table Pte)) : Multiset Nat := t1.nodes nodes0

lemma nodes_def (pt : Pagetable) : pt.nodes = Table.nodes nodes1 pt := by
  rw [Pagetable.nodes]
  rfl

def Shows0 (m : Mem) (t0 : Table Pte) : Prop := t0.Shows Pte.word (fun _ _ => True) m

def Shows1 (m : Mem) (t1 : Table (Table Pte)) : Prop := t1.Shows Table.word Shows0 m

/-- The memory holds the page table. -/
def Shows (m : Mem) (pt : Pagetable) : Prop := Table.Shows Table.word Shows1 m pt

lemma framed_shows0 : Framed nodes0 Shows0 := Table.framed_shows fun _ _ _ _ h => h

lemma framed_shows1 : Framed nodes1 Shows1 := Table.framed_shows framed_shows0

lemma framed_shows : Framed Pagetable.nodes Shows := by
  intro m m' pt hsame
  rw [nodes_def] at hsame
  exact Table.framed_shows framed_shows1 m m' pt hsame

attribute [local irreducible] Table.nodes

/-- The table below an entry of the root is replaced by one at the same address. -/
lemma Shows.replace1 {t1' : Table (Table Pte)} (h : Shows m pt) (hnodup : pt.nodes.Nodup)
    (h1 : pt.entry i = some t1) (haddr : t1'.addr = t1.addr)
    (hsame : ∀ a ∈ pt.nodes, a ∉ nodes1 t1 → PageSame m m' a) (hnew : Shows1 m' t1') :
    Shows m' (pt.set i (some t1')) := by
  rw [nodes_def] at hnodup hsame
  have hroot : PageSame m m' pt.addr :=
    hsame pt.addr (Table.addr_mem_nodes _ _) fun hin => (Table.nodup_apart hnodup h1 hin).1 rfl
  refine Table.Shows.set h framed_shows1 hnodup (fun a ha hnot _ => hsame a ha ?_) (fun j _ => hroot.load64 j) ?_ ?_
  · rw [h1] at hnot
    exact hnot
  · rw [hroot.load64, (h i).1, h1]
    simp only [Option.elim_some, Table.word, haddr]
  · rintro c ⟨⟩
    exact hnew

/-- The table below an entry of the middle level is replaced by one at the same address. -/
lemma Shows1.replace0 {t0' : Table Pte} (h : Shows1 m t1) (hnodup : (nodes1 t1).Nodup)
    (h0 : t1.entry j = some t0) (haddr : t0'.addr = t0.addr)
    (hsame : ∀ a ∈ nodes1 t1, a ∉ nodes0 t0 → PageSame m m' a) (hnew : Shows0 m' t0') :
    Shows1 m' (t1.set j (some t0')) := by
  have hroot : PageSame m m' t1.addr :=
    hsame t1.addr (Table.addr_mem_nodes _ _) fun hin => (Table.nodup_apart hnodup h0 hin).1 rfl
  refine Table.Shows.set h framed_shows0 hnodup (fun a ha hnot _ => hsame a ha ?_) (fun j _ => hroot.load64 j) ?_ ?_
  · rw [h0] at hnot
    exact hnot
  · rw [hroot.load64, (h j).1, h0]
    simp only [Option.elim_some, Table.word, haddr]
  · rintro c ⟨⟩
    exact hnew

lemma mem_nodes0 (t0 : Table Pte) : t0.addr ∈ nodes0 t0 := Table.addr_mem_nodes _ _

lemma mem_nodes1 (h0 : t1.entry j = some t0) : t0.addr ∈ nodes1 t1 := Table.mem_nodes_of_entry h0 (mem_nodes0 t0)

lemma addr_mem (pt : Pagetable) : pt.addr ∈ pt.nodes := by
  rw [nodes_def]
  exact Table.addr_mem_nodes _ _

lemma mem_nodes_of_nodes1 (h1 : pt.entry i = some t1) (ha : a ∈ nodes1 t1) : a ∈ pt.nodes := by
  rw [nodes_def]
  exact Table.mem_nodes_of_entry h1 ha

lemma nodup_nodes1 (h : pt.nodes.Nodup) (h1 : pt.entry i = some t1) : (nodes1 t1).Nodup := by
  rw [nodes_def] at h
  obtain ⟨rest, -, -, -, hself⟩ := Table.nodes_eq nodes1 pt i
  rw [hself, h1] at h
  exact (Multiset.nodup_add.mp h).1

/-- A new table below an empty entry of the root. -/
lemma nodes_grow1 (h1 : pt.entry i = none) (r : Nat) : Pagetable.nodes (pt.set i (some (Table.zero r))) = {r} + pt.nodes := by
  obtain ⟨rest, -, -, hset, hself⟩ := Table.nodes_eq nodes1 pt i
  have hzero : nodes1 (Table.zero r) = {r} := Table.nodes_zero _ _
  rw [nodes_def, nodes_def, hset, hself, h1, Option.elim_some, Option.elim_none, hzero, zero_add]

/-- A new table below an empty entry of the middle level. -/
lemma nodes_grow0 (h1 : pt.entry i = some t1) (h0 : t1.entry j = none) (r : Nat) :
    Pagetable.nodes (pt.set i (some (t1.set j (some (Table.zero r))))) = {r} + pt.nodes := by
  obtain ⟨rest, -, -, hset, hself⟩ := Table.nodes_eq nodes1 pt i
  obtain ⟨rest0, -, -, hset0, hself0⟩ := Table.nodes_eq nodes0 t1 j
  have hzero : nodes0 (Table.zero r) = {r} := Table.nodes_zero _ _
  have hgrown : nodes1 (t1.set j (some (Table.zero r))) = {r} + nodes1 t1 := by
    unfold nodes1
    rw [hset0, hself0, h0, Option.elim_some, Option.elim_none, hzero, zero_add]
  rw [nodes_def, nodes_def, hset, hself, h1, Option.elim_some, Option.elim_some, hgrown, add_assoc]

lemma leaf_grow1 (h1 : pt.entry i = none) (r : Nat) : leaf (pt.set i (some (Table.zero r))) = pt.leaf := by
  funext n
  unfold leaf pte
  by_cases hn : px 2 (n * pgsize) = i
  · rw [hn, Table.set_entry, h1]
    rfl
  · rw [Table.set_entry_of_ne pt hn]

lemma leaf_grow0 (h1 : pt.entry i = some t1) (h0 : t1.entry j = none) (r : Nat) :
    leaf (pt.set i (some (t1.set j (some (Table.zero r))))) = pt.leaf := by
  funext n
  unfold leaf pte
  by_cases hn : px 2 (n * pgsize) = i
  · rw [hn, Table.set_entry, h1, Option.bind_some, Option.bind_some]
    by_cases hn1 : px 1 (n * pgsize) = j
    · rw [hn1, Table.set_entry, h0]
      rfl
    · rw [Table.set_entry_of_ne t1 hn1]
  · rw [Table.set_entry_of_ne pt hn]

lemma px_page {level va : Nat} (hlevel : level ≤ 2) : px level (va / pgsize * pgsize) = px level va := by
  have hcases : level = 0 ∨ level = 1 ∨ level = 2 := by omega
  unfold px pgsize
  rw [Fin.mk.injEq]
  rcases hcases with rfl | rfl | rfl <;> omega

/-- The entry of an address is that of its page. -/
lemma setPte_page (pt : Pagetable) (va : Nat) (v : Option Pte) :
    pt.setPte va v = pt.setPte (va / pgsize * pgsize) v := by
  unfold setPte
  rw [px_page (le_refl 2), px_page one_le_two, px_page (Nat.zero_le 2)]

end Pagetable

/-! ### One page table among other users of memory -/

/-- The memory holds the page table `pt`. Its pages are its own; `H` are the references that others
hold. Leaves have a permission to read, write or execute, and are below `MAXVA`. -/
structure Sim {kend : Nat} (hlo : kernbase ≤ kend) (hhi : kend ≤ phystop) (s : Phys) (H : Multiset Nat)
    (pt : Pagetable) : Prop where
  owns : Owns hlo hhi s (H + pt.nodes)
  nodup : pt.nodes.Nodup
  apart : ∀ a ∈ pt.nodes, a ∉ H
  shows : Pagetable.Shows s.mem pt
  good : ∀ n q, pt.leaf n = some q → q.Leaf ∧ q.ppn < 2 ^ 52 ∧ n < 2 ^ 26

namespace Sim

open Pagetable

variable {kend : Nat} {hlo : kernbase ≤ kend} {hhi : kend ≤ phystop} {s s' : Phys} {H : Multiset Nat}
variable {pt : Pagetable} {t1 : Table (Table Pte)} {t0 : Table Pte} {i j : Fin 512} {a r va : Nat}

attribute [local irreducible] Table.nodes

lemma pageAddr (h : Sim hlo hhi s H pt) (ha : a ∈ pt.nodes) : PageAddr a :=
  h.owns.pageAddr (Multiset.mem_add.mpr (.inr ha))

/-- The entry for an address is set. -/
lemma setPte (h : Sim hlo hhi s H pt) (hva : va < maxva) (h1 : pt.entry (px 2 va) = some t1)
    (h0 : t1.entry (px 1 va) = some t0) (v : Option Pte) (hv : ∀ q, v = some q → q.Leaf ∧ q.ppn < 2 ^ 52) :
    Sim hlo hhi (s.setEntry (entryAddr t0.addr (px 0 va)) (v.elim 0 Pte.word)) H (pt.setPte va v) ∧
      (pt.setPte va v).leaf = Function.update pt.leaf (va / pgsize) v := by
  have hmem : t0.addr ∈ pt.nodes := mem_nodes_of_nodes1 h1 (mem_nodes1 h0)
  obtain ⟨howns, hsame⟩ := h.owns.setEntry (i := px 0 va) (w := v.elim 0 Pte.word)
    (Multiset.mem_add.mpr (.inr hmem))
  have hnodup1 := nodup_nodes1 h.nodup h1
  have hw : v.elim 0 Pte.word < 2 ^ 64 := by
    cases v with
    | none => decide
    | some q => exact Pte.word_lt (hv q rfl).2
  have hpage : va / pgsize < 2 ^ 26 := by
    unfold maxva at hva
    unfold pgsize
    omega
  have hleaf : (pt.setPte va v).leaf = Function.update pt.leaf (va / pgsize) v := by
    rw [setPte_page]
    refine leaf_setPte ?_ (by omega) v
    unfold Reaches
    rw [px_page (le_refl 2), px_page one_le_two, h1, Option.bind_some, h0]
    rfl
  refine ⟨⟨?_, ?_, ?_, ?_, fun n q hq => ?_⟩, hleaf⟩
  · rw [nodes_setPte]
    exact howns
  · rw [nodes_setPte]
    exact h.nodup
  · rw [nodes_setPte]
    exact h.apart
  · have hshows1 : Shows1 s.mem t1 := (h.shows (px 2 va)).2 t1 h1
    have hshows0 : Shows0 s.mem t0 := (hshows1 (px 1 va)).2 t0 h0
    rw [setPte_eq h1 h0]
    refine Shows.replace1 h.shows h.nodup h1 rfl (fun a ha hnot => hsame a (h.pageAddr ha) ?_) ?_
    · rintro rfl
      exact hnot (mem_nodes1 h0)
    refine Shows1.replace0 hshows1 hnodup1 h0 rfl
      (fun a ha hnot => hsame a (h.pageAddr (mem_nodes_of_nodes1 h1 ha)) ?_) ?_
    · rintro rfl
      exact hnot (mem_nodes0 t0)
    intro k
    refine ⟨?_, fun _ _ => trivial⟩
    have hload := load64_setEntry (i := px 0 va) (j := k) s t0.addr hw
    by_cases hk : k = px 0 va
    · subst hk
      rw [Table.set_entry]
      exact hload.1
    · rw [Table.set_entry_of_ne t0 hk]
      exact (hload.2 hk).trans (hshows0 k).1
  · rw [hleaf] at hq
    by_cases hn : n = va / pgsize
    · subst hn
      rw [Function.update_self] at hq
      exact ⟨(hv q hq).1, (hv q hq).2, hpage⟩
    · rw [Function.update_of_ne hn] at hq
      exact h.good n q hq

/-- A new page table page, written into an entry of another page of the table. -/
lemma grow (h : Sim hlo hhi s H pt) (hk : s.kalloc = (r, s')) (hr : r ≠ 0) (ha : a ∈ pt.nodes) :
    let s₁ : Phys := { s' with mem := s'.mem.fill r pgsize 0 }
    let s₂ := s₁.setEntry (entryAddr a i) (pa2pteWord r ||| pteV)
    PageAddr r ∧ r ∉ H + pt.nodes ∧ Owns hlo hhi s₂ (H + ({r} + pt.nodes)) ∧
      (∀ b ∈ pt.nodes, b ≠ a → PageSame s.mem s₂.mem b) ∧
      (∀ j, j ≠ i → s₂.mem.load64 (entryAddr a j) = s.mem.load64 (entryAddr a j)) ∧
      s₂.mem.load64 (entryAddr a i) = (Table.zero r : Table Pte).word ∧
      ∀ j, s₂.mem.load64 (entryAddr r j) = 0 := by
  intro s₁ s₂
  obtain ⟨haddr, hnot, howns, hsame, hzero⟩ := h.owns.kallocZero hk hr
  have hra : r ≠ a := by
    rintro rfl
    exact hnot (Multiset.mem_add.mpr (.inr ha))
  have hword : pa2pteWord r ||| pteV = (Table.zero r : Table Pte).word := Table.word_eq (Table.zero r)
  have hmem : a ∈ {r} + (H + pt.nodes) := Multiset.mem_add.mpr (.inr (Multiset.mem_add.mpr (.inr ha)))
  obtain ⟨howns₂, hsame₂⟩ := howns.setEntry (i := i) (w := pa2pteWord r ||| pteV) hmem
  have hlt : pa2pteWord r ||| pteV < 2 ^ 64 := by
    rw [hword]
    exact Table.word_lt haddr
  have hpagea := h.pageAddr ha
  refine ⟨haddr, hnot, ?_, fun b hb hba => ?_, fun j hji => ?_, ?_, fun j => ?_⟩
  · rw [add_left_comm]
    exact howns₂
  · have hbr : b ≠ r := by
      rintro rfl
      exact hnot (Multiset.mem_add.mpr (.inr hb))
    intro x hx hx'
    exact (hsame₂ b (h.pageAddr hb) hba x hx hx').trans (hsame b (h.pageAddr hb) hbr x hx hx')
  · exact ((load64_setEntry s₁ a hlt).2 hji).trans ((hsame a hpagea (Ne.symm hra)).load64 j)
  · exact ((load64_setEntry (j := i) s₁ a hlt).1).trans hword
  · exact ((hsame₂ r haddr hra).load64 j).trans (hzero j)

/-- A table of the middle level is added. -/
lemma grow1 (h : Sim hlo hhi s H pt) (hk : s.kalloc = (r, s')) (hr : r ≠ 0) (h1 : pt.entry i = none) :
    Sim hlo hhi (Phys.setEntry { s' with mem := s'.mem.fill r pgsize 0 } (entryAddr pt.addr i) (pa2pteWord r ||| pteV))
      H (pt.set i (some (Table.zero r))) := by
  obtain ⟨haddr, hnot, howns, hsame, hother, hthis, hzero⟩ := h.grow (i := i) hk hr pt.addr_mem
  have hnodup := h.nodup
  rw [Multiset.mem_add, not_or] at hnot
  refine ⟨?_, ?_, ?_, ?_, ?_⟩
  · rw [nodes_grow1 h1]
    exact howns
  · rw [nodes_grow1 h1, Multiset.singleton_add]
    exact Multiset.nodup_cons.mpr ⟨hnot.2, hnodup⟩
  · intro b hb
    rw [nodes_grow1 h1, Multiset.singleton_add, Multiset.mem_cons] at hb
    rcases hb with rfl | hb
    · exact hnot.1
    · exact h.apart b hb
  · rw [nodes_def] at hnodup hsame
    refine Table.Shows.set h.shows framed_shows1 hnodup (fun b hb _ hne => hsame b hb hne) hother hthis ?_
    rintro c ⟨⟩
    exact Table.shows_zero hzero
  · rw [leaf_grow1 h1]
    exact h.good

/-- A table of the lowest level is added. -/
lemma grow0 (h : Sim hlo hhi s H pt) (hk : s.kalloc = (r, s')) (hr : r ≠ 0) (h1 : pt.entry i = some t1)
    (h0 : t1.entry j = none) :
    Sim hlo hhi (Phys.setEntry { s' with mem := s'.mem.fill r pgsize 0 } (entryAddr t1.addr j) (pa2pteWord r ||| pteV))
      H (pt.set i (some (t1.set j (some (Table.zero r))))) := by
  have hmem1 : t1.addr ∈ nodes1 t1 := Table.addr_mem_nodes _ _
  obtain ⟨haddr, hnot, howns, hsame, hother, hthis, hzero⟩ := h.grow (i := j) hk hr (mem_nodes_of_nodes1 h1 hmem1)
  rw [Multiset.mem_add, not_or] at hnot
  refine ⟨?_, ?_, ?_, ?_, ?_⟩
  · rw [nodes_grow0 h1 h0]
    exact howns
  · rw [nodes_grow0 h1 h0, Multiset.singleton_add]
    exact Multiset.nodup_cons.mpr ⟨hnot.2, h.nodup⟩
  · intro b hb
    rw [nodes_grow0 h1 h0, Multiset.singleton_add, Multiset.mem_cons] at hb
    rcases hb with rfl | hb
    · exact hnot.1
    · exact h.apart b hb
  · refine Shows.replace1 h.shows h.nodup h1 rfl (fun b hb hnot1 => hsame b hb ?_) ?_
    · rintro rfl
      exact hnot1 hmem1
    refine Table.Shows.set ((h.shows i).2 t1 h1) framed_shows0 (nodup_nodes1 h.nodup h1)
      (fun b hb _ hne => hsame b (mem_nodes_of_nodes1 h1 hb) hne) hother hthis ?_
    rintro c ⟨⟩
    exact Table.shows_zero hzero
  · rw [leaf_grow0 h1 h0]
    exact h.good

/-- One round of `walk`, at an entry that points to a table. -/
lemma walkLoop_some {α : Type} {alloc : Bool} {level : Nat} {c : Table α}
    (hword : s.mem.load64 (entryAddr a (px (level + 1) va)) = c.word) (hc : PageAddr c.addr) :
    Phys.walkLoop va alloc (level + 1) s a = Phys.walkLoop va alloc level s c.addr := by
  rw [Phys.walkLoop]
  dsimp only
  rw [hword, and_pteV, Table.word_odd, if_pos one_ne_zero, Table.pte2pa_word hc]

/-- One round of `walk`, at an empty entry. -/
lemma walkLoop_none {alloc : Bool} {level : Nat} (hword : s.mem.load64 (entryAddr a (px (level + 1) va)) = 0) :
    Phys.walkLoop va alloc (level + 1) s a =
      if !alloc then (0, s)
      else if s.kalloc.1 = 0 then (0, s.kalloc.2)
      else Phys.walkLoop va alloc level
        (Phys.setEntry { s.kalloc.2 with mem := s.kalloc.2.mem.fill s.kalloc.1 pgsize 0 }
          (entryAddr a (px (level + 1) va)) (pa2pteWord s.kalloc.1 ||| pteV)) s.kalloc.1 := by
  rw [Phys.walkLoop]
  dsimp only
  rw [hword, and_pteV, if_neg (by decide)]

lemma kalloc_zero (h : Sim hlo hhi s H pt) (hk : s.kalloc.1 = 0) : s.kalloc.2 = s := by
  have hpair : s.kalloc = (s.kalloc.1, s.kalloc.2) := rfl
  rcases h.owns.kalloc hpair with ⟨-, hs⟩ | ⟨hne, -⟩
  · exact hs
  · exact absurd hk hne

/-- What a walk leaves: perhaps more tables, the same leaves, and the entry for the address if it is
found. -/
structure Walk {kend : Nat} (hlo : kernbase ≤ kend) (hhi : kend ≤ phystop) (s' : Phys) (H : Multiset Nat)
    (pt pt' : Pagetable) (va pte : Nat) : Prop where
  sim : Sim hlo hhi s' H pt'
  leaf : pt'.leaf = pt.leaf
  addr : pt'.addr = pt.addr
  entry : pte ≠ 0 → ∃ t1 t0, pt'.entry (px 2 va) = some t1 ∧ t1.entry (px 1 va) = some t0 ∧
    pte = entryAddr t0.addr (px 0 va)

lemma Walk.zero (h : Sim hlo hhi s H pt) : Walk hlo hhi s H pt pt va 0 :=
  ⟨h, rfl, rfl, fun hne => absurd rfl hne⟩

/-- The last two levels of a walk. -/
lemma walk1 (h : Sim hlo hhi s H pt) (h1 : pt.entry (px 2 va) = some t1) (alloc : Bool) :
    ∃ pt', Walk hlo hhi (Phys.walkLoop va alloc 1 s t1.addr).2 H pt pt' va (Phys.walkLoop va alloc 1 s t1.addr).1 := by
  have hshows1 : Shows1 s.mem t1 := (h.shows (px 2 va)).2 t1 h1
  have hmem1 : t1.addr ∈ nodes1 t1 := Table.addr_mem_nodes _ _
  cases h0 : t1.entry (px 1 va) with
  | some t0 =>
    have hword : s.mem.load64 (entryAddr t1.addr (px 1 va)) = t0.word := by
      rw [(hshows1 (px 1 va)).1, h0]
      rfl
    rw [walkLoop_some hword (h.pageAddr (mem_nodes_of_nodes1 h1 (mem_nodes1 h0)))]
    exact ⟨pt, h, rfl, rfl, fun _ => ⟨t1, t0, h1, h0, rfl⟩⟩
  | none =>
    have hword : s.mem.load64 (entryAddr t1.addr (px 1 va)) = 0 := by
      rw [(hshows1 (px 1 va)).1, h0]
      rfl
    rw [walkLoop_none hword]
    split
    · exact ⟨pt, .zero h⟩
    split
    · next hk =>
      rw [h.kalloc_zero hk]
      exact ⟨pt, .zero h⟩
    · next hk =>
      have hpair : s.kalloc = (s.kalloc.1, s.kalloc.2) := rfl
      have hgrow := h.grow0 (j := px 1 va) hpair hk h1 h0
      refine ⟨_, hgrow, leaf_grow0 h1 h0 _, rfl, fun _ => ⟨_, Table.zero s.kalloc.1, Table.set_entry _ _ _, ?_, rfl⟩⟩
      exact Table.set_entry _ _ _

lemma walk (h : Sim hlo hhi s H pt) (va : Nat) (alloc : Bool) :
    ∃ pt', Walk hlo hhi (Phys.walkLoop va alloc 2 s pt.addr).2 H pt pt' va (Phys.walkLoop va alloc 2 s pt.addr).1 := by
  cases h1 : pt.entry (px 2 va) with
  | some t1 =>
    have hword : s.mem.load64 (entryAddr pt.addr (px 2 va)) = t1.word := by
      rw [(h.shows (px 2 va)).1, h1]
      rfl
    have hmem1 : t1.addr ∈ nodes1 t1 := Table.addr_mem_nodes _ _
    rw [walkLoop_some hword (h.pageAddr (mem_nodes_of_nodes1 h1 hmem1))]
    exact h.walk1 h1 alloc
  | none =>
    have hword : s.mem.load64 (entryAddr pt.addr (px 2 va)) = 0 := by
      rw [(h.shows (px 2 va)).1, h1]
      rfl
    rw [walkLoop_none hword]
    split
    · exact ⟨pt, .zero h⟩
    split
    · next hk =>
      rw [h.kalloc_zero hk]
      exact ⟨pt, .zero h⟩
    · next hk =>
      have hpair : s.kalloc = (s.kalloc.1, s.kalloc.2) := rfl
      have hgrow := h.grow1 (i := px 2 va) hpair hk h1
      obtain ⟨pt', hwalk⟩ := hgrow.walk1 (Table.set_entry _ _ _) alloc
      exact ⟨pt', hwalk.sim, hwalk.leaf.trans (leaf_grow1 h1 _), hwalk.addr, hwalk.entry⟩

/-- A walk that only looks. -/
lemma walk_false (h : Sim hlo hhi s H pt) (va : Nat) :
    (∃ t1 t0, pt.entry (px 2 va) = some t1 ∧ t1.entry (px 1 va) = some t0 ∧
        Phys.walkLoop va false 2 s pt.addr = (entryAddr t0.addr (px 0 va), s)) ∨
      pt.pte va = none ∧ Phys.walkLoop va false 2 s pt.addr = (0, s) := by
  cases h1 : pt.entry (px 2 va) with
  | none =>
    right
    have hword : s.mem.load64 (entryAddr pt.addr (px 2 va)) = 0 := by
      rw [(h.shows (px 2 va)).1, h1]
      rfl
    rw [walkLoop_none hword]
    exact ⟨by rw [pte, h1]; rfl, rfl⟩
  | some t1 =>
    have hword : s.mem.load64 (entryAddr pt.addr (px 2 va)) = t1.word := by
      rw [(h.shows (px 2 va)).1, h1]
      rfl
    have hmem1 : t1.addr ∈ nodes1 t1 := Table.addr_mem_nodes _ _
    rw [walkLoop_some hword (h.pageAddr (mem_nodes_of_nodes1 h1 hmem1))]
    have hshows1 : Shows1 s.mem t1 := (h.shows (px 2 va)).2 t1 h1
    cases h0 : t1.entry (px 1 va) with
    | none =>
      right
      have hword : s.mem.load64 (entryAddr t1.addr (px 1 va)) = 0 := by
        rw [(hshows1 (px 1 va)).1, h0]
        rfl
      rw [walkLoop_none hword]
      exact ⟨by rw [pte, h1, Option.bind_some, h0]; rfl, rfl⟩
    | some t0 =>
      left
      have hword : s.mem.load64 (entryAddr t1.addr (px 1 va)) = t0.word := by
        rw [(hshows1 (px 1 va)).1, h0]
        rfl
      rw [walkLoop_some hword (h.pageAddr (mem_nodes_of_nodes1 h1 (mem_nodes1 h0)))]
      exact ⟨t1, t0, rfl, h0, rfl⟩

/-- The word at the entry for an address. -/
lemma load64_entry (h : Sim hlo hhi s H pt) (h1 : pt.entry (px 2 va) = some t1) (h0 : t1.entry (px 1 va) = some t0) :
    s.mem.load64 (entryAddr t0.addr (px 0 va)) = (pt.pte va).elim 0 Pte.word ∧ entryAddr t0.addr (px 0 va) ≠ 0 := by
  have hshows1 : Shows1 s.mem t1 := (h.shows (px 2 va)).2 t1 h1
  have hshows0 : Shows0 s.mem t0 := (hshows1 (px 1 va)).2 t0 h0
  refine ⟨?_, ?_⟩
  · rw [(hshows0 (px 0 va)).1, pte, h1, Option.bind_some, h0, Option.bind_some]
  · have hpos := (h.pageAddr (mem_nodes_of_nodes1 h1 (mem_nodes1 h0))).pos
    unfold entryAddr
    omega

/-- What `walk(.., 0)` finds is the leaf of the tree. -/
lemma lookup (h : Sim hlo hhi s H pt) (hva : va < maxva) :
    s.lookup pt.addr va = (pt.leaf (va / pgsize)).map fun q => (q.pa, q.perm) := by
  rw [← pte_of_va pt hva]
  unfold Phys.lookup
  rcases h.walk_false va with ⟨t1, t0, h1, h0, hwalk⟩ | ⟨hnone, hwalk⟩
  · obtain ⟨hword, hne⟩ := h.load64_entry h1 h0
    rw [hwalk]
    split
    · next heq => exact absurd (Prod.mk.inj heq).1 hne
    · next pte s₁ _ heq =>
      obtain ⟨rfl, rfl⟩ := Prod.mk.inj heq
      rw [hword]
      cases hpte : pt.pte va with
      | none =>
        rw [Option.elim_none, and_pteV, if_pos (by decide)]
        rfl
      | some q =>
        rw [pte_of_va pt hva] at hpte
        obtain ⟨-, hppn, -⟩ := h.good _ q hpte
        rw [Option.elim_some, and_pteV, Pte.word_odd, if_neg one_ne_zero, Pte.pte2pa_word hppn, Pte.ofWord_word]
        rfl
  · rw [hwalk, hnone]
    rfl

/-! ### What others do -/

/-- A page is freed to which others held a reference. -/
lemma kfree (h : Sim hlo hhi s ({a} + H) pt) : Sim hlo hhi (s.kfree a) H pt := by
  have howns := h.owns
  rw [add_assoc] at howns
  obtain ⟨howns', hsame⟩ := howns.kfree
  refine ⟨howns', h.nodup, fun b hb hH => h.apart b hb (Multiset.mem_add.mpr (.inr hH)), ?_, h.good⟩
  exact framed_shows _ _ pt
    (fun b hb => hsame b (h.pageAddr hb) (.inl (Multiset.mem_add.mpr (.inr hb)))) h.shows

/-- Others get a page. -/
lemma kalloc (h : Sim hlo hhi s H pt) (hk : s.kalloc = (r, s')) (hr : r ≠ 0) : Sim hlo hhi s' ({r} + H) pt := by
  rcases h.owns.kalloc hk with ⟨hzero, -⟩ | ⟨-, haddr, hnot, howns, hout⟩
  · exact absurd hzero hr
  rw [Multiset.mem_add, not_or] at hnot
  refine ⟨by rwa [add_assoc], h.nodup, fun b hb hH => ?_, ?_, h.good⟩
  · rcases Multiset.mem_add.mp hH with hbr | hH
    · rw [Multiset.mem_singleton] at hbr
      subst hbr
      exact hnot.2 hb
    · exact h.apart b hb hH
  · refine framed_shows _ _ pt (fun b hb => pageSame_of_outside haddr (h.pageAddr hb) ?_ hout) h.shows
    rintro rfl
    exact hnot.2 hb

/-- Others share a page. -/
lemma krefpage (h : Sim hlo hhi s H pt) (ha : a ∈ H) (hcount : H.count a + 1 < 2 ^ 31) :
    Sim hlo hhi (s.krefpage a) ({a} + H) pt := by
  have hnodes : pt.nodes.count a = 0 := Multiset.count_eq_zero.mpr fun hin => h.apart a hin ha
  have howns := h.owns.krefpage (Multiset.mem_add.mpr (.inl ha)) (by rwa [Multiset.count_add, hnodes, add_zero])
  refine ⟨by rwa [add_assoc], h.nodup, fun b hb hin => ?_, h.shows, h.good⟩
  rcases Multiset.mem_add.mp hin with heq | hin
  · rw [Multiset.mem_singleton] at heq
    subst heq
    exact h.apart b hb ha
  · exact h.apart b hb hin

/-- Others write to their own pages. -/
lemma write {m' : Mem} (h : Sim hlo hhi s H pt) (hm' : ∀ pb, PageAddr pb → pb ∉ H → PageSame s.mem m' pb) :
    Sim hlo hhi { s with mem := m' } H pt := by
  refine ⟨h.owns.write fun pb hpb hnot => hm' pb hpb fun hin => hnot (Multiset.mem_add.mpr (.inl hin)), h.nodup,
    h.apart, ?_, h.good⟩
  exact framed_shows _ _ pt (fun b hb => hm' b (h.pageAddr hb) (h.apart b hb)) h.shows

end Sim

/-! ### Mapping and unmapping -/

/-- The entry of page `n` after an event. -/
def PteEvent.note (n : Nat) (o : Option (Nat × Perm)) : PteEvent → Option (Nat × Perm)
  | .map m pa perm => if m = n then some (pa, perm) else o
  | .unmap m _ => if m = n then none else o
  | .clear m => if m = n then o.map fun x => (x.1, { x.2 with u := false }) else o

/-- What was last written for page `n` and not removed since. -/
def lastWritten (n : Nat) (evs : List PteEvent) : Option (Nat × Perm) := evs.foldl (PteEvent.note n) none

/-- The physical pages that were unmapped. -/
def unmapped (evs : List PteEvent) : Multiset Nat :=
  (evs.filterMap fun e => match e with
    | .unmap _ pa => some pa
    | _ => none : List Nat)

/-- The page that an event is about. -/
def PteEvent.page : PteEvent → Nat
  | .map n _ _ | .unmap n _ | .clear n => n

lemma lastWritten_concat (n : Nat) (evs : List PteEvent) (e : PteEvent) :
    lastWritten n (evs ++ [e]) = e.note n (lastWritten n evs) := by
  simp [lastWritten]

/-- The leaves are what was last written. -/
def Maps (pt : Pagetable) (evs : List PteEvent) : Prop :=
  ∀ n, (pt.leaf n).map (fun q => (q.pa, q.perm)) = lastWritten n evs

section Operations

open Pagetable

variable {kend : Nat} {hlo : kernbase ≤ kend} {hhi : kend ≤ phystop} {s s' : Phys} {H : Multiset Nat}
variable {pt : Pagetable} {evs new : List PteEvent} {va a pa n : Nat} {perm : Perm}

lemma Maps.set {e : PteEvent} {v : Option Pte} {pt' : Pagetable} (h : Maps pt evs)
    (hleaf : pt'.leaf = Function.update pt.leaf n v) (hpage : e.page = n)
    (hthis : e.note n (lastWritten n evs) = v.map fun q => (q.pa, q.perm)) : Maps pt' (evs ++ [e]) := by
  intro m
  rw [lastWritten_concat, hleaf]
  by_cases hm : m = n
  · subst hm
    rw [Function.update_self, hthis]
  · rw [Function.update_of_ne hm, h m]
    have hne : e.page ≠ m := by
      rw [hpage]
      exact Ne.symm hm
    cases e with
    | map k pa perm => exact (if_neg hne).symm
    | unmap k pa => exact (if_neg hne).symm
    | clear k => exact (if_neg hne).symm

/-- A call of `walk` that returns. -/
lemma walk_ok {root pte : Nat} {alloc : Bool} (h : s.walk root va alloc = .ok (pte, s')) :
    va < maxva ∧ Phys.walkLoop va alloc 2 s root = (pte, s') := by
  obtain ⟨hva, h⟩ := guard_ok h
  exact ⟨by omega, (pure_ok h).symm⟩

/-- What an operation leaves: the tree, what was last written, and pages within a range. -/
structure Operates {kend : Nat} (hlo : kernbase ≤ kend) (hhi : kend ≤ phystop) (s' : Phys) (H : Multiset Nat)
    (pt : Pagetable) (evs new : List PteEvent) (first last : Nat) : Prop where
  tree : ∃ pt', Sim hlo hhi s' H pt' ∧ pt'.addr = pt.addr ∧ Maps pt' (evs ++ new)
  pages : ∀ e ∈ new, first ≤ e.page ∧ e.page < last

lemma Operates.nil {first last : Nat} {pt' : Pagetable} (h : Sim hlo hhi s H pt') (haddr : pt'.addr = pt.addr)
    (hm : Maps pt' evs) : Operates hlo hhi s H pt evs [] first last :=
  ⟨⟨pt', h, haddr, by rwa [List.append_nil]⟩, by simp⟩

lemma Operates.cons {pt' : Pagetable} {e : PteEvent} {first last : Nat}
    (h : Operates hlo hhi s H pt' (evs ++ [e]) new (first + 1) last) (haddr : pt'.addr = pt.addr)
    (hpage : e.page = first) (hlast : first < last) : Operates hlo hhi s H pt evs (e :: new) first last := by
  obtain ⟨⟨pt'', hsim, haddr', hm⟩, hpages⟩ := h
  rw [List.append_assoc] at hm
  refine ⟨⟨pt'', hsim, haddr'.trans haddr, hm⟩, fun e' he' => ?_⟩
  rcases List.mem_cons.mp he' with rfl | he'
  · omega
  · have := hpages e' he'
    omega

lemma dvd_u64 (h : pgsize ∣ pa) : pgsize ∣ u64 (pa + pgsize) := by
  unfold u64
  exact (Nat.dvd_mod_iff (by decide)).mpr (Nat.dvd_add h (dvd_refl _))

lemma mappagesLoop_operates {rounds : Nat} {done : Bool} (h : Sim hlo hhi s H pt) (hm : Maps pt evs)
    (ha : pgsize ∣ a) (hpa : pgsize ∣ pa) (hlt : pa < 2 ^ 64) (hperm : (perm.r || perm.w || perm.x) = true)
    (hrun : Phys.mappagesLoop pt.addr perm rounds s a pa = .ok (new, done, s')) :
    Operates hlo hhi s' H pt evs new (a / pgsize) (a / pgsize + rounds) := by
  induction rounds generalizing s pt evs a pa new with
  | zero =>
    cases hrun
    exact .nil h rfl hm
  | succ rounds ih =>
    rw [Phys.mappagesLoop] at hrun
    obtain ⟨⟨pte, s₁⟩, hwalk, hrun⟩ := bind_ok hrun
    obtain ⟨hva, hloop⟩ := walk_ok hwalk
    obtain ⟨pt₁, hwalked⟩ := h.walk a true
    rw [hloop] at hwalked
    dsimp only at hwalked hrun
    have hm₁ : Maps pt₁ evs := by
      intro n
      rw [hwalked.leaf]
      exact hm n
    split at hrun
    · cases hrun
      exact .nil hwalked.sim hwalked.addr hm₁
    · next hpte =>
      obtain ⟨-, hrun⟩ := guard_ok hrun
      obtain ⟨⟨new', done', s₂⟩, hrest, hrun⟩ := bind_ok hrun
      cases hrun
      obtain ⟨t1, t0, h1, h0, hentry⟩ := hwalked.entry hpte
      have hleaf : (pa2pte pa perm).Leaf ∧ (pa2pte pa perm).ppn < 2 ^ 52 := by
        refine ⟨hperm, ?_⟩
        unfold pa2pte pgsize
        dsimp only
        omega
      obtain ⟨hsim₂, hleaf₂⟩ := hwalked.sim.setPte hva h1 h0 (some (pa2pte pa perm)) (by rintro q ⟨⟩; exact hleaf)
      rw [hentry, Pte.word_eq] at hrest
      have haddr₂ : (pt₁.setPte a (some (pa2pte pa perm))).addr = pt.addr := by
        rw [setPte_eq h1 h0]
        exact hwalked.addr
      have hm₂ := hm₁.set (e := .map (a / pgsize) pa perm) hleaf₂ rfl (by
        rw [PteEvent.note, if_pos rfl, Option.map_some, pa_pa2pte hpa]
        rfl)
      have hnext : (a + pgsize) / pgsize = a / pgsize + 1 := Nat.add_div_right a (by decide)
      rw [← haddr₂] at hrest
      have hrest' := ih hsim₂ hm₂ (Nat.dvd_add ha (dvd_refl _)) (dvd_u64 hpa) (Nat.mod_lt _ (by decide)) hrest
      rw [hnext, show a / pgsize + 1 + rounds = a / pgsize + (rounds + 1) by omega] at hrest'
      exact hrest'.cons haddr₂ rfl (by omega)

/-- The references that others hold after pages were unmapped. -/
def heldAfter (doFree : Bool) (H : Multiset Nat) (new : List PteEvent) : Multiset Nat :=
  if doFree then H - unmapped new else H

/-- An entry is removed, and the page freed if the caller says so. -/
lemma unmap_one {t1 : Table (Table Pte)} {t0 : Table Pte} {q : Pte} {doFree : Bool} (h : Sim hlo hhi s H pt)
    (hm : Maps pt evs) (hva : va < maxva) (h1 : pt.entry (px 2 va) = some t1) (h0 : t1.entry (px 1 va) = some t0)
    (hfree : doFree = true → q.pa ∈ H) :
    Sim hlo hhi ((if doFree then s.kfree q.pa else s).setEntry (entryAddr t0.addr (px 0 va)) 0)
        (if doFree then H - {q.pa} else H) (pt.setPte va none) ∧
      (pt.setPte va none).addr = pt.addr ∧
      Maps (pt.setPte va none) (evs ++ [.unmap (va / pgsize) q.pa]) := by
  have hfreed : Sim hlo hhi (if doFree then s.kfree q.pa else s) (if doFree then H - {q.pa} else H) pt := by
    cases doFree with
    | false => exact h
    | true =>
      have hH : {q.pa} + (H - {q.pa}) = H := by
        rw [Multiset.singleton_add, Multiset.sub_singleton]
        exact Multiset.cons_erase (hfree rfl)
      rw [← hH] at h
      exact h.kfree
  obtain ⟨hsim, hleaf⟩ := hfreed.setPte hva h1 h0 none (by rintro q ⟨⟩)
  refine ⟨hsim, ?_, hm.set hleaf rfl (if_pos rfl)⟩
  rw [setPte_eq h1 h0]
  rfl

lemma uvmunmapLoop_operates {rounds : Nat} {doFree : Bool} (h : Sim hlo hhi s H pt) (hm : Maps pt evs) (ha : pgsize ∣ a)
    (hfree : doFree = true → unmapped new ≤ H)
    (hrun : Phys.uvmunmapLoop pt.addr doFree rounds s a = .ok (new, s')) :
    Operates hlo hhi s' (heldAfter doFree H new) pt evs new (a / pgsize) (a / pgsize + rounds) := by
  have hheld : ∀ H, heldAfter doFree H [] = H := by
    intro H
    unfold heldAfter unmapped
    cases doFree <;> simp
  have hnext : (a + pgsize) / pgsize = a / pgsize + 1 := Nat.add_div_right a (by decide)
  induction rounds generalizing s pt evs a new H with
  | zero =>
    cases hrun
    rw [hheld]
    exact .nil h rfl hm
  | succ rounds ih =>
    rw [Phys.uvmunmapLoop] at hrun
    obtain ⟨⟨pte, s₁⟩, hwalk, hrun⟩ := bind_ok hrun
    obtain ⟨hva, hloop⟩ := walk_ok hwalk
    dsimp only at hrun
    have hskip : ∀ new, (doFree = true → unmapped new ≤ H) →
        Phys.uvmunmapLoop pt.addr doFree rounds s (a + pgsize) = .ok (new, s') →
        Operates hlo hhi s' (heldAfter doFree H new) pt evs new (a / pgsize) (a / pgsize + (rounds + 1)) := by
      intro new hfree hrest
      obtain ⟨htree, hpages⟩ := ih h hm (Nat.dvd_add ha (dvd_refl _)) hfree hrest (Nat.add_div_right _ (by decide))
      refine ⟨htree, fun e he => ?_⟩
      have := hpages e he
      omega
    rcases h.walk_false a with ⟨t1, t0, h1, h0, hfound⟩ | ⟨-, hfound⟩
    · rw [hfound] at hloop
      obtain ⟨rfl, rfl⟩ := Prod.mk.inj hloop
      obtain ⟨hword, hne⟩ := h.load64_entry h1 h0
      rw [if_neg hne, hword] at hrun
      cases hpte : pt.pte a with
      | none =>
        rw [hpte, Option.elim_none, and_pteV, if_pos (by decide)] at hrun
        exact hskip new hfree hrun
      | some q =>
        have hgood := h.good (a / pgsize) q (by rw [← pte_of_va pt hva, hpte])
        rw [hpte, Option.elim_some, and_pteV, Pte.word_odd, if_neg one_ne_zero, Pte.pte2pa_word hgood.2.1] at hrun
        obtain ⟨⟨new', s₂⟩, hrest, hrun⟩ := bind_ok hrun
        cases hrun
        have hcons : unmapped (.unmap (a / pgsize) q.pa :: new') = {q.pa} + unmapped new' := by
          rw [Multiset.singleton_add]
          rfl
        have hin : doFree = true → q.pa ∈ H := by
          intro hdo
          have := hfree hdo
          rw [hcons] at this
          exact Multiset.mem_of_le this (Multiset.mem_add.mpr (.inl (Multiset.mem_singleton_self _)))
        obtain ⟨hsim, haddr, hm'⟩ := unmap_one h hm hva h1 h0 hin
        rw [← haddr] at hrest
        have hfree' : doFree = true → unmapped new' ≤ if doFree then H - {q.pa} else H := by
          intro hdo
          have := hfree hdo
          rw [hcons, add_comm] at this
          rw [if_pos hdo]
          exact le_tsub_of_add_le_right this
        have hrest' := ih hsim hm' (Nat.dvd_add ha (dvd_refl _)) hfree' hrest (Nat.add_div_right _ (by decide))
        have hsame : heldAfter doFree (if doFree then H - {q.pa} else H) new' =
            heldAfter doFree H (.unmap (a / pgsize) q.pa :: new') := by
          unfold heldAfter
          rw [hcons]
          cases doFree with
          | false => rfl
          | true => exact (tsub_add_eq_tsub_tsub H {q.pa} (unmapped new')).symm
        rw [hnext, hsame, show a / pgsize + 1 + rounds = a / pgsize + (rounds + 1) by omega] at hrest'
        exact hrest'.cons haddr rfl (by omega)
    · rw [hfound] at hloop
      obtain ⟨rfl, rfl⟩ := Prod.mk.inj hloop
      rw [if_pos rfl] at hrun
      exact hskip new hfree hrun

lemma uvmclear_operates (h : Sim hlo hhi s H pt) (hm : Maps pt evs) (hrun : s.uvmclear pt.addr va = .ok (new, s')) :
    Operates hlo hhi s' H pt evs new (va / pgsize) (va / pgsize + 1) := by
  unfold Phys.uvmclear at hrun
  obtain ⟨⟨pte, s₁⟩, hwalk, hrun⟩ := bind_ok hrun
  obtain ⟨hva, hloop⟩ := walk_ok hwalk
  obtain ⟨hpte, hrun⟩ := guard_ok hrun
  cases hrun
  rcases h.walk_false va with ⟨t1, t0, h1, h0, hfound⟩ | ⟨-, hfound⟩
  · rw [hfound] at hloop
    obtain ⟨rfl, rfl⟩ := Prod.mk.inj hloop
    obtain ⟨hword, -⟩ := h.load64_entry h1 h0
    have hgood : ∀ q, pt.pte va = some q → q.Leaf ∧ q.ppn < 2 ^ 52 := by
      intro q hq
      rw [pte_of_va pt hva] at hq
      obtain ⟨hleaf, hppn, -⟩ := h.good _ q hq
      exact ⟨hleaf, hppn⟩
    have hcleared : (pt.pte va).elim 0 Pte.word &&& (2 ^ 64 - 1 - pteU) =
        ((pt.pte va).map Pte.withoutU).elim 0 Pte.word := by
      cases hq : pt.pte va with
      | none => rfl
      | some q => exact Pte.word_withoutU (hgood q hq).2
    obtain ⟨hsim, hleaf⟩ := h.setPte hva h1 h0 ((pt.pte va).map Pte.withoutU) (by
      intro q hq
      obtain ⟨q', hq', rfl⟩ := Option.map_eq_some_iff.mp hq
      exact hgood q' hq')
    rw [← hcleared, ← hword] at hsim
    have haddr : (pt.setPte va ((pt.pte va).map Pte.withoutU)).addr = pt.addr := by
      rw [setPte_eq h1 h0]
      rfl
    refine ⟨⟨_, hsim, haddr, hm.set hleaf rfl ?_⟩, ?_⟩
    · rw [PteEvent.note, if_pos rfl, ← hm, pte_of_va pt hva, Option.map_map, Option.map_map]
      rfl
    · intro e he
      rw [List.mem_singleton] at he
      rw [he]
      exact ⟨le_refl _, Nat.lt_succ_self _⟩
  · rw [hfound] at hloop
    obtain ⟨rfl, rfl⟩ := Prod.mk.inj hloop
    exact absurd rfl hpte

end Operations

/-! ### Freeing the table -/

section Freewalk

variable {α : Type} {kend : Nat} {hlo : kernbase ≤ kend} {hhi : kend ≤ phystop} {f : α → Multiset Nat}
variable {S : Mem → α → Prop} {w addr : α → Nat} {P : α → Prop} {depth : Nat}

/-- If `P` holds, `freewalk` frees the pages of `c`, each once, and touches nothing else. -/
def Frees (hlo : kernbase ≤ kend) (hhi : kend ≤ phystop) (depth : Nat) (f : α → Multiset Nat)
    (S : Mem → α → Prop) (addr : α → Nat) (P : α → Prop) : Prop :=
  ∀ s R c, P c → Owns hlo hhi s (R + f c) → (f c).Nodup → (∀ a ∈ f c, a ∉ R) → S s.mem c →
    ∃ l s', Phys.freewalk depth s (addr c) = .ok (l, s') ∧ (l : Multiset Nat) = f c ∧ Owns hlo hhi s' R ∧
      ∀ b ∈ R, PageSame s.mem s'.mem b

/-- The pages below the entries of a list. -/
def pagesBelow (f : α → Multiset Nat) (t : Table α) (is : List (Fin 512)) : Multiset Nat :=
  (is.map fun i => (t.entry i).elim 0 f).sum

lemma nodes_pagesBelow (f : α → Multiset Nat) (t : Table α) : t.nodes f = {t.addr} + pagesBelow f t (List.finRange 512) := by
  rw [Table.nodes, Fin.sum_univ_def, pagesBelow]

lemma mem_pagesBelow {t : Table α} {is : List (Fin 512)} {i : Fin 512} {c : α} {a : Nat} (hi : i ∈ is)
    (hc : t.entry i = some c) (ha : a ∈ f c) : a ∈ pagesBelow f t is := by
  have hle : (t.entry i).elim 0 f ≤ pagesBelow f t is := by
    unfold pagesBelow
    exact List.single_le_sum (fun _ _ => Multiset.zero_le _) _ (List.mem_map.mpr ⟨i, hi, rfl⟩)
  rw [hc] at hle
  exact Multiset.mem_of_le hle ha

attribute [local irreducible] Table.nodes pagesBelow

/-- The loop of `freewalk` over some of the entries. -/
lemma Frees.entries (h : Frees hlo hhi depth f S addr P) (hS : Framed f S)
    (hw : ∀ c, P c → PageAddr (addr c) → w c % 2 = 1 ∧ w c &&& pteRWX = 0 ∧ pte2pa (w c) = addr c)
    (haddr : ∀ c, P c → addr c ∈ f c) {t : Table α} (hP : ∀ i c, t.entry i = some c → P c) {is : List (Fin 512)}
    (his : is.Nodup) {s : Phys} {R : Multiset Nat} (howns : Owns hlo hhi s (R + pagesBelow f t is)) (ht : t.addr ∈ R)
    (hnodup : (pagesBelow f t is).Nodup) (hapart : ∀ a ∈ pagesBelow f t is, a ∉ R)
    (hshows : ∀ i ∈ is, s.mem.load64 (entryAddr t.addr i) = (t.entry i).elim 0 w ∧
      ∀ c, t.entry i = some c → S s.mem c) (freed : List Nat) :
    ∃ l s', is.foldlM (Phys.freewalkEntry (Phys.freewalk depth) t.addr) (freed, s) = .ok (freed ++ l, s') ∧
      (l : Multiset Nat) = pagesBelow f t is ∧ Owns hlo hhi s' R ∧
      ∀ b ∈ R, b ≠ t.addr → PageSame s.mem s'.mem b := by
  induction is generalizing s freed with
  | nil =>
    have hnil : pagesBelow f t [] = 0 := by
      unfold pagesBelow
      rfl
    rw [hnil, add_zero] at howns
    refine ⟨[], s, ?_, hnil.symm, howns, fun _ _ _ _ _ _ => rfl⟩
    rw [List.append_nil]
    rfl
  | cons i is ih =>
    obtain ⟨hi, his⟩ := List.nodup_cons.mp his
    obtain ⟨hword, hbelow⟩ := hshows i List.mem_cons_self
    have hcons : pagesBelow f t (i :: is) = (t.entry i).elim 0 f + pagesBelow f t is := by
      unfold pagesBelow
      rw [List.map_cons, List.sum_cons]
    rw [hcons] at howns hnodup hapart ⊢
    rw [List.foldlM_cons, Phys.freewalkEntry]
    dsimp only
    rw [hword]
    cases hc : t.entry i with
    | none =>
      rw [hc, Option.elim_none, zero_add] at howns hnodup hapart
      rw [Option.elim_none, and_pteV, if_neg (by decide), if_neg (by decide), Option.elim_none, zero_add]
      exact ih his howns hnodup hapart (fun j hj => hshows j (List.mem_cons_of_mem i hj)) freed
    | some c =>
      rw [hc, Option.elim_some] at howns hnodup hapart
      obtain ⟨hnodupc, hnodupr, hdisjoint⟩ := Multiset.nodup_add.mp hnodup
      have hPc := hP i c hc
      have hpage : PageAddr (addr c) := howns.pageAddr
        (Multiset.mem_add.mpr (.inr (Multiset.mem_add.mpr (.inl (haddr c hPc)))))
      obtain ⟨hodd, hrwx, hpa⟩ := hw c hPc hpage
      have hsplit : R + (f c + pagesBelow f t is) = R + pagesBelow f t is + f c := by rw [add_assoc, add_comm (f c)]
      rw [hsplit] at howns
      obtain ⟨l₁, s₁, hrun₁, hl₁, howns₁, hsame₁⟩ := h s (R + pagesBelow f t is) c hPc howns hnodupc
        (fun a ha hin => (Multiset.mem_add.mp hin).elim (hapart a (Multiset.mem_add.mpr (.inl ha)))
          fun hr => Multiset.disjoint_left.mp hdisjoint ha hr) (hbelow c hc)
      obtain ⟨howns₂, hsame₂⟩ := howns₁.setEntry (i := i) (w := 0) (Multiset.mem_add.mpr (.inl ht))
      have hroot := hsame₁ t.addr (Multiset.mem_add.mpr (.inl ht))
      have hshows₂ : ∀ j ∈ is, (s₁.setEntry (entryAddr t.addr i) 0).mem.load64 (entryAddr t.addr j) =
          (t.entry j).elim 0 w ∧ ∀ c, t.entry j = some c → S (s₁.setEntry (entryAddr t.addr i) 0).mem c := by
        intro j hj
        obtain ⟨hwordj, hbelowj⟩ := hshows j (List.mem_cons_of_mem i hj)
        have hji : j ≠ i := by
          rintro rfl
          exact hi hj
        refine ⟨((load64_setEntry s₁ t.addr (by decide)).2 hji).trans ((hroot.load64 j).trans hwordj),
          fun c' hc' => hS _ _ c' (fun a ha => ?_) (hbelowj c' hc')⟩
        have hin := mem_pagesBelow hj hc' ha
        have hne : a ≠ t.addr := by
          rintro rfl
          exact hapart _ (Multiset.mem_add.mpr (.inr hin)) ht
        have hpagea := howns₁.pageAddr (Multiset.mem_add.mpr (.inr hin))
        intro x hx hx'
        exact (hsame₂ a hpagea hne x hx hx').trans (hsame₁ a (Multiset.mem_add.mpr (.inr hin)) x hx hx')
      obtain ⟨l₂, s₂, hrun₂, hl₂, howns₃, hsame₃⟩ := ih his howns₂ hnodupr
        (fun a ha => hapart a (Multiset.mem_add.mpr (.inr ha))) hshows₂ (freed ++ l₁)
      have hvalid : w c &&& pteV ≠ 0 := by
        rw [and_pteV, hodd]
        exact one_ne_zero
      refine ⟨l₁ ++ l₂, s₂, ?_, ?_, howns₃, fun b hb hne x hx hx' => ?_⟩
      · rw [Option.elim_some, if_pos ⟨hvalid, hrwx⟩, hpa, hrun₁, ok_bind]
        change List.foldlM _ (freed ++ l₁, s₁.setEntry (entryAddr t.addr i) 0) is = _
        rw [hrun₂, List.append_assoc]
      · rw [← Multiset.coe_add, hl₁, hl₂, Option.elim_some]
      · have hpageb := howns₁.pageAddr (Multiset.mem_add.mpr (.inl hb))
        exact (hsame₃ b hb hne x hx hx').trans ((hsame₂ b hpageb hne x hx hx').trans
          (hsame₁ b (Multiset.mem_add.mpr (.inl hb)) x hx hx'))

/-- From the tables below to the table. -/
lemma Frees.table (h : Frees hlo hhi depth f S addr P) (hS : Framed f S)
    (hw : ∀ c, P c → PageAddr (addr c) → w c % 2 = 1 ∧ w c &&& pteRWX = 0 ∧ pte2pa (w c) = addr c)
    (haddr : ∀ c, P c → addr c ∈ f c) :
    Frees hlo hhi (depth + 1) (Table.nodes f) (Table.Shows w S) Table.addr
      (fun t => ∀ i c, t.entry i = some c → P c) := by
  intro s R t hP howns hnodup hapart hshows
  rw [nodes_pagesBelow] at howns hnodup hapart
  obtain ⟨-, hnodupb, hdisjoint⟩ := Multiset.nodup_add.mp hnodup
  rw [← add_assoc] at howns
  obtain ⟨l, s₁, hrun, hl, howns₁, hsame⟩ := h.entries hS hw haddr hP (List.nodup_finRange 512) howns
    (Multiset.mem_add.mpr (.inr (Multiset.mem_singleton_self _))) hnodupb
    (fun a ha hin => (Multiset.mem_add.mp hin).elim (hapart a (Multiset.mem_add.mpr (.inr ha)))
      fun ht => Multiset.disjoint_left.mp hdisjoint ht ha) (fun i _ => hshows i) []
  rw [add_comm] at howns₁
  obtain ⟨howns₂, hsame₂⟩ := howns₁.kfree
  refine ⟨l ++ [t.addr], s₁.kfree t.addr, ?_, ?_, howns₂, fun b hb x hx hx' => ?_⟩
  · rw [Phys.freewalk, hrun, ok_bind, List.nil_append]
    rfl
  · rw [nodes_pagesBelow, ← Multiset.coe_add, hl, add_comm]
    rfl
  · have hne : b ≠ t.addr := by
      rintro rfl
      exact hapart _ (Multiset.mem_add.mpr (.inl (Multiset.mem_singleton_self _))) hb
    have hpageb := howns₁.pageAddr (Multiset.mem_add.mpr (.inr hb))
    exact (hsame₂ b hpageb (.inl hb) x hx hx').trans
      (hsame b (Multiset.mem_add.mpr (.inl hb)) hne x hx hx')

open Pagetable

/-- Once all leaves are gone, `freewalk` frees every page of the table once. -/
lemma Sim.freewalk {s : Phys} {H : Multiset Nat} {pt : Pagetable} (h : Sim hlo hhi s H pt) (hnone : ∀ n, pt.leaf n = none) :
    ∃ l s', Phys.freewalk 3 s pt.addr = .ok (l, s') ∧ (l : Multiset Nat) = pt.nodes ∧ Owns hlo hhi s' H := by
  have hbase : Frees hlo hhi 0 (fun _ : Pte => 0) (fun _ _ => True) (fun _ => 0) (fun _ => False) :=
    fun _ _ _ hfalse => absurd hfalse not_false
  have htable := fun {α : Type} (t : Table α) (ht : PageAddr t.addr) =>
    (⟨t.word_odd, t.word_and_pteRWX, Table.pte2pa_word ht⟩ :
      t.word % 2 = 1 ∧ t.word &&& pteRWX = 0 ∧ pte2pa t.word = t.addr)
  have h0 : Frees hlo hhi 1 nodes0 Shows0 Table.addr (fun t => ∀ i c, t.entry i = some c → False) :=
    hbase.table (w := Pte.word) (fun _ _ _ _ h => h) (fun _ hfalse => absurd hfalse not_false)
      fun _ hfalse => absurd hfalse not_false
  have h1 : Frees hlo hhi 2 nodes1 Shows1 Table.addr _ :=
    h0.table (w := Table.word) framed_shows0 (fun t _ ht => htable t ht) fun t _ => mem_nodes0 t
  have h2 := h1.table (w := Table.word) framed_shows1 (fun t _ ht => htable t ht) fun t _ =>
    Table.addr_mem_nodes nodes0 t
  have howns := h.owns
  have hnodup := h.nodup
  have hapart := h.apart
  rw [Pagetable.nodes_def] at howns hnodup hapart
  have hempty : ∀ i2 t1, pt.entry i2 = some t1 → ∀ i1 t0, t1.entry i1 = some t0 → ∀ i0 q, t0.entry i0 = some q →
      False := by
    intro i2 t1 e1 i1 t0 e0 i0 q hq
    obtain ⟨n, hn, rfl, rfl, rfl⟩ := Pagetable.exists_page i2 i1 i0
    have := hnone n
    rw [Pagetable.leaf, if_pos hn, Pagetable.pte, e1, Option.bind_some, e0, Option.bind_some, hq] at this
    cases this
  obtain ⟨l, s', hrun, hl, howns', -⟩ := h2 s H pt hempty howns hnodup hapart h.shows
  exact ⟨l, s', hrun, hl.trans (Pagetable.nodes_def pt).symm, howns'⟩

end Freewalk

end FogOS.Kernel
