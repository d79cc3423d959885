import FogOS.Kernel.PageMap

/-!
# Runs on one page table

A page table is made by `uvmcreate` and then changed by any sequence of `walk`, `mappages`, `uvmunmap`
and `uvmclear`, while other code uses the same allocator. Through the whole run the table is a finite map.
-/

namespace FogOS.Kernel

open ByteMem Ledger

/-- The operations on the page table, and what other code does with the allocator. -/
inductive TableOp
  | uvmcreate
  | walk (va : Nat)
  | mappages (va size pa : Nat) (perm : Perm)
  | uvmunmap (va npages : Nat) (doFree : Bool)
  | uvmclear (va : Nat)
  | kalloc
  | krefpage (pa : Nat)
  | kfree (pa : Nat)
  | write

/-- The page numbers that an operation is about. -/
def TableOp.pages : TableOp → Set Nat
  | .mappages va size _ _ => {n | va / pgsize ≤ n ∧ n < va / pgsize + size / pgsize}
  | .uvmunmap va npages _ => {n | va / pgsize ≤ n ∧ n < va / pgsize + npages}
  | .uvmclear va => {va / pgsize}
  | _ => ∅

/-- Memory, the root of the page table (0 before there is one) and the references to pages that the code
around it holds. -/
structure TableState where
  phys : Phys
  root : Nat
  held : Multiset Nat

namespace TableState

/-- The machine after `kinit`. -/
def boot (kend : Nat) (m : Mem) : TableState := ⟨(Phys.reset m).kinit kend, 0, 0⟩

/-- One operation that returns, with what it writes to leaf entries. -/
inductive Step : TableState → TableOp × List PteEvent → TableState → Prop
  | uvmcreate {s : TableState} {r : Nat} {p : Phys} (hroot : s.root = 0) (h : s.phys.uvmcreate = (r, p)) :
      Step s (.uvmcreate, []) { s with phys := p, root := r }
  | walk {s : TableState} {va pte : Nat} {p : Phys} (hroot : s.root ≠ 0)
      (h : s.phys.walk s.root va true = .ok (pte, p)) : Step s (.walk va, []) { s with phys := p }
  | mappages {s : TableState} {va size pa : Nat} {perm : Perm} {evs : List PteEvent} {done : Bool} {p : Phys}
      (hroot : s.root ≠ 0) (hpa : pgsize ∣ pa) (hlt : pa < 2 ^ 64) (hperm : (perm.r || perm.w || perm.x) = true)
      (h : s.phys.mappages s.root va size pa perm = .ok (evs, done, p)) :
      Step s (.mappages va size pa perm, evs) { s with phys := p }
  | uvmunmap {s : TableState} {va npages : Nat} {doFree : Bool} {evs : List PteEvent} {p : Phys}
      (hroot : s.root ≠ 0) (h : s.phys.uvmunmap s.root va npages doFree = .ok (evs, p)) :
      Step s (.uvmunmap va npages doFree, evs) { s with phys := p, held := heldAfter doFree s.held evs }
  | uvmclear {s : TableState} {va : Nat} {evs : List PteEvent} {p : Phys} (hroot : s.root ≠ 0)
      (h : s.phys.uvmclear s.root va = .ok (evs, p)) : Step s (.uvmclear va, evs) { s with phys := p }
  | kalloc {s : TableState} {r : Nat} {p : Phys} (h : s.phys.kalloc = (r, p)) (hr : r ≠ 0) :
      Step s (.kalloc, []) { s with phys := p, held := {r} + s.held }
  | krefpage {s : TableState} {a : Nat} (ha : a ∈ s.held) (hcount : s.held.count a + 1 < 2 ^ 31) :
      Step s (.krefpage a, []) { s with phys := s.phys.krefpage a, held := {a} + s.held }
  | kfree {s : TableState} {a : Nat} (ha : a ∈ s.held) :
      Step s (.kfree a, []) { s with phys := s.phys.kfree a, held := s.held - {a} }
  | write {s : TableState} {m : Mem} (hm : ∀ pb, PageAddr pb → pb ∉ s.held → PageSame s.phys.mem m pb) :
      Step s (.write, []) { s with phys := { s.phys with mem := m } }

/-- The pages that `uvmunmap` frees are ones to which the caller holds a reference. -/
def Owned (s : TableState) (e : TableOp × List PteEvent) : Prop :=
  ∀ va npages, e.1 = .uvmunmap va npages true → unmapped e.2 ≤ s.held

def OwnedStep (s : TableState) (e : TableOp × List PteEvent) (t : TableState) : Prop := Step s e t ∧ Owned s e

/-- What is written to leaf entries in a run. -/
def events (l : List (TableOp × List PteEvent)) : List PteEvent := l.flatMap Prod.snd

lemma events_concat (l : List (TableOp × List PteEvent)) (e : TableOp × List PteEvent) :
    events (l ++ [e]) = events l ++ e.2 := by
  simp [events]

attribute [local irreducible] Table.nodes

variable {kend : Nat} {hlo : kernbase ≤ kend} {hhi : kend ≤ phystop} {s t : TableState} {evs : List PteEvent}
variable {e : TableOp × List PteEvent}

/-- There is no page table yet; or memory holds one, and its leaves are what was last written. -/
def Inv (hlo : kernbase ≤ kend) (hhi : kend ≤ phystop) (s : TableState) (evs : List PteEvent) : Prop :=
  s.root = 0 ∧ evs = [] ∧ Owns hlo hhi s.phys s.held ∨
    ∃ pt : Pagetable, pt.addr = s.root ∧ Sim hlo hhi s.phys s.held pt ∧ Maps pt evs

lemma inv_boot (hlo : kernbase ≤ kend) (hhi : kend ≤ phystop) (m : Mem) : Inv hlo hhi (boot kend m) [] := by
  obtain ⟨k, hm, hbooks⟩ := Phys.models_kinit hlo hhi m
  refine .inl ⟨rfl, rfl, k, hm, hbooks, fun pa => ?_⟩
  change Multiset.count pa 0 < 2 ^ 31
  rw [Multiset.count_zero]
  decide

/-- The table is there once it has been made. -/
lemma Inv.table (h : Inv hlo hhi s evs) (hroot : s.root ≠ 0) :
    ∃ pt : Pagetable, pt.addr = s.root ∧ Sim hlo hhi s.phys s.held pt ∧ Maps pt evs := by
  rcases h with ⟨hzero, -⟩ | h
  · exact absurd hzero hroot
  · exact h

lemma addr_ne_zero {p : Phys} {H : Multiset Nat} {pt : Pagetable} (h : Sim hlo hhi p H pt) : pt.addr ≠ 0 :=
  (h.pageAddr pt.addr_mem).pos.ne'

/-- A new page table has no leaves. -/
lemma sim_uvmcreate {p p' : Phys} {H : Multiset Nat} {r : Nat} (h : Owns hlo hhi p H) (hk : p.uvmcreate = (r, p')) :
    r = 0 ∧ p' = p ∨ Sim hlo hhi p' H (Table.zero r) ∧ Maps (Table.zero r : Pagetable) [] := by
  unfold Phys.uvmcreate at hk
  obtain ⟨q, p₁, ha⟩ : ∃ q p₁, p.kalloc = (q, p₁) := ⟨_, _, rfl⟩
  rw [ha] at hk
  dsimp only at hk
  split at hk
  · next hq =>
    cases hk
    rcases h.kalloc ha with ⟨-, hsame⟩ | ⟨hne, -⟩
    · exact .inl ⟨rfl, hsame⟩
    · exact absurd hq hne
  · next hq =>
    cases hk
    obtain ⟨-, hnot, howns, -, hzero⟩ := h.kallocZero ha hq
    have hnodes : Pagetable.nodes (Table.zero r) = {r} := by
      rw [Pagetable.nodes_def]
      exact Table.nodes_zero _ _
    have hleaf : ∀ n, Pagetable.leaf (Table.zero r) n = none := by
      intro n
      unfold Pagetable.leaf
      split <;> rfl
    refine .inr ⟨⟨?_, ?_, fun b hb => ?_, Table.shows_zero hzero, fun n q hq => ?_⟩, fun n => ?_⟩
    · rw [hnodes, add_comm]
      exact howns
    · rw [hnodes]
      exact Multiset.nodup_singleton r
    · rw [hnodes, Multiset.mem_singleton] at hb
      rw [hb]
      exact hnot
    · rw [hleaf n] at hq
      cases hq
    · rw [hleaf n]
      rfl

/-- No more pages are unmapped than were asked for. -/
lemma rounds_le (va npages : Nat) : rounds va (u64 (va + u64 (npages * pgsize))) ≤ npages := by
  have hle : u64 (va + u64 (npages * pgsize)) ≤ va + npages * pgsize :=
    (Nat.mod_le _ _).trans (Nat.add_le_add_left (Nat.mod_le _ _) va)
  unfold rounds
  generalize u64 (va + u64 (npages * pgsize)) = last at hle
  unfold pgsize at hle ⊢
  omega

/-- What an operation on the table does. -/
lemma operates_of_step {pt : Pagetable} (haddr : pt.addr = s.root) (hsim : Sim hlo hhi s.phys s.held pt)
    (hm : Maps pt evs) (hstep : OwnedStep s e t) :
    t.root = s.root ∧ ∃ pt', pt'.addr = t.root ∧ Sim hlo hhi t.phys t.held pt' ∧ Maps pt' (evs ++ e.2) ∧
      ∀ x ∈ e.2, x.page ∈ e.1.pages := by
  have hone : ∀ {p : Phys} {H : Multiset Nat} {new : List PteEvent} {first last : Nat} {op : TableOp},
      Operates hlo hhi p H pt evs new first last → (∀ n, first ≤ n → n < last → n ∈ op.pages) →
      ∃ pt', pt'.addr = s.root ∧ Sim hlo hhi p H pt' ∧ Maps pt' (evs ++ new) ∧ ∀ x ∈ new, x.page ∈ op.pages := by
    intro p H new first last op h hpages
    obtain ⟨⟨pt', hsim', haddr', hm'⟩, hrange⟩ := h
    exact ⟨pt', haddr'.trans haddr, hsim', hm', fun x hx => hpages _ (hrange x hx).1 (hrange x hx).2⟩
  have hother : ∀ {p : Phys} {H : Multiset Nat}, Sim hlo hhi p H pt → ∀ op : TableOp,
      ∃ pt', pt'.addr = s.root ∧ Sim hlo hhi p H pt' ∧ Maps pt' (evs ++ []) ∧ ∀ x ∈ ([] : List PteEvent), x.page ∈ op.pages := by
    intro p H h op
    exact ⟨pt, haddr, h, by rwa [List.append_nil], by simp⟩
  obtain ⟨hstep, howned⟩ := hstep
  cases hstep with
  | uvmcreate hroot h => exact absurd (haddr.trans hroot) (addr_ne_zero hsim)
  | @walk va pte p hroot h =>
    obtain ⟨-, hloop⟩ := walk_ok h
    rw [← haddr] at hloop
    obtain ⟨pt', hwalk⟩ := hsim.walk va true
    rw [hloop] at hwalk
    refine ⟨rfl, pt', hwalk.addr.trans haddr, hwalk.sim, fun n => ?_, by simp⟩
    rw [List.append_nil, hwalk.leaf]
    exact hm n
  | @mappages va size pa perm new done p hroot hpa hlt hperm h =>
    obtain ⟨hva, h⟩ := guard_ok h
    obtain ⟨-, h⟩ := guard_ok h
    obtain ⟨-, h⟩ := guard_ok h
    rw [← haddr] at h
    have hdvd : pgsize ∣ va := Nat.dvd_of_mod_eq_zero (by simpa using hva)
    exact ⟨rfl, hone (mappagesLoop_operates hsim hm hdvd hpa hlt hperm h) fun n hn hn' => ⟨hn, hn'⟩⟩
  | @uvmunmap va npages doFree new p hroot h =>
    obtain ⟨hva, h⟩ := guard_ok h
    rw [← haddr] at h
    have hdvd : pgsize ∣ va := Nat.dvd_of_mod_eq_zero (by simpa using hva)
    have hfree : doFree = true → unmapped new ≤ s.held := by
      rintro rfl
      exact howned va npages rfl
    have hle := rounds_le va npages
    refine ⟨rfl, hone (uvmunmapLoop_operates hsim hm hdvd hfree h) fun n hn hn' => ⟨hn, ?_⟩⟩
    omega
  | @uvmclear va new p hroot h =>
    rw [← haddr] at h
    refine ⟨rfl, hone (uvmclear_operates hsim hm h) fun n hn hn' => ?_⟩
    exact Set.mem_singleton_iff.mpr (by omega)
  | kalloc h hr => exact ⟨rfl, hother (hsim.kalloc h hr) _⟩
  | krefpage ha hcount => exact ⟨rfl, hother (hsim.krefpage ha hcount) _⟩
  | @kfree a ha =>
    have hH : {a} + (s.held - {a}) = s.held := by
      rw [Multiset.singleton_add, Multiset.sub_singleton]
      exact Multiset.cons_erase ha
    rw [← hH] at hsim
    exact ⟨rfl, hother hsim.kfree _⟩
  | write h => exact ⟨rfl, hother (hsim.write h) _⟩

/-- Before there is a page table. -/
lemma inv_of_none (hroot : s.root = 0) (howns : Owns hlo hhi s.phys s.held) (hstep : Step s e t) :
    Inv hlo hhi t e.2 := by
  cases hstep with
  | uvmcreate _ h =>
    rcases sim_uvmcreate howns h with ⟨rfl, rfl⟩ | ⟨hsim, hm⟩
    · exact .inl ⟨rfl, rfl, howns⟩
    · exact .inr ⟨_, rfl, hsim, hm⟩
  | walk hne | mappages hne | uvmunmap hne | uvmclear hne => exact absurd hroot hne
  | kalloc h hr =>
    rcases howns.kalloc h with ⟨hzero, -⟩ | ⟨-, -, -, howns', -⟩
    · exact absurd hzero hr
    · exact .inl ⟨hroot, rfl, howns'⟩
  | krefpage ha hcount => exact .inl ⟨hroot, rfl, howns.krefpage ha hcount⟩
  | @kfree a ha =>
    have hH : {a} + (s.held - {a}) = s.held := by
      rw [Multiset.singleton_add, Multiset.sub_singleton]
      exact Multiset.cons_erase ha
    rw [← hH] at howns
    exact .inl ⟨hroot, rfl, howns.kfree.1⟩
  | write h => exact .inl ⟨hroot, rfl, howns.write h⟩

lemma Inv.step (h : Inv hlo hhi s evs) (hstep : OwnedStep s e t) : Inv hlo hhi t (evs ++ e.2) := by
  rcases h with ⟨hroot, rfl, howns⟩ | ⟨pt, haddr, hsim, hm⟩
  · exact inv_of_none hroot howns hstep.1
  · obtain ⟨-, pt', haddr', hsim', hm', -⟩ := operates_of_step haddr hsim hm hstep
    exact .inr ⟨pt', haddr', hsim', hm'⟩

lemma inv_of_steps (hlo : kernbase ≤ kend) (hhi : kend ≤ phystop) {m : Mem} {l : List (TableOp × List PteEvent)}
    (h : Steps OwnedStep (boot kend m) l s) : Inv hlo hhi s (events l) := by
  generalize hboot : boot kend m = s₀ at h
  induction h with
  | nil =>
    subst hboot
    exact inv_boot hlo hhi m
  | snoc _ hstep ih =>
    rw [events_concat]
    exact ih.step hstep

end TableState

open TableState

namespace TableState

/-- The state after an operation, if it returns and writes these entries; only some operations. -/
def next (s : TableState) : TableOp × List PteEvent → Option TableState
  | (.uvmcreate, []) => if s.root = 0 then some { s with phys := s.phys.uvmcreate.2, root := s.phys.uvmcreate.1 } else none
  | (.mappages va size pa perm, evs) =>
    match s.phys.mappages s.root va size pa perm with
    | .ok (new, _, p) =>
      if s.root ≠ 0 ∧ pgsize ∣ pa ∧ pa < 2 ^ 64 ∧ (perm.r || perm.w || perm.x) = true ∧ new = evs then
        some { s with phys := p }
      else none
    | .error _ => none
  | (.uvmunmap va npages doFree, evs) =>
    match s.phys.uvmunmap s.root va npages doFree with
    | .ok (new, p) =>
      if s.root ≠ 0 ∧ new = evs then some { s with phys := p, held := heldAfter doFree s.held evs } else none
    | .error _ => none
  | _ => none

lemma step_of_next {s t : TableState} {e : TableOp × List PteEvent} (h : s.next e = some t) : Step s e t := by
  unfold next at h
  split at h
  · split at h
    · next hroot =>
      cases h
      exact .uvmcreate hroot rfl
    · cases h
  · split at h
    · next hok =>
      split at h
      · next hguard =>
        obtain ⟨hroot, hpa, hlt, hperm, rfl⟩ := hguard
        cases h
        exact .mappages hroot hpa hlt hperm hok
      · cases h
    · cases h
  · split at h
    · next hok =>
      split at h
      · next hguard =>
        obtain ⟨hroot, rfl⟩ := hguard
        cases h
        exact .uvmunmap hroot hok
      · cases h
    · cases h
  · cases h

lemma exists_run {s : TableState} {l : List (TableOp × List PteEvent)} {p : TableState → Bool}
    (h : (l.foldlM next s).any p = true) : ∃ t, Steps Step s l t ∧ p t = true := by
  cases ht : l.foldlM next s with
  | none =>
    rw [ht] at h
    cases h
  | some t =>
    rw [ht] at h
    exact ⟨t, Steps.of_foldlM (fun _ _ _ hnext => step_of_next hnext) ht, h⟩

end TableState

end FogOS.Kernel
