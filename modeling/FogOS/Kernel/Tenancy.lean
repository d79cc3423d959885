import FogOS.Kernel.Inherit
import FogOS.Kernel.Machine

/-!
# Who holds which page

The invariant of the process table: the allocator's books list what the kernel itself holds and
what the processes hold, two processes have only pages of their mmap regions in common, and every
process in use has an address space that can be taken down. Every call replaces processes by new
versions of themselves, so there is one rule for that.
-/

namespace FogOS.Kernel

open ByteMem Ledger

variable {V : Arena} {held : Multiset Nat} {floor : Nat} {s t : State} {i j : Fin nproc} {p : Proc}

/-- A slot that is not in use holds nothing. -/
structure Proc.Vacant (p : Proc) : Prop where
  pagetable : p.pagetable = none
  trapframe : p.trapframe = none
  sz : p.sz = 0

lemma Proc.Vacant.refs (h : p.Vacant) : p.refs = 0 := by
  rw [Proc.refs, h.pagetable, h.trapframe]
  rfl

/-- What holds of the process table between calls. `held` is what the kernel itself refers to. -/
structure Good (floor : Nat) (V : Arena) (held : Multiset Nat) (s : State) : Prop where
  books : s.kmem.Books V (held + ∑ i, (s.proc i).refs)
  kernel : ∀ x ∈ held, ∀ i, x ∉ (s.proc i).refs
  nodup : ∀ i, (s.proc i).refs.Nodup
  apart : ∀ i j x, i ≠ j → x ∈ (s.proc i).refs → x ∈ (s.proc j).refs →
    ∃ n, (s.proc i).Shares n x ∧ (s.proc j).Shares n x
  unused : ∀ i, (s.proc i).state = .UNUSED → (s.proc i).Vacant
  used : ∀ i, (s.proc i).state ≠ .UNUSED → ∃ pt tf, Space floor s.trampoline (s.proc i) pt tf

/-- Everything that is referred to by others than process `i`. -/
noncomputable def others (held : Multiset Nat) (s : State) (i : Fin nproc) : Multiset Nat :=
  held + ∑ j ∈ Finset.univ.erase i, (s.proc j).refs

lemma others_add (held : Multiset Nat) (s : State) (i : Fin nproc) :
    others held s i + (s.proc i).refs = held + ∑ j, (s.proc j).refs := by
  rw [others, add_assoc, Finset.sum_erase_add _ _ (Finset.mem_univ i)]

lemma mem_others {x : Nat} :
    x ∈ others held s i ↔ x ∈ held ∨ ∃ j, j ≠ i ∧ x ∈ (s.proc j).refs := by
  rw [others, Multiset.mem_add, Multiset.mem_sum]
  simp

namespace Good

lemma books_others (h : Good floor V held s) (i : Fin nproc) :
    s.kmem.Books V (others held s i + (s.proc i).refs) := by
  rw [others_add]
  exact h.books

/-- Process `i` is replaced by `p`, which has only mmap pages in common with others. -/
lemma put (h : Good floor V held s) (hproc : t.proc = Function.update s.proc i p)
    (htramp : t.trampoline = s.trampoline) (hB : t.kmem.Books V (others held s i + p.refs))
    (hnodup : p.refs.Nodup) (hkernel : ∀ x ∈ held, x ∉ p.refs)
    (hshare : ∀ j x, j ≠ i → x ∈ (s.proc j).refs → x ∈ p.refs →
      ∃ n, (s.proc j).Shares n x ∧ p.Shares n x)
    (hunused : p.state = .UNUSED → p.Vacant)
    (hused : p.state ≠ .UNUSED → ∃ pt tf, Space floor s.trampoline p pt tf) :
    Good floor V held t := by
  have hself : t.proc i = p := by rw [hproc, Function.update_self]
  have hother : ∀ j, j ≠ i → t.proc j = s.proc j := by
    intro j hj
    rw [hproc, Function.update_of_ne hj]
  refine ⟨?_, fun x hx j => ?_, fun j => ?_, fun j l x hjl hj hl => ?_, fun j hj => ?_, fun j hj => ?_⟩
  · have hothers : others held t i = others held s i := by
      rw [others, others]
      refine congrArg (held + ·) (Finset.sum_congr rfl fun j hj => ?_)
      rw [hother j (Finset.ne_of_mem_erase hj)]
    rw [← others_add held t i, hself, hothers]
    exact hB
  · by_cases hj : j = i
    · rw [hj, hself]
      exact hkernel x hx
    · rw [hother j hj]
      exact h.kernel x hx j
  · by_cases hj : j = i
    · rw [hj, hself]
      exact hnodup
    · rw [hother j hj]
      exact h.nodup j
  · by_cases hji : j = i
    · have hli : l ≠ i := fun hli => hjl (hji.trans hli.symm)
      rw [hji, hself] at hj ⊢
      rw [hother l hli] at hl ⊢
      obtain ⟨n, hn, hn'⟩ := hshare l x hli hl hj
      exact ⟨n, hn', hn⟩
    · rw [hother j hji] at hj ⊢
      by_cases hli : l = i
      · rw [hli, hself] at hl ⊢
        exact hshare j x hji hj hl
      · rw [hother l hli] at hl ⊢
        exact h.apart j l x hjl hj hl
  · by_cases hji : j = i
    · rw [hji, hself] at hj ⊢
      exact hunused hj
    · rw [hother j hji] at hj ⊢
      exact h.unused j hj
  · rw [htramp]
    by_cases hji : j = i
    · rw [hji, hself] at hj ⊢
      exact hused hj
    · rw [hother j hji] at hj ⊢
      exact h.used j hj

/-- Process `i` is replaced by `p`, which has traded its pages and kept its mmap region. -/
lemma replace (h : Good floor V held s) (hproc : t.proc = Function.update s.proc i p)
    (htramp : t.trampoline = s.trampoline) (htr : s.kmem.Trades V t.kmem (s.proc i).refs p.refs)
    (hkeep : ∀ n x, (s.proc i).Shares n x → x ∈ p.refs → p.Shares n x)
    (hunused : p.state = .UNUSED → p.Vacant)
    (hused : p.state ≠ .UNUSED → ∃ pt tf, Space floor s.trampoline p pt tf) :
    Good floor V held t := by
  have hB := h.books_others i
  refine h.put hproc htramp (htr.accounts hB) (htr.nodup hB (h.nodup i)) (fun x hx => ?_)
    (fun j x hj hx hmem => ?_) hunused hused
  · exact htr.notMem hB (mem_others.mpr (Or.inl hx)) (h.kernel x hx i)
  · -- what comes in was not known to others, so the page was in common before
    have hold : x ∈ (s.proc i).refs := by
      by_contra hnot
      exact htr.notMem hB (mem_others.mpr (Or.inr ⟨j, hj, hx⟩)) hnot hmem
    obtain ⟨n, hn, hn'⟩ := h.apart j i x hj hx hold
    exact ⟨n, hn, hkeep n x hn' hmem⟩

end Good

/-! ### Calls that leave the memory alone -/

/-- The memory of a process. -/
structure SameMem (p q : Proc) : Prop where
  pagetable : q.pagetable = p.pagetable
  trapframe : q.trapframe = p.trapframe
  sz : q.sz = p.sz
  mmap : q.mmap = p.mmap
  hasMmap : q.hasMmap = p.hasMmap
  unused : q.state = .UNUSED ↔ p.state = .UNUSED

namespace SameMem

variable {q : Proc}

lemma refl (p : Proc) : SameMem p p := ⟨rfl, rfl, rfl, rfl, rfl, Iff.rfl⟩

lemma refs (h : SameMem p q) : q.refs = p.refs := by rw [Proc.refs, Proc.refs, h.pagetable, h.trapframe]

lemma low (h : SameMem p q) : q.low = p.low := by rw [Proc.low, Proc.low, h.mmap]

lemma shares (h : SameMem p q) {n x : Nat} (hp : p.Shares n x) : q.Shares n x := by
  rw [Proc.Shares, h.hasMmap, h.low, h.pagetable]
  exact hp

lemma space {tramp tf : Nat} {pt : Pagetable} (h : SameMem p q) (hp : Space floor tramp p pt tf) :
    Space floor tramp q pt tf := by
  obtain ⟨hpt, htf, htop, hsz, hheap, halign, hapart, hregion, huser, hidle⟩ := hp
  refine ⟨h.pagetable.trans hpt, h.trapframe.trans htf, htop, ?_, ?_, ?_, ?_, ?_, ?_, ?_⟩
  · rwa [h.sz]
  · rwa [h.sz]
  · rwa [h.mmap, h.low]
  · rwa [h.hasMmap, h.sz, h.low]
  · rwa [h.hasMmap, h.low]
  · rwa [h.sz, h.hasMmap, h.low]
  · rwa [h.hasMmap, h.mmap]

end SameMem

lemma Good.congr (h : Good floor V held s) (hk : t.kmem = s.kmem) (htramp : t.trampoline = s.trampoline)
    (hproc : ∀ i, SameMem (s.proc i) (t.proc i)) : Good floor V held t := by
  have hrefs : ∀ i, (t.proc i).refs = (s.proc i).refs := fun i => (hproc i).refs
  refine ⟨?_, fun x hx i => ?_, fun i => ?_, fun i j x hij hi hj => ?_, fun i hi => ?_, fun i hi => ?_⟩
  · rw [hk, Finset.sum_congr rfl fun i _ => hrefs i]
    exact h.books
  · rw [hrefs]
    exact h.kernel x hx i
  · rw [hrefs]
    exact h.nodup i
  · rw [hrefs] at hi hj
    obtain ⟨n, hn, hn'⟩ := h.apart i j x hij hi hj
    exact ⟨n, (hproc i).shares hn, (hproc j).shares hn'⟩
  · obtain ⟨hpt, htf, hsz⟩ := h.unused i ((hproc i).unused.mp hi)
    exact ⟨(hproc i).pagetable.trans hpt, (hproc i).trapframe.trans htf, (hproc i).sz.trans hsz⟩
  · obtain ⟨pt, tf, hsp⟩ := h.used i fun hu => hi ((hproc i).unused.mpr hu)
    rw [htramp]
    exact ⟨pt, tf, (hproc i).space hsp⟩

end FogOS.Kernel
