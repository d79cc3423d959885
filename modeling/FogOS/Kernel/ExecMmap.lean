import FogOS.Kernel.HeapLimit

/-!
# exec and the mmap region

`kexec` forgets the mmap region of the process before it is done: it frees the old address space
up to the old size only, and a failure after the reset leaves the process without the fields by
which its mmap pages are found.
-/

namespace FogOS.Kernel

open ByteMem Ledger

variable {V : Arena} {held : Multiset Nat} {s t u : State} {i : Fin nproc} {floor : Nat}
  {path : CStr} {argv : List CStr}

/-! ### Executing a program -/

/-- A process has mmap pages exactly if `has_mmap` is set. -/
lemma Space.hasMmap_iff {tramp tf : Nat} {p : Proc} {pt : Pagetable} (h : Space floor tramp p pt tf) :
    p.hasMmap = true ↔ ∃ n x, p.MmapPage n x := by
  constructor
  · intro hhas
    obtain ⟨-, hlow⟩ := h.apart hhas
    obtain ⟨pa, hpa⟩ := h.region hhas (p.low + 1) (by omega) hlow
    exact ⟨p.low + 1, _, hhas, by omega, hlow, pt, _, h.pagetable, hpa, rfl⟩
  · rintro ⟨n, x, hhas, -⟩
    exact hhas

/-- The image is committed to exactly if the process has no mmap page. -/
lemma commit_iff {r : Ready} (h : Good floor V held s) (hi : (s.proc i).state ≠ .UNUSED)
    (hprep : kexecPrepare s i path argv = .ok (some r, u)) :
    (∃ w, commitImage u i r = .ok w) ↔ (s.proc i).hasMmap = false := by
  have htf := tfPage_eq
  obtain ⟨old, tf, hsp⟩ := h.used i hi
  have hsize := hsp.size
  cases kexecPrepare_ok h.books hsp.pagetable hsp.trapframe hprep with
  | @ready _ k fs htr hb hpos hold =>
    obtain ⟨va, hva⟩ : ∃ va, va = trapframeVa - pgsize := ⟨_, rfl⟩
    rw [← hva]
    have hself : ({ s.setProc i ((s.proc i).reset va) with kmem := k, fs := fs } : State).proc i =
        (s.proc i).reset va := s.setProc_self i _
    obtain ⟨m, hcommit⟩ := commitImage_ok (r := r)
      (s := { s.setProc i ((s.proc i).reset va) with kmem := k, fs := fs })
      ((congrArg Proc.pagetable hself).trans hsp.pagetable) ((congrArg Proc.trapframe hself).trans hsp.trapframe)
    rw [hcommit]
    have hfree : (∃ k', procFreepagetable (k.setPage tf m) old r.oldsz = .ok k') ↔ (s.proc i).hasMmap = false := by
      rw [hold, procFreepagetable_iff hsp.top (by omega)]
      constructor
      · intro hnone
        by_contra hhas
        obtain ⟨hlow, hlt⟩ := hsp.apart (by simpa using hhas)
        obtain ⟨pa, hpa⟩ := hsp.region (by simpa using hhas) ((s.proc i).low + 1) (by omega) hlt
        rw [hnone _ hlow hlt] at hpa
        cases hpa
      · intro hhas n hn hlt
        by_contra hne
        rcases hsp.user n hlt hne with hlt' | ⟨hhas', -⟩
        · omega
        · rw [hhas] at hhas'
          cases hhas'
    rw [← hfree]
    constructor
    · rintro ⟨w, hw⟩
      obtain ⟨k', hk', -⟩ := bind_ok hw
      exact ⟨k', hk'⟩
    · rintro ⟨k', hk'⟩
      refine ⟨{ s.setProc i (((s.proc i).reset va).execd r) with kmem := k', fs := fs }, ?_⟩
      change (procFreepagetable (k.setPage tf m) old r.oldsz >>= _) = _
      rw [hk', ok_bind, hself]
      refine congrArg Except.ok ?_
      unfold State.setProc
      simp

/-- For every state that mmap, fork, exit and wait lead to from an exec'd process, and every `kexec`
that has its image ready: it returns, with one reference less to every former mmap page and with
those pages freed that no other process maps, exactly if the process has no mmap page. -/
theorem exec_drops_mmap_iff {l : List Label} {r : Ready} (h : Execd V held s)
    (hrun : Runs (fun _ e => e.call.Sharing) s l t) (hi : (t.proc i).state.Alive)
    (hprep : kexecPrepare t i path argv = .ok (some r, u)) :
    (∃ w, kexec t i path argv = .ok ((r.argc : Int), w) ∧ ∀ n x, (t.proc i).MmapPage n x →
      w.kmem.refCount (pa2idx x) = t.kmem.refCount (pa2idx x) - 1 ∧
      (x ∈ w.kmem.freelist ↔ ∀ j, j ≠ i → ¬ (t.proc j).Maps x)) ↔
    ∀ n x, ¬ (t.proc i).MmapPage n x := by
  have ht : Tenants V held t :=
    hrun.invariant h.tenants fun s e t hs ⟨he, hstep⟩ => hs.step hstep he.settled
  obtain ⟨pt, tf, hsp⟩ := ht.good.used i hi.used
  have hhas : (∀ n x, ¬ (t.proc i).MmapPage n x) ↔ (t.proc i).hasMmap = false := by
    have hiff := hsp.hasMmap_iff
    constructor
    · intro hnone
      by_contra htrue
      obtain ⟨n, x, hm⟩ := hiff.mp (by simpa using htrue)
      exact hnone n x hm
    · intro hfalse n x hm
      rw [hiff.mpr ⟨n, x, hm⟩] at hfalse
      cases hfalse
  have hexec : ∀ w, kexec t i path argv = .ok ((r.argc : Int), w) ↔ commitImage u i r = .ok w := by
    intro w
    unfold kexec
    rw [hprep, ok_bind]
    dsimp only
    constructor
    · intro hk
      obtain ⟨w', hcommit, hk⟩ := bind_ok hk
      obtain ⟨-, rfl⟩ := Prod.mk.inj (pure_ok hk)
      exact hcommit
    · intro hcommit
      rw [hcommit]
      rfl
  constructor
  · rintro ⟨w, hw, -⟩
    exact hhas.mpr ((commit_iff ht.good hi.used hprep).mp ⟨w, (hexec w).mp hw⟩)
  · intro hnone
    obtain ⟨w, hw⟩ := (commit_iff ht.good hi.used hprep).mpr (hhas.mp hnone)
    exact ⟨w, (hexec w).mpr hw, fun n x hm => absurd hm (hnone n x)⟩

/-- What `kexec` has prepared, if it is ready to commit. -/
def readied (x : Except Stop (Option Ready × State)) : Option (Ready × State) :=
  match x with
  | .ok (some r, s) => some (r, s)
  | _ => none

lemma exists_readied {x : Except Stop (Option Ready × State)} (h : (readied x).isSome = true) :
    ∃ r u, x = .ok (some r, u) := by
  unfold readied at h
  split at h
  · exact ⟨_, _, rfl⟩
  · cases h

-- What executing the program again does, without and with an mmap page.
lemma again_facts :
    ((∀ i, (firstProgram.proc i).state ≠ .UNUSED → i = 0) ∧ firstProgram.trampoline = kernbase + pgsize) ∧
    (readied (kexecPrepare firstProgram 0 programPath [])).isSome = true ∧
    (readied (kexecPrepare programMaps 0 programPath [])).isSome = true ∧
      stopped (kexec programMaps 0 programPath []) = some (.panic .freewalkLeaf) := by
  decide +kernel

lemma execd_firstProgram : Execd (freshArena 24) 0 firstProgram := by
  obtain ⟨hstate, hhas, hexec⟩ := exec_program
  obtain ⟨-, hsz, hmmap, hhas', -⟩ := firstProgram_proc
  obtain ⟨honly, htramp⟩ := again_facts.1
  have hgood : Good 0 (freshArena 24) 0 firstProgram :=
    (kexec_good boots_booted_24.good (by rw [hstate]; simp) hhas hexec).1
  refine ⟨⟨hgood, fun i hi => ?_, fun hmem => ?_⟩, fun i hi => ?_⟩
  · rw [honly i hi, hsz]
    decide
  · rw [htramp] at hmem
    obtain ⟨i, -, hi⟩ := List.mem_map.mp hmem.1
    simp only [kernbase, pgsize] at hi
    omega
  · rw [honly i hi]
    exact ⟨hhas', hmmap⟩

/-- The theorem for a process without mmap pages that executes its program again. -/
theorem exec_drops_mmap_again : ∃ r w, kexec firstProgram 0 programPath [] = .ok (r, w) ∧
    ∀ n x, ¬ (firstProgram.proc 0).MmapPage n x := by
  obtain ⟨hstate, -, -, hfalse, -⟩ := firstProgram_proc
  have hnone : ∀ n x, ¬ (firstProgram.proc 0).MmapPage n x := by
    rintro n x ⟨hhas, -⟩
    rw [hfalse] at hhas
    cases hhas
  obtain ⟨r, u, hprep⟩ := exists_readied again_facts.2.1
  obtain ⟨w, hw, -⟩ := (exec_drops_mmap_iff execd_firstProgram (.nil _) (by rw [hstate]; exact trivial) hprep).mpr hnone
  exact ⟨_, w, hw, hnone⟩

/-- With an mmap page it ends in `freewalk: leaf`. -/
theorem exec_meets_leaf : ∃ va : Int, Execd (freshArena 24) 0 firstProgram ∧
    Runs (fun _ e => e.call.Sharing) firstProgram [⟨0, .mmap, va⟩] programMaps ∧
    (∃ r u, kexecPrepare programMaps 0 programPath [] = .ok (some r, u)) ∧
    kexec programMaps 0 programPath [] = .error (.panic .freewalkLeaf) := by
  obtain ⟨hstate, -⟩ := firstProgram_proc
  obtain ⟨hready, hstop⟩ := again_facts.2.2
  refine ⟨_, execd_firstProgram, .cons ⟨trivial, .mmap ?_ program_maps.1⟩ (.nil _), exists_readied hready, eq_error hstop⟩
  rw [hstate]
  exact trivial

/-! ### Little memory -/

/-- With 17 pages, a process that has executed the program -/
def scarceProgram : State := (returned (kexec (booted 17) 0 programPath [])).2

/-- and mapped a page. -/
def scarceMaps : State := (returned (sysMmap scarceProgram 0)).2

lemma scarceProgram_facts : (userinit { freshKernel 17 with fs := programFs }).isOk = true ∧
    ((booted 17).proc 0).state ≠ .UNUSED ∧ ((booted 17).proc 0).hasMmap = false ∧
    (kexec (booted 17) 0 programPath []).isOk = true ∧ (scarceProgram.proc 0).state ≠ .UNUSED ∧
    (scarceProgram.proc 0).mmap ≠ 0 := by
  decide +kernel

lemma good_scarceMaps : Good 0 (freshArena 17) 0 scarceMaps := by
  have htf := tfPage_eq
  have hnp := npages_eq
  obtain ⟨hinit, hused, hhas, hok, hused', hmmap⟩ := scarceProgram_facts
  have hboots : Boots (freshArena 17) 0 (booted 17) := boots_booted (by decide) hinit
  have hexec : kexec (booted 17) 0 programPath [] = .ok (_, scarceProgram) := eq_ok_pair hok rfl
  have hgood : Good 0 (freshArena 17) 0 scarceProgram := (kexec_good hboots.good hused hhas hexec).1
  obtain ⟨r, t, hmap, hgood', -⟩ := sysMmap_total hgood (by omega) hused' hmmap
  have heq : scarceMaps = t := by
    unfold scarceMaps
    rw [hmap]
    unfold returned
    rfl
  rw [heq]
  exact hgood'

end FogOS.Kernel
