import FogOS.Kernel.Shared

/-!
# The heap below the mmap region

Eager growth and mmap are limited by physical memory, lazy growth by nothing. As long as lazy
growth leaves as many pages below the trapframe as there are in the machine, heap and mmap region
never meet: whoever grows runs out of memory first. Processes come from the first one by fork;
`exec` is left to those without mmap pages.
-/

namespace FogOS.Kernel

open ByteMem Ledger

variable {V : Arena} {held : Multiset Nat} {s t u : State} {i j : Fin nproc}

/-- The size in pages that lazy growth may reach. -/
@[irreducible] def heapMax : Nat := tfPage - npages - 2

lemma heapMax_add : heapMax + npages + 2 = tfPage := by
  have htf := tfPage_eq
  have hnp := npages_eq
  unfold heapMax
  omega

/-- Lazy growth stays within bounds, only a process whose mmap region has been placed maps pages,
and only a process without mmap pages executes a program. -/
def Confined (s : State) (e : Label) : Prop :=
  match e.call with
  | .sbrk n false => 0 ≤ n → pages ((s.proc e.who).sz + n.toNat) ≤ heapMax
  | .mmap => (s.proc e.who).mmap ≠ 0
  | .exec _ _ => (s.proc e.who).hasMmap = false
  | _ => True

/-! ### The invariant -/

lemma Good.sbrk {n : Int} {eager : Bool} {r : Int} (h : Good heapMax V held s)
    (hi : (s.proc i).state ≠ .UNUSED)
    (hn : eager = false → 0 ≤ n → pages ((s.proc i).sz + n.toNat) ≤ heapMax)
    (hs : sysSbrk s i n eager = .ok (r, t)) :
    Good heapMax V held t ∧ ∃ pt sz k, t = s.resized i pt sz k := by
  have htotal : ∃ r pt sz k, sysSbrk s i n eager = .ok (r, s.resized i pt sz k) ∧
      Good heapMax V held (s.resized i pt sz k) := by
    refine sysSbrk_total h heapMax_add.le hi fun heager hpos _ => ?_
    exact (pages_mono (Nat.mod_le _ _)).trans (hn heager hpos)
  obtain ⟨r', pt, sz, k, hrun, hgood⟩ := htotal
  obtain ⟨-, rfl⟩ := Prod.mk.inj (Except.ok.inj (hrun.symm.trans hs))
  exact ⟨hgood, pt, sz, k, rfl⟩

/-- A call within bounds keeps the invariant. -/
lemma Good.confined {e : Label} (h : Good heapMax V held s) (hc : Confined s e) (hs : Syscall s e t) :
    Good heapMax V held t := by
  by_cases hplain : e.call.Plain
  · exact (h.plain hs hplain).1
  · cases hs with
    | mmap hi hm =>
      obtain ⟨r, t', hrun, hgood, -, -⟩ := sysMmap_total h heapMax_add.le hi.used hc
      obtain ⟨-, rfl⟩ := Prod.mk.inj (Except.ok.inj (hrun.symm.trans hm))
      exact hgood
    | @sbrk _ i n r eager hi hn hm =>
      refine (h.sbrk hi.used (fun heager => ?_) hm).1
      subst heager
      exact hc
    | exec hi hx => exact (kexec_good h hi.used hc hx).1
    | fork => exact absurd trivial hplain
    | fault => exact absurd trivial hplain
    | exit => exact absurd trivial hplain
    | wait => exact absurd trivial hplain
    | kill => exact absurd trivial hplain
    | nice => exact absurd trivial hplain
    | stracing => exact absurd trivial hplain

lemma Boots.good {floor : Nat} (h : Boots V held s) : Good floor V held s := by
  obtain ⟨s₀, hidle, hinit⟩ := h
  exact (userinit_good hidle.good hinit).1

lemma Boots.confined {l : List Label} (h : Boots V held s) (hrun : Runs Confined s l t) :
    Good heapMax V held t :=
  hrun.invariant h.good fun _ _ _ hs ⟨hc, hstep⟩ => hs.confined hc hstep

/-! ### Nothing is met -/

lemma pageFault_total {floor : Nat} (h : Good floor V held s) (hi : (s.proc i).state ≠ .UNUSED) (va : Nat) :
    ∃ r, pageFault s i va = .ok r := by
  obtain ⟨pt, tf, hsp⟩ := h.used i hi
  obtain ⟨mem, k, pt', hfault⟩ := vmfault_total hsp.size va s.kmem pt
  have hderef : deref (s.proc i).pagetable = .ok pt := by rw [hsp.pagetable]; rfl
  unfold pageFault
  dsimp only
  rw [hderef, ok_bind, hfault, ok_bind]
  exact ⟨_, rfl⟩

/-- `uvmcopy` to the page table that `allocproc` has made for the child. -/
lemma uvmcopy_total {floor : Nat} {pt npt : Pagetable} (h : Good floor V held s)
    (hi : (s.proc i).state ≠ .UNUSED) (hj : (s.proc j).state = .UNUSED)
    (hinit : initSlot s j = .ok (true, u)) (hpt : (s.proc i).pagetable = some pt)
    (hnpt : (u.proc j).pagetable = some npt) : ∃ r, uvmcopy u.kmem pt npt (s.proc i).sz = .ok r := by
  have hij : i ≠ j := fun he => hi (he ▸ hj)
  have hvacant := h.unused j hj
  obtain ⟨pt₀, tf, hsp⟩ := h.used i hi
  obtain rfl : pt₀ = pt := Option.some.inj (hsp.pagetable.symm.trans hpt)
  have hgood := initSlot_good h hj hinit
  obtain ⟨q, hu, htr, npt₀, ntf, hblank, hq⟩ := initSlot_slot (V := V) hvacant hinit
  have hself : u.proc j = q := by
    rw [hu]
    exact s.setProc_self j q
  obtain rfl : npt₀ = npt := by
    rw [hself, hq] at hnpt
    exact Option.some.inj hnpt
  have hrefs : q.refs = {ntf} + npt₀.refs := Proc.refs_some (by rw [hq]) (by rw [hq])
  have hB := hgood.books_others j
  have hnodup := hgood.nodup j
  rw [hself, hrefs, Multiset.nodup_add] at hnodup
  rw [hself, hrefs, ← add_assoc] at hB
  have hothers : others held u j = others held s j := by
    refine others_congr fun l hl => ?_
    rw [hu]
    exact s.setProc_of_ne hl q
  have hBs := h.books_others j
  rw [hvacant.refs] at hBs
  have hfresh : ∀ x ∈ others held u j + {ntf}, x ∉ npt₀.refs := by
    intro x hx hmem
    rcases Multiset.mem_add.mp hx with hx | hx
    · rw [hothers] at hx
      refine htr.notMem hBs hx (Multiset.notMem_zero x) ?_
      rw [hrefs]
      exact Multiset.mem_add.mpr (Or.inr hmem)
    · exact Multiset.disjoint_left.mp hnodup.2.2 hx hmem
  have hknown : ∀ m q, m < tfPage → pt₀.leaf m = some q → q.pa ∈ others held u j + {ntf} := by
    intro m q hm hq
    rw [hothers]
    refine Multiset.mem_add.mpr (Or.inl (mem_others.mpr (Or.inr ⟨i, hij, ?_⟩)))
    rw [hsp.refs]
    exact Multiset.mem_add.mpr (Or.inr (mem_refs hm hq))
  obtain ⟨b, k', new', hcopy, -⟩ := uvmcopy_ok hsp.size hblank hknown hB hnodup.2.1 hfresh
  exact ⟨_, hcopy⟩

/-- The heap of a process ends below its mmap region. -/
lemma Space.heap_le {floor tramp tf : Nat} {p : Proc} {pt : Pagetable} (h : Space floor tramp p pt tf) :
    pgRoundUp p.sz ≤ trapframeVa ∧ ∀ n x, p.MmapPage n x → pgRoundUp p.sz ≤ n * pgsize := by
  have htf := tfPage_eq
  have hsize := h.size
  rw [pgRoundUp_eq (by omega), trapframeVa_eq]
  refine ⟨Nat.mul_le_mul_right _ hsize, fun n x hm => ?_⟩
  obtain ⟨hhas, hlow, -⟩ := hm
  have := (h.apart hhas).1
  exact Nat.mul_le_mul_right _ (by omega)

/-- In every run from the first process whose calls are confined, every process has its heap below
its mmap region and below the trapframe; growing it, faulting on it, freeing it and copying it to a
child reach no panic. -/
theorem heap_below_mmap {l : List Label} (h : Boots V held s) (hrun : Runs Confined s l t)
    (hi : (t.proc i).state ≠ .UNUSED) :
    pgRoundUp (t.proc i).sz ≤ trapframeVa ∧
    (∀ n x, (t.proc i).MmapPage n x → pgRoundUp (t.proc i).sz ≤ n * pgsize) ∧
    (∀ n, ∃ r, growproc t i n = .ok r) ∧ (∀ va, ∃ r, pageFault t i va = .ok r) ∧
    (∃ r, freeproc t.kmem (t.proc i) = .ok r) ∧
    ∀ j u pt npt, (t.proc j).state = .UNUSED → initSlot t j = .ok (true, u) →
      (t.proc i).pagetable = some pt → (u.proc j).pagetable = some npt →
      ∃ r, uvmcopy u.kmem pt npt (t.proc i).sz = .ok r := by
  have hgood := h.confined hrun
  obtain ⟨pt, tf, hsp⟩ := hgood.used i hi
  obtain ⟨htop, hmmap⟩ := hsp.heap_le
  refine ⟨htop, hmmap, fun n => ?_, fun va => pageFault_total hgood hi va, ?_, fun j u pt npt hj hinit hpt hnpt =>
    uvmcopy_total hgood hi hj hinit hpt hnpt⟩
  · obtain ⟨r, pt', sz, k, hgrow, -⟩ := growproc_total hgood heapMax_add.le hi n
    exact ⟨_, hgrow⟩
  · obtain ⟨k, hfree, -⟩ := freeproc_total (hsp.freeable (hgood.books_others i)).reclaimable t.kmem
    exact ⟨_, hfree⟩

/-! ### The next mmap page -/

/-- The process is still there, and its mmap region does not end higher. -/
structure Kept (p q : Proc) : Prop where
  alive : q.state.Alive
  mmap : q.mmap ≤ p.mmap

lemma Kept.of_eq {p q : Proc} (hp : p.state.Alive) (hstate : q.state = p.state) (hmmap : q.mmap = p.mmap) :
    Kept p q :=
  ⟨hstate ▸ hp, hmmap.le⟩

lemma Kept.setProc {p : Proc} (hi : (s.proc i).state.Alive) (hstate : p.state = (s.proc j).state)
    (hmmap : p.mmap = (s.proc j).mmap) : Kept (s.proc i) ((s.setProc j p).proc i) := by
  by_cases hij : i = j
  · subst hij
    rw [State.setProc_self]
    exact .of_eq hi hstate hmmap
  · rw [State.setProc_of_ne s hij]
    exact ⟨hi, le_rfl⟩

lemma Repaged.mmap (h : Repaged s i t) (l : Fin nproc) : (t.proc l).mmap = (s.proc l).mmap := by
  by_cases hl : l = i
  · subst hl
    cases h with
    | same => rfl
    | repaged hpt hf => rw [State.repaged_self]
  · rw [h.other hl]

lemma Prepares.other {tf : Nat} {r : Option Ready} (h : Prepares V s i tf r t) (hj : j ≠ i) : t.proc j = s.proc j := by
  cases h with
  | missed => rfl
  | undone => exact s.setProc_of_ne hj _
  | ready => exact s.setProc_of_ne hj _

lemma kexec_other {path : CStr} {argv : List CStr} {r : Int} {floor : Nat} (h : Good floor V held s)
    (hi : (s.proc i).state ≠ .UNUSED) (hj : j ≠ i) (hx : kexec s i path argv = .ok (r, t)) :
    t.proc j = s.proc j := by
  obtain ⟨pt, tf, hsp⟩ := h.used i hi
  unfold kexec at hx
  obtain ⟨⟨found, u⟩, hprep, hx⟩ := bind_ok hx
  have hother := (kexecPrepare_ok h.books hsp.pagetable hsp.trapframe hprep).other hj
  cases found with
  | none =>
    obtain ⟨-, rfl⟩ := Prod.mk.inj (pure_ok hx)
    exact hother
  | some r =>
    obtain ⟨t', hcommit, hx⟩ := bind_ok hx
    obtain ⟨-, rfl⟩ := Prod.mk.inj (pure_ok hx)
    unfold commitImage at hcommit
    obtain ⟨tf', -, hcommit⟩ := bind_ok hcommit
    obtain ⟨old, -, hcommit⟩ := bind_ok hcommit
    obtain ⟨k, -, hcommit⟩ := bind_ok hcommit
    obtain rfl := pure_ok hcommit
    exact (u.setProc_of_ne hj _).trans hother

lemma kexit_state {status : Int} (hj : j ≠ i) (h : kexit s i status = .ok t) :
    (t.proc j).state = (s.proc j).state := by
  obtain ⟨q, hq⟩ := (kexit_exits h).other j hj
  rw [hq]

/-- Neither exec nor exit. -/
def Call.Stays : Call → Prop
  | .exec _ _ | .exit _ => False
  | _ => True

/-- Another call than exec and exit of the process leaves it alive, with its mmap region ending no
higher. -/
lemma Good.kept {e : Label} (h : Good heapMax V held s) (hc : Confined s e) (hs : Syscall s e t)
    (hi : (s.proc i).state.Alive)
    (hstays : e.who = i → e.call.Stays) : Kept (s.proc i) (t.proc i) := by
  have hsame : ∀ {u : State}, u.proc i = s.proc i → Kept (s.proc i) (u.proc i) := by
    intro u heq
    rw [heq]
    exact ⟨hi, le_rfl⟩
  cases hs with
  | @fork _ l r hl hf =>
    obtain ⟨-, -, hspec⟩ := kfork_good h hl.used hf
    cases hspec with
    | full heq => exact hsame (by rw [heq])
    | failed hj hother hslot => exact hsame (hother i fun hij => hi.used (hij ▸ hj))
    | done hj hother hparent hchild hslot => exact hsame (hother i fun hij => hi.used (hij ▸ hj))
  | @mmap _ l r hl hm =>
    obtain ⟨r', t', hrun, -, -, hspec⟩ := sysMmap_total h heapMax_add.le hl.used hc
    obtain ⟨-, rfl⟩ := Prod.mk.inj (Except.ok.inj (hrun.symm.trans hm))
    refine ⟨(hspec.proc i).2 ▸ hi, ?_⟩
    by_cases hil : i = l
    · subst hil
      cases hspec with
      | failed hpt hleaf hproc =>
        rw [hproc, Function.update_self]
      | done hpt hlow hva hnone hfree haddr hleaf hproc hzero =>
        rw [hproc, Function.update_self]
        exact Nat.sub_le _ _
    · cases hspec with
      | failed hpt hleaf hproc =>
        rw [hproc, Function.update_of_ne hil]
      | done hpt hlow hva hnone hfree haddr hleaf hproc hzero =>
        rw [hproc, Function.update_of_ne hil]
  | @sbrk _ l n r eager hl hn hm =>
    have hbound : eager = false → 0 ≤ n → pages ((s.proc l).sz + n.toNat) ≤ heapMax := by
      rintro rfl
      exact hc
    obtain ⟨-, pt, sz, k, rfl⟩ := h.sbrk hl.used hbound hm
    exact .setProc (p := { s.proc l with pagetable := some pt, sz := sz }) hi rfl rfl
  | @fault _ l va b hl hf =>
    obtain ⟨-, -, hrep⟩ := pageFault_good h hl.used hf
    exact .of_eq hi (hrep.state i) (hrep.mmap i)
  | @exec _ l path argv r hl hx =>
    have hil : i ≠ l := fun hil => hstays hil.symm
    exact hsame (kexec_other h hl.used hil hx)
  | @exit _ l status hl hx =>
    have hil : i ≠ l := fun hil => hstays hil.symm
    exact .of_eq hi (kexit_state hil hx) ((kexit_same hl.used hx).2.2 i).mmap
  | @wait _ l status count r hl hw =>
    obtain ⟨-, -, hspec⟩ := kwait2_good h hl.used hw
    cases hspec with
    | none heq => exact hsame (by rw [heq])
    | @reaps j b hparent hstate hreaps =>
      have hij : i ≠ j := by
        rintro rfl
        rw [hstate] at hi
        exact hi
      cases hreaps with
      | refused hrep => exact .of_eq hi (hrep.state i) (hrep.mmap i)
      | @collected u k hu hrep =>
        have heq : ({ u.setProc j (u.proc j).cleared with kmem := k } : State).proc i = u.proc i :=
          u.setProc_of_ne hij _
        rw [heq]
        exact .of_eq hi (hrep.state i) (hrep.mmap i)
  | @kill l pid hl =>
    refine ⟨?_, ((kkill_same s pid).2.2 i).mmap.le⟩
    unfold kkill
    split
    · exact hi
    · next j hj =>
      by_cases hij : i = j
      · subst hij
        rw [State.setProc_self]
        dsimp only
        split
        · exact trivial
        · exact hi
      · rw [State.setProc_of_ne s hij]
        exact hi
  | @nice l n hl => exact .setProc hi rfl rfl
  | @stracing l hl => exact .setProc hi rfl rfl

lemma Good.kept_run {l : List Label} (h : Good heapMax V held s) (hrun : Runs Confined s l t)
    (hi : (s.proc i).state.Alive) (hstays : ∀ e ∈ l, e.who = i → e.call.Stays) :
    Kept (s.proc i) (t.proc i) := by
  induction hrun with
  | nil => exact ⟨hi, le_rfl⟩
  | @snoc t u l e hrun hstep ih =>
    have hkept := ih fun e' he' => hstays e' (List.mem_append_left _ he')
    have hgood : Good heapMax V held t :=
      hrun.invariant h fun _ _ _ hs ⟨hc, hstep⟩ => hs.confined hc hstep
    obtain ⟨halive, hle⟩ := hgood.kept hstep.1 hstep.2 hkept.alive (hstays e (by simp))
    exact ⟨halive, hle.trans hkept.mmap⟩

/-- What an mmap that does not fail leaves for the next one. -/
lemma Mmaps.next {r : Int} (h : Mmaps s i t r) (hr : r ≠ -1) :
    r = (s.proc i).mmap ∧ (t.proc i).mmap = (s.proc i).mmap - pgsize ∧ 0 < (s.proc i).mmap := by
  cases h with
  | failed => exact absurd rfl hr
  | done hpt hlow hva hnone hfree haddr hleaf hproc hzero =>
    refine ⟨rfl, ?_, ?_⟩
    · rw [hproc, Function.update_self]
      rfl
    · rw [hva]
      exact Nat.mul_pos (by omega) (by decide)

lemma Good.mmaps {r : Int} (h : Good heapMax V held s) (hc : Confined s ⟨i, .mmap, r⟩)
    (hs : Syscall s ⟨i, .mmap, r⟩ t) : (s.proc i).state.Alive ∧ Mmaps s i t r := by
  cases hs with
  | mmap hi hm =>
    obtain ⟨r', t', hrun, -, -, hspec⟩ := sysMmap_total h heapMax_add.le hi.used hc
    obtain ⟨rfl, rfl⟩ := Prod.mk.inj (Except.ok.inj (hrun.symm.trans hm))
    exact ⟨hi, hspec⟩

/-- One process is not given an address twice. -/
lemma Good.mmap_lt {l : List Label} {va va' : Int} (h : Good heapMax V held s)
    (hrun : Runs Confined s (⟨i, .mmap, va⟩ :: l ++ [⟨i, .mmap, va'⟩]) t) (hva : va ≠ -1) (hva' : va' ≠ -1)
    (hstays : ∀ e ∈ l, e.who = i → e.call.Stays) : va' < va := by
  obtain ⟨s₂, hrun, hlast⟩ := hrun.of_snoc
  change Runs Confined s ([] ++ [⟨i, .mmap, va⟩] ++ l) s₂ at hrun
  obtain ⟨s₁, hfirst, hrest⟩ := hrun.of_append
  obtain ⟨s₀, hnil, hmap⟩ := hfirst.of_snoc
  obtain rfl := hnil.of_nil
  have hgood₁ := h.confined hmap.1 hmap.2
  have hgood₂ : Good heapMax V held s₂ :=
    hrest.invariant hgood₁ fun _ _ _ hs ⟨hc, hstep⟩ => hs.confined hc hstep
  obtain ⟨hi, hspec⟩ := h.mmaps hmap.1 hmap.2
  obtain ⟨rfl, hnext, hpos⟩ := hspec.next hva
  have hkept₁ := h.kept hmap.1 hmap.2 hi fun _ => trivial
  have hkept := hgood₁.kept_run hrest hkept₁.alive hstays
  obtain ⟨-, hspec'⟩ := hgood₂.mmaps hlast.1 hlast.2
  obtain ⟨rfl, -, -⟩ := hspec'.next hva'
  have hle := hkept.mmap
  rw [hnext] at hle
  have hlt : (s₂.proc i).mmap < (s₀.proc i).mmap := by
    simp only [pgsize] at hle
    omega
  exact_mod_cast hlt

/-- In every run from the first process whose calls are confined, `sys_mmap` of a process whose
region has been placed fails and changes no mapping, or it maps a new zeroed page at a page that was
not mapped, between heap and trapframe; and until it executes another program the process is not
given that address again. -/
theorem mmap_maps_fresh {l : List Label} (h : Boots V held s) (hrun : Runs Confined s l t) :
    (∀ i, (t.proc i).state.Alive → (t.proc i).mmap ≠ 0 → ∃ r u pt pt', sysMmap t i = .ok (r, u) ∧
      (t.proc i).pagetable = some pt ∧ (u.proc i).pagetable = some pt' ∧
      ((r = -1 ∧ pt'.leaf = pt.leaf ∧ u.proc i = { t.proc i with pagetable := some pt' }) ∨
        ∃ n pa, r = (n * pgsize : Nat) ∧ pgRoundUp (t.proc i).sz ≤ n * pgsize ∧ n * pgsize < trapframeVa ∧
          pt.leaf n = none ∧ pa ∈ t.kmem.freelist ∧
          pt'.leaf = Function.update pt.leaf n (some (pa2pte pa .rwu)) ∧ u.kmem.page pa = fun _ => 0)) ∧
    ∀ l₁ l₂ l₃ i va va', l = l₁ ++ (⟨i, .mmap, va⟩ :: l₂ ++ [⟨i, .mmap, va'⟩]) ++ l₃ → va ≠ -1 → va' ≠ -1 →
      (∀ e ∈ l₂, e.who = i → e.call.Stays) → va' < va := by
  have hgood := h.confined hrun
  have htf := tfPage_eq
  refine ⟨fun i hi hmmap => ?_, ?_⟩
  · obtain ⟨r, u, hmap, -, -, hspec⟩ := sysMmap_total hgood heapMax_add.le hi.used hmmap
    cases hspec with
    | @failed pt pt' hpt hleaf hproc =>
      have hself : u.proc i = { t.proc i with pagetable := some pt' } := by rw [hproc, Function.update_self]
      exact ⟨-1, u, pt, pt', hmap, hpt, by rw [hself], Or.inl ⟨rfl, hleaf, hself⟩⟩
    | @done pt pt' pa hpt hlow hva hnone hfree haddr hleaf hproc hzero =>
      refine ⟨_, u, pt, pt', hmap, hpt, ?_, Or.inr ⟨(t.proc i).low, pa, by rw [← hva], ?_, ?_, hnone, hfree, hleaf, hzero⟩⟩
      · rw [hproc, Function.update_self]
        rfl
      · rw [pgRoundUp_eq (by omega)]
        exact Nat.mul_le_mul_right _ hlow.1.le
      · rw [trapframeVa_eq]
        exact Nat.mul_lt_mul_of_pos_right hlow.2 (by decide)
  · intro l₁ l₂ l₃ i va va' hl hva hva' hstays
    subst hl
    obtain ⟨s₃, hrun, -⟩ := hrun.of_append
    obtain ⟨s₁, hrun₁, hrun⟩ := hrun.of_append
    exact (h.confined hrun₁).mmap_lt hrun hva hva' hstays

/-! ### Runs -/

/-- The first process executes the program, -/
def firstProgram : State := (returned (kexec (booted 24) 0 programPath [])).2

/-- maps a page, -/
def programMaps : State := (returned (sysMmap firstProgram 0)).2

/-- and grows lazily by a page. -/
def programGrows : State := (returned (sysSbrk programMaps 0 4096 false)).2

/-- It maps another page. -/
def programMapsTwo : State := (returned (sysMmap programMaps 0)).2

/-- It forks instead. -/
def programForks : State := (returned (kfork firstProgram 0)).2

-- The first program is executed only once for all that the runs below need to know.
lemma program_facts :
    ((userinit { freshKernel 24 with fs := programFs }).isOk = true ∧ ((booted 24).proc 0).state = .RUNNABLE ∧ ((booted 24).proc 0).hasMmap = false ∧
      (kexec (booted 24) 0 programPath []).isOk = true ∧ (returned (kexec (booted 24) 0 programPath [])).1 = 0) ∧
    ((firstProgram.proc 0).state = .RUNNABLE ∧ (firstProgram.proc 0).sz = 12288 ∧
      (firstProgram.proc 0).mmap = trapframeVa - pgsize ∧ (firstProgram.proc 0).hasMmap = false ∧
      (firstProgram.proc 0).pagetable.isSome = true) ∧
    ((sysMmap firstProgram 0).isOk = true ∧ (returned (sysMmap firstProgram 0)).1 ≠ -1 ∧
      (programMaps.proc 0).state = .RUNNABLE ∧ (programMaps.proc 0).sz = 12288 ∧ (programMaps.proc 0).mmap ≠ 0) ∧
    ((sysSbrk programMaps 0 4096 false).isOk = true ∧ (returned (sysSbrk programMaps 0 4096 false)).1 = 12288 ∧
      (programGrows.proc 0).state ≠ .UNUSED) ∧
    ((sysMmap programMaps 0).isOk = true ∧ (returned (sysMmap programMaps 0)).1 ≠ -1) ∧
    ((kfork firstProgram 0).isOk = true ∧ (programForks.proc 1).state.Alive ∧
      stopped (sysMmap programForks 1) = some (.panic .mappagesRemap)) := by
  decide +kernel

lemma boots_booted_24 : Boots (freshArena 24) 0 (booted 24) := boots_booted (by decide) program_facts.1.1

lemma exec_program : ((booted 24).proc 0).state = .RUNNABLE ∧ ((booted 24).proc 0).hasMmap = false ∧
    kexec (booted 24) 0 programPath [] = .ok (0, firstProgram) := by
  obtain ⟨-, hstate, hhas, hok, hret⟩ := program_facts.1
  exact ⟨hstate, hhas, eq_ok_pair hok hret⟩

lemma firstProgram_proc : (firstProgram.proc 0).state = .RUNNABLE ∧ (firstProgram.proc 0).sz = 12288 ∧
    (firstProgram.proc 0).mmap = trapframeVa - pgsize ∧ (firstProgram.proc 0).hasMmap = false ∧
    (firstProgram.proc 0).pagetable.isSome = true :=
  program_facts.2.1

lemma firstProgram_mmap : (firstProgram.proc 0).mmap ≠ 0 := by
  rw [firstProgram_proc.2.2.1]
  decide

lemma program_maps : sysMmap firstProgram 0 = .ok ((returned (sysMmap firstProgram 0)).1, programMaps) ∧
    (returned (sysMmap firstProgram 0)).1 ≠ -1 ∧ (programMaps.proc 0).state = .RUNNABLE ∧
    (programMaps.proc 0).sz = 12288 ∧ (programMaps.proc 0).mmap ≠ 0 := by
  obtain ⟨hok, hfacts⟩ := program_facts.2.2.1
  exact ⟨eq_ok_pair hok rfl, hfacts⟩

lemma runs_program : Runs Confined (booted 24)
    [⟨0, .exec programPath [], 0⟩, ⟨0, .mmap, (returned (sysMmap firstProgram 0)).1⟩] programMaps := by
  obtain ⟨hstate, hhas, hexec⟩ := exec_program
  obtain ⟨hstate', -⟩ := firstProgram_proc
  refine .cons ⟨hhas, .exec ?_ hexec⟩ (.cons ⟨firstProgram_mmap, .mmap ?_ program_maps.1⟩ (.nil _))
  · rw [hstate]
    exact trivial
  · rw [hstate']
    exact trivial

/-- The theorem on a run with an mmap page and a lazy page. -/
theorem heap_below_mmap_program : ∃ va : Int, Runs Confined (booted 24)
      ([⟨0, .exec programPath [], 0⟩, ⟨0, .mmap, va⟩] ++ [⟨0, .sbrk 4096 false, 12288⟩]) programGrows ∧
    pgRoundUp (programGrows.proc 0).sz ≤ trapframeVa ∧
    ∀ n x, (programGrows.proc 0).MmapPage n x → pgRoundUp (programGrows.proc 0).sz ≤ n * pgsize := by
  obtain ⟨-, -, hstate, hsz, -⟩ := program_maps
  have hfacts := program_facts.2.2.2.1
  have hgrow : sysSbrk programMaps 0 4096 false = .ok (12288, programGrows) := eq_ok_pair hfacts.1 hfacts.2.1
  have hbound : pages ((programMaps.proc 0).sz + (4096 : Int).toNat) ≤ heapMax := by
    have hpages : pages (12288 + (4096 : Int).toNat) = 4 := by decide
    have htf := tfPage_eq
    have hnp := npages_eq
    have hmax := heapMax_add
    rw [hsz]
    omega
  have hconfined : Confined programMaps ⟨0, .sbrk 4096 false, 12288⟩ := fun _ => hbound
  have hrun := runs_program.snoc ⟨hconfined, .sbrk (by rw [hstate]; exact trivial) (by decide) hgrow⟩
  have hresult := heap_below_mmap boots_booted_24 hrun (i := 0) hfacts.2.2
  exact ⟨_, hrun, hresult.1, hresult.2.1⟩

/-- Lazy growth by `n` bytes, `c` times. -/
lemma run_lazy {n : Nat} (hn : n < 2 ^ 31) (c : Nat) (s : State) (i : Fin nproc)
    (hi : (s.proc i).state.Alive) (hsz : (s.proc i).sz + c * n < 2 ^ 64) :
    ∃ l, Runs (fun _ e => e.call = .sbrk n false) s l
      (s.setProc i { s.proc i with sz := (s.proc i).sz + c * n }) := by
  induction c with
  | zero =>
    refine ⟨[], ?_⟩
    have hsame : s.setProc i { s.proc i with sz := (s.proc i).sz + 0 * n } = s := by
      rw [Nat.zero_mul, Nat.add_zero]
      exact s.setProc_eq i
    rw [hsame]
    exact .nil s
  | succ c ih =>
    have hsucc : (c + 1) * n = c * n + n := Nat.succ_mul c n
    obtain ⟨l, hl⟩ := ih (by omega)
    have hstep : Syscall (s.setProc i { s.proc i with sz := (s.proc i).sz + c * n })
        ⟨i, .sbrk n false, ((s.proc i).sz + c * n : Nat)⟩
        (s.setProc i { s.proc i with sz := (s.proc i).sz + (c + 1) * n }) := by
      refine .sbrk ?_ (by omega) ?_
      · rw [State.setProc_self]
        exact hi
      · have hsum : u64 ((s.proc i).sz + c * n + (n : Int).toNat) = (s.proc i).sz + (c + 1) * n := by
          rw [u64, Int.toNat_natCast, Nat.mod_eq_of_lt (by omega)]
          omega
        unfold sysSbrk
        dsimp only
        rw [State.setProc_self, if_neg (by simp)]
        dsimp only
        rw [hsum, if_neg (by omega)]
        refine congrArg Except.ok (Prod.ext rfl ?_)
        unfold State.setProc
        simp
    exact ⟨_, hl.snoc ⟨rfl, hstep⟩⟩

/-- Nothing but lazy growth after an exec takes the heap past the trapframe, and the next access to
it makes the kernel panic. -/
theorem heap_past_trapframe : ∃ l t, Runs (fun _ e => e.call = .sbrk 2147483647 false) firstProgram l t ∧
    (t.proc 0).state ≠ .UNUSED ∧ trapframeVa < pgRoundUp (t.proc 0).sz ∧
    pageFault t 0 maxva = .error (.panic .walk) := by
  obtain ⟨hstate, hsz, -, -, hpt⟩ := firstProgram_proc
  have hlazy : ∃ l, Runs (fun _ e => e.call = .sbrk (2147483647 : Nat) false) firstProgram l
      (firstProgram.setProc 0 { firstProgram.proc 0 with sz := (firstProgram.proc 0).sz + 128 * 2147483647 }) :=
    run_lazy (by decide) 128 firstProgram 0 (by rw [hstate]; decide) (by rw [hsz]; decide)
  obtain ⟨l, hrun⟩ := hlazy
  refine ⟨l, _, hrun, ?_, ?_, ?_⟩
  · rw [State.setProc_self, hstate]
    decide
  · rw [State.setProc_self, hsz]
    decide
  · obtain ⟨pt, hpt⟩ := Option.isSome_iff_exists.mp hpt
    unfold pageFault
    rw [State.setProc_self, hsz]
    dsimp only
    rw [hpt]
    rfl

/-- The theorem on a run with two mmap pages. -/
theorem mmap_maps_fresh_twice : ∃ va va' : Int, Runs Confined (booted 24)
      ([⟨0, .exec programPath [], 0⟩, ⟨0, .mmap, va⟩] ++ [⟨0, .mmap, va'⟩]) programMapsTwo ∧
    va ≠ -1 ∧ va' ≠ -1 ∧ va' < va := by
  obtain ⟨-, hva, hstate, -, hmmap⟩ := program_maps
  obtain ⟨hok, hva'⟩ := program_facts.2.2.2.2.1
  have hmap' : sysMmap programMaps 0 = .ok (_, programMapsTwo) := eq_ok_pair hok rfl
  have hconfined : Confined programMaps ⟨0, .mmap, (returned (sysMmap programMaps 0)).1⟩ := hmmap
  have hrun := runs_program.snoc ⟨hconfined, .mmap (by rw [hstate]; exact trivial) hmap'⟩
  have hlt := (mmap_maps_fresh boots_booted_24 hrun).2 [⟨0, .exec programPath [], 0⟩] [] [] 0 _ _ rfl hva hva'
    (by simp)
  exact ⟨_, _, hrun, hva, hva', hlt⟩

/-- A child of a process without mmap pages is not given a region: its first mmap is at address 0,
where the program is. -/
theorem mmap_remaps : ∃ pid : Int,
    Runs (fun s e => (∃ path argv, e.call = .exec path argv) → (s.proc e.who).hasMmap = false) (booted 24)
      [⟨0, .exec programPath [], 0⟩, ⟨0, .fork, pid⟩] programForks ∧
    (programForks.proc 1).state.Alive ∧ sysMmap programForks 1 = .error (.panic .mappagesRemap) := by
  obtain ⟨hstate, hhas, hexec⟩ := exec_program
  obtain ⟨hstate', -⟩ := firstProgram_proc
  obtain ⟨hok, halive, hstop⟩ := program_facts.2.2.2.2.2
  have hfork : kfork firstProgram 0 = .ok (_, programForks) := eq_ok_pair hok rfl
  refine ⟨_, .cons ⟨fun _ => hhas, .exec ?_ hexec⟩ (.cons ⟨?_, .fork ?_ hfork⟩ (.nil _)), halive, eq_error hstop⟩
  · rw [hstate]
    exact trivial
  · rintro ⟨path, argv, hcall⟩
    cases hcall
  · rw [hstate']
    exact trivial

end FogOS.Kernel
