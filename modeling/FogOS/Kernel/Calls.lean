import FogOS.Kernel.Tenancy
import FogOS.Kernel.Room

/-!
# System calls and the process table

Each call on its own: what it does to the invariant of the process table and, for fork and mmap,
to the address spaces.
-/

namespace FogOS.Kernel

open ByteMem Ledger

variable {V : Arena} {held : Multiset Nat} {floor : Nat} {s t : State} {i j : Fin nproc}

/-! ### Calls that leave the memory alone -/

lemma SameMem.setProc {p : Proc} (h : SameMem (s.proc i) p) (j : Fin nproc) :
    SameMem (s.proc j) ((s.setProc i p).proc j) := by
  by_cases hj : j = i
  · subst hj
    rw [State.setProc_self]
    exact h
  · rw [State.setProc_of_ne s hj]
    exact .refl _

lemma SameMem.trans {p q r : Proc} (h : SameMem p q) (h' : SameMem q r) : SameMem p r :=
  ⟨h'.pagetable.trans h.pagetable, h'.trapframe.trans h.trapframe, h'.sz.trans h.sz,
    h'.mmap.trans h.mmap, h'.hasMmap.trans h.hasMmap, h'.unused.trans h.unused⟩

/-- What `kexit(status)` of process `i` does to the process table. -/
structure Exits (s : State) (i : Fin nproc) (status : Int) (t : State) : Prop where
  kmem : t.kmem = s.kmem
  trampoline : t.trampoline = s.trampoline
  nextpid : t.nextpid = s.nextpid
  self : ∃ q, t.proc i =
    { s.proc i with ofile := fun _ => none, cwd := none, parent := q, xstate := status, state := .ZOMBIE }
  other : ∀ j, j ≠ i → ∃ q, t.proc j = { s.proc j with parent := q }

lemma kexit_exits {status : Int} (h : kexit s i status = .ok t) : Exits s i status t := by
  unfold kexit at h
  obtain ⟨-, h⟩ := guard_ok h
  obtain ⟨u, hclose, h⟩ := bind_ok h
  obtain rfl := pure_ok h
  unfold exitClose at hclose
  obtain ⟨fileRef, -, hclose⟩ := bind_ok hclose
  obtain ⟨fs₁, -, hclose⟩ := bind_ok hclose
  obtain ⟨cwd, -, hclose⟩ := bind_ok hclose
  obtain ⟨fs₂, -, hclose⟩ := bind_ok hclose
  obtain ⟨fs₃, -, hclose⟩ := bind_ok hclose
  obtain rfl := pure_ok hclose
  unfold exitZombie
  refine ⟨rfl, rfl, rfl, ?_, fun j hj => ?_⟩
  · rw [State.setProc_self]
    unfold reparent
    dsimp only
    rw [State.setProc_self]
    split
    · exact ⟨_, rfl⟩
    · exact ⟨_, rfl⟩
  · rw [State.setProc_of_ne _ hj]
    unfold reparent
    dsimp only
    rw [State.setProc_of_ne _ hj]
    split
    · exact ⟨_, rfl⟩
    · exact ⟨_, rfl⟩

/-- `kexit` leaves the memory of the process to its parent. -/
lemma kexit_same {status : Int} (hi : (s.proc i).state ≠ .UNUSED) (h : kexit s i status = .ok t) :
    t.kmem = s.kmem ∧ t.trampoline = s.trampoline ∧ ∀ j, SameMem (s.proc j) (t.proc j) := by
  have hx := kexit_exits h
  refine ⟨hx.kmem, hx.trampoline, fun j => ?_⟩
  by_cases hj : j = i
  · subst hj
    obtain ⟨q, hq⟩ := hx.self
    rw [hq]
    exact ⟨rfl, rfl, rfl, rfl, rfl, iff_of_false (by simp) hi⟩
  · obtain ⟨q, hq⟩ := hx.other j hj
    rw [hq]
    exact ⟨rfl, rfl, rfl, rfl, rfl, Iff.rfl⟩

lemma kkill_same (s : State) (pid : Int) :
    (kkill s pid).2.kmem = s.kmem ∧ (kkill s pid).2.trampoline = s.trampoline ∧
      ∀ j, SameMem (s.proc j) ((kkill s pid).2.proc j) := by
  unfold kkill
  split
  · exact ⟨rfl, rfl, fun j => .refl _⟩
  · next l hl =>
    refine ⟨rfl, rfl, SameMem.setProc ⟨rfl, rfl, rfl, rfl, rfl, ?_⟩⟩
    dsimp only
    split
    · next hs => simp [hs]
    · exact Iff.rfl

lemma sysNice_same (s : State) (i : Fin nproc) (n : Int) (j : Fin nproc) :
    SameMem (s.proc j) ((sysNice s i n).proc j) := by
  refine SameMem.setProc ?_ j
  exact ⟨rfl, rfl, rfl, rfl, rfl, Iff.rfl⟩

lemma sysStracing_same (s : State) (i j : Fin nproc) :
    SameMem (s.proc j) ((sysStracing s i).proc j) := by
  refine SameMem.setProc ?_ j
  exact ⟨rfl, rfl, rfl, rfl, rfl, Iff.rfl⟩

/-! ### Fork -/

/-- Freeing a slot without a page table. -/
lemma freeproc_none {p : Proc} (hpt : p.pagetable = none) (hhas : p.hasMmap = false) (k : Kmem) :
    freeproc k p = .ok (freeTrapframe k p.trapframe, p.cleared) := by
  have hmmap : ∀ k, freeMmap k p = .ok (k, none) := by
    intro k
    unfold freeMmap
    rw [if_neg (by simp [hhas]), hpt]
    rfl
  unfold freeproc
  dsimp only
  rw [hmmap]
  rfl

/-- The fields that `allocproc` assigns before it allocates. -/
def Proc.started (p : Proc) (pid : Int) : Proc :=
  { p with pid := pid, state := .USED, countp := 0, mmap := 0, hasMmap := false }

/-- `allocproc` gives the slot a trapframe and an address space without user memory, or clears it. -/
lemma initSlot_slot {done : Bool} (hj : (s.proc j).Vacant) (h : initSlot s j = .ok (done, t)) :
    ∃ q, t = { s.setProc j q with nextpid := s.nextpid + 1, kmem := t.kmem } ∧
      s.kmem.Trades V t.kmem 0 q.refs ∧
      if done then ∃ pt tf, Blank s.trampoline tf pt.leaf ∧
        q = { (s.proc j).started s.nextpid with trapframe := some tf, pagetable := some pt }
      else q = ((s.proc j).started s.nextpid).cleared := by
  unfold initSlot at h
  dsimp only at h
  split at h
  · next k hk =>
    obtain ⟨⟨k1, q⟩, hfree, h⟩ := bind_ok h
    cases (freeproc_none (p := { (s.proc j).started s.nextpid with trapframe := none })
      hj.pagetable rfl k).symm.trans hfree
    obtain ⟨rfl, rfl⟩ := Prod.mk.inj (pure_ok h)
    refine ⟨_, rfl, ?_, rfl⟩
    have hkeep : k = s.kmem := Kmem.kalloc_none hk
    rw [hkeep]
    exact Trade.refl _ _ _
  · next tf k hk =>
    obtain ⟨⟨pt, k1⟩, hpt, h⟩ := bind_ok h
    have hblank := procPagetable_ok (V := V) hpt
    have htake : s.kmem.Trades V k 0 {tf} := Kmem.trades_kalloc hk
    dsimp only at h
    cases pt with
    | none =>
      obtain ⟨⟨k2, q⟩, hfree, h⟩ := bind_ok h
      cases (freeproc_none (p := { (s.proc j).started s.nextpid with trapframe := some tf, pagetable := none })
        rfl rfl k1).symm.trans hfree
      obtain ⟨rfl, rfl⟩ := Prod.mk.inj (pure_ok h)
      refine ⟨_, rfl, ?_, rfl⟩
      have hnone : k.Trades V k1 ({tf} + 0) ({tf} + 0) := hblank.frame_left {tf}
      rw [add_zero] at hnone
      exact (htake.trans hnone).trans (Kmem.trades_kfree V k1 tf)
    | some pt =>
      obtain ⟨rfl, rfl⟩ := Prod.mk.inj (pure_ok h)
      refine ⟨_, rfl, ?_, pt, tf, hblank.2, rfl⟩
      have hpages := hblank.1.frame_left {tf}
      rw [add_zero] at hpages
      rw [Proc.refs_some rfl rfl]
      exact htake.trans hpages

lemma Blank.space {tramp tf : Nat} {pt : Pagetable} {p : Proc} (h : Blank tramp tf pt.leaf)
    (hpt : p.pagetable = some pt) (htf : p.trapframe = some tf) (hsz : p.sz = 0)
    (hhas : p.hasMmap = false) (hmmap : p.mmap = 0) : Space floor tramp p pt tf := by
  have hzero : pages p.sz = 0 := by rw [hsz]; rfl
  refine ⟨hpt, htf, h.top, by omega, fun m _ hm => by omega, ?_, ?_, ?_, fun m hm hne => ?_, fun _ => Or.inl hmmap⟩
  · rw [Proc.low, hmmap]
    rfl
  · intro hhas'
    rw [hhas] at hhas'
    cases hhas'
  · intro hhas'
    rw [hhas] at hhas'
    cases hhas'
  · exact absurd (h.user m hm) hne

/-- A slot that is not in use has no page to share. -/
lemma Proc.Vacant.not_shares {p : Proc} {n x : Nat} (h : p.Vacant) : ¬ p.Shares n x := by
  rintro ⟨-, -, -, pt, hpt, -⟩
  rw [h.pagetable] at hpt
  cases hpt

lemma initSlot_good {done : Bool} (h : Good floor V held s) (hj : (s.proc j).state = .UNUSED)
    (hinit : initSlot s j = .ok (done, t)) : Good floor V held t := by
  have hvacant := h.unused j hj
  obtain ⟨q, ht, htr, hq⟩ := initSlot_slot (V := V) hvacant hinit
  have hproc : t.proc = Function.update s.proc j q := by rw [ht]; rfl
  have htramp : t.trampoline = s.trampoline := by rw [ht]; rfl
  have htr' : s.kmem.Trades V t.kmem (s.proc j).refs q.refs := by
    rw [hvacant.refs]
    exact htr
  cases done with
  | false =>
    obtain rfl : q = ((s.proc j).started s.nextpid).cleared := hq
    exact h.replace hproc htramp htr' (fun n x hs => absurd hs hvacant.not_shares)
      (fun _ => ⟨rfl, rfl, rfl⟩) fun hne => absurd rfl hne
  | true =>
    obtain ⟨pt, tf, hblank, rfl⟩ := hq
    refine h.replace hproc htramp htr' (fun n x hs => absurd hs hvacant.not_shares) (fun hu => ?_) fun _ =>
      ⟨pt, tf, hblank.space rfl rfl hvacant.sz rfl rfl⟩
    cases hu

/-- A page of the mmap region is held. -/
lemma Space.mem_of_shares {tramp tf n x : Nat} {pt : Pagetable} {p : Proc}
    (h : Space floor tramp p pt tf) (hx : PageAddr x) (hs : p.Shares n x) : x ∈ p.refs := by
  obtain ⟨-, -, hn, pt', hpt', hleaf⟩ := hs
  obtain rfl : pt = pt' := Option.some.inj (h.pagetable.symm.trans hpt')
  have hmem := mem_refs hn hleaf
  rw [pa_pa2pte hx.aligned] at hmem
  rw [h.refs]
  exact Multiset.mem_add.mpr (Or.inr hmem)

lemma Space.shares_unique {tramp tf n m x : Nat} {pt : Pagetable} {p : Proc}
    (h : Space floor tramp p pt tf) (hnodup : p.refs.Nodup) (hn : p.Shares n x)
    (hm : p.Shares m x) : n = m := by
  obtain ⟨-, -, hn, pt₁, hpt₁, hleaf₁⟩ := hn
  obtain ⟨-, -, hm, pt₂, hpt₂, hleaf₂⟩ := hm
  obtain rfl : pt = pt₁ := Option.some.inj (h.pagetable.symm.trans hpt₁)
  obtain rfl : pt = pt₂ := Option.some.inj (h.pagetable.symm.trans hpt₂)
  rw [h.refs, Pagetable.refs] at hnodup
  have hpages := (Multiset.nodup_add.mp (Multiset.nodup_add.mp hnodup).2.1).2.1
  exact userPages_inj hpages hn hm hleaf₁ hleaf₂ rfl

/-- The child comes into the process table. -/
lemma Good.adopt {k : Kmem} {tf ntf : Nat} {np : Proc} {old npt : Pagetable}
    (h : Good floor V held s) (hij : i ≠ j) (hp : Space floor s.trampoline (s.proc i) old tf)
    (hc : Child V (others held s j) floor s.trampoline k (s.proc i) old tf t.kmem np npt ntf)
    (hproc : t.proc = Function.update s.proc j np) (htramp : t.trampoline = s.trampoline)
    (hstate : np.state ≠ .UNUSED) : Good floor V held t := by
  have haddr : ∀ x ∈ others held s j, PageAddr x := fun x hx =>
    V.page_addr x (hc.books.subset x (Multiset.mem_add.mpr (Or.inl hx)))
  refine h.put hproc htramp hc.books hc.nodup (fun x hx hmem => ?_) (fun l x hl hx hmem => ?_)
    (fun hu => absurd hu hstate) fun _ => ⟨npt, ntf, hc.space⟩
  · have hR : x ∈ others held s j := mem_others.mpr (Or.inl hx)
    obtain ⟨n, hn, -⟩ := hc.shares x hR hmem
    exact h.kernel x hx i (hp.mem_of_shares (haddr x hR) hn)
  · have hR : x ∈ others held s j := mem_others.mpr (Or.inr ⟨l, hl, hx⟩)
    obtain ⟨n, hn, hn'⟩ := hc.shares x hR hmem
    by_cases hli : l = i
    · subst hli
      exact ⟨n, hn, hn'⟩
    · obtain ⟨m, hm, hm'⟩ := h.apart l i x hli hx (hp.mem_of_shares (haddr x hR) hn)
      obtain rfl := hp.shares_unique (h.nodup i) hn hm'
      exact ⟨n, hm, hn'⟩

/-- The slot is given back. -/
lemma Good.vacate {p : Proc} (h : Good floor V held s) (hB : t.kmem.Books V (others held s j))
    (hproc : t.proc = Function.update s.proc j p) (htramp : t.trampoline = s.trampoline)
    (hp : p.Vacant) (hstate : p.state = .UNUSED) : Good floor V held t := by
  have hrefs := hp.refs
  refine h.put hproc htramp ?_ ?_ (fun x _ hmem => ?_) (fun l x _ _ hmem => ?_) (fun _ => hp)
    fun hu => absurd hstate hu
  · rw [hrefs, add_zero]
    exact hB
  · rw [hrefs]
    exact Multiset.nodup_zero
  · rw [hrefs] at hmem
    exact absurd hmem (Multiset.notMem_zero x)
  · rw [hrefs] at hmem
    exact absurd hmem (Multiset.notMem_zero x)

lemma Child.congr {R : Multiset Nat} {k₀ k : Kmem} {p np : Proc} {old npt : Pagetable}
    {tramp tf ntf : Nat} (h : Child V R floor tramp k₀ p old tf k np npt ntf) (np' : Proc)
    (hnp : SameMem np np') : Child V R floor tramp k₀ p old tf k np' npt ntf := by
  refine ⟨hnp.space h.space, ?_, ?_, fun x hx hmem => ?_, h.inherits, h.data, h.regs⟩
  · rw [hnp.refs]
    exact h.books
  · rw [hnp.refs]
    exact h.nodup
  · rw [hnp.refs] at hmem
    obtain ⟨n, hn, hn'⟩ := h.shares x hx hmem
    exact ⟨n, hn, hnp.shares hn'⟩

/-- The pages of the parent were the same earlier on. -/
lemma Child.rebase {R : Multiset Nat} {k₀ k₁ k : Kmem} {p np : Proc} {old npt : Pagetable}
    {tramp tf ntf : Nat} (h : Child V R floor tramp k₁ p old tf k np npt ntf)
    (hp : Space floor tramp p old tf) (hknown : ∀ x ∈ p.refs, x ∈ R)
    (hpage : ∀ x ∈ R, k₁.page x = k₀.page x) : Child V R floor tramp k₀ p old tf k np npt ntf := by
  have hsz := hp.size
  refine ⟨h.space, h.books, h.nodup, h.shares, ⟨h.inherits.absent, fun m q hm hq => ?_, h.inherits.shared⟩,
    fun x hx => (h.data x hx).trans (hpage x hx), fun x hx => ?_⟩
  · obtain ⟨q', hq', hperm, hdata⟩ := h.inherits.copied m q hm hq
    refine ⟨q', hq', hperm, hdata.trans (hpage _ (hknown _ ?_))⟩
    rw [hp.refs]
    exact Multiset.mem_add.mpr (Or.inr (mem_refs (by omega) hq))
  · have htf : tf ∈ R := by
      refine hknown tf ?_
      rw [hp.refs]
      exact Multiset.mem_add.mpr (Or.inl (Multiset.mem_singleton_self tf))
    rw [h.regs x hx, hpage tf htf]

lemma others_congr {u : State} (h : ∀ l, l ≠ j → u.proc l = s.proc l) : others held u j = others held s j := by
  rw [others, others]
  refine congrArg (held + ·) (Finset.sum_congr rfl fun l hl => ?_)
  rw [h l (Finset.ne_of_mem_erase hl)]

/-- What the child of `p` in a slot is before it is linked, with the page table `npt` and the
trapframe `ntf`. -/
def Proc.spawned (slot p : Proc) (pid : Int) (npt : Pagetable) (ntf : Nat) : Proc :=
  { slot with pid := pid, state := .USED, countp := 0, trapframe := some ntf, pagetable := some npt, sz := p.sz, mmap := if p.hasMmap then p.mmap else 0, hasMmap := p.hasMmap, ofile := fun fd => p.ofile fd <|> slot.ofile fd, cwd := p.cwd, name := p.name }

/-- The first critical section of `kfork`. -/
lemma forkSlot_good {done : Bool} (h : Good floor V held s) (hi : (s.proc i).state ≠ .UNUSED)
    (hj : (s.proc j).state = .UNUSED) (hf : forkSlot s i j = .ok (done, t)) :
    Good floor V held t ∧ (∀ l, l ≠ j → t.proc l = s.proc l) ∧ t.trampoline = s.trampoline ∧
      if done then ∃ old tf npt ntf, Space floor s.trampoline (s.proc i) old tf ∧
        Child V (others held s j) floor s.trampoline s.kmem (s.proc i) old tf t.kmem (t.proc j) npt ntf ∧
        t.proc j = (s.proc j).spawned (s.proc i) s.nextpid npt ntf
      else ∃ mmap, t.proc j = { ((s.proc j).started s.nextpid).cleared with mmap := mmap } := by
  have hij : i ≠ j := fun he => hi (he ▸ hj)
  have hvacant := h.unused j hj
  have hothers := (forkSlot_ok hf).1
  unfold forkSlot at hf
  obtain ⟨⟨ready, u⟩, hinit, hf⟩ := bind_ok hf
  obtain ⟨q, hu, htr, hq⟩ := initSlot_slot (V := V) hvacant hinit
  have hproc : u.proc = Function.update s.proc j q := by rw [hu]; rfl
  have htramp : u.trampoline = s.trampoline := by rw [hu]; rfl
  have hself : u.proc j = q := by rw [hproc, Function.update_self]
  have hother : ∀ l, l ≠ j → u.proc l = s.proc l := by
    intro l hl
    rw [hproc, Function.update_of_ne hl]
  have hgood := initSlot_good h hj hinit
  cases ready with
  | false =>
    obtain ⟨rfl, rfl⟩ := Prod.mk.inj (pure_ok hf)
    obtain rfl : q = ((s.proc j).started s.nextpid).cleared := hq
    exact ⟨hgood, hothers, htramp, 0, hself⟩
  | true =>
    obtain ⟨npt₀, ntf, hblank, hq⟩ := hq
    have hpt : q.pagetable = some npt₀ := by rw [hq]
    have htf : q.trapframe = some ntf := by rw [hq]
    have hsz : q.sz = 0 := by rw [hq]; exact hvacant.sz
    have hhas : q.hasMmap = false := by rw [hq]; rfl
    have hmmap : q.mmap = 0 := by rw [hq]; rfl
    have hstate : q.state = .USED := by rw [hq]; rfl
    obtain ⟨old, tf, hsp⟩ := h.used i hi
    have hR : others held u j = others held s j := others_congr hother
    have hB := hgood.books_others j
    rw [hR, hself] at hB
    have hknown : ∀ x ∈ (s.proc i).refs, x ∈ others held s j := fun x hx =>
      mem_others.mpr (Or.inr ⟨i, hij, hx⟩)
    have hfresh : ∀ x ∈ others held s j, x ∉ q.refs := by
      intro x hx
      have hBs := h.books_others j
      rw [hvacant.refs] at hBs
      exact htr.notMem hBs hx (Multiset.notMem_zero x)
    have hnodup : q.refs.Nodup := hself ▸ hgood.nodup j
    obtain ⟨b, k, np, hmem, hb⟩ := forkMemory_total hsp hknown (h.nodup i) hpt htf hblank hsz hhas hmmap hB
      hnodup hfresh
    have hpage : ∀ x ∈ others held s j, u.kmem.page x = s.kmem.page x := by
      intro x hx
      have hBs := h.books_others j
      rw [hvacant.refs] at hBs
      exact htr.data_eq hBs hx (Multiset.notMem_zero x)
    change forkCopy u (s.proc i) j = .ok (done, t) at hf
    unfold forkCopy at hf
    rw [hself, hmem, ok_bind] at hf
    cases b with
    | false =>
      obtain ⟨rfl, rfl⟩ := Prod.mk.inj (pure_ok hf)
      obtain ⟨hbooks, hnp⟩ := hb
      refine ⟨?_, hothers, htramp, np.mmap, ?_⟩
      · refine hgood.vacate (t := { u.setProc j np with kmem := k }) (hR ▸ hbooks) rfl rfl ?_ ?_
        · rw [hnp]
          exact ⟨rfl, rfl, rfl⟩
        · rw [hnp]
          rfl
      · rw [show ({ u.setProc j np with kmem := k } : State).proc j = np from u.setProc_self j np, hnp, hq]
        rfl
    | true =>
      obtain ⟨npt, hchild, hnp⟩ := hb
      obtain ⟨fileRef, -, hf⟩ := bind_ok hf
      obtain ⟨cwd, hcwd, hf⟩ := bind_ok hf
      obtain ⟨rfl, rfl⟩ := Prod.mk.inj (pure_ok hf)
      have hchild' := (hchild.rebase hsp hknown hpage).congr
        { np with ofile := fun fd => (s.proc i).ofile fd <|> np.ofile fd, cwd := some cwd, name := (s.proc i).name }
        ⟨rfl, rfl, rfl, rfl, rfl, Iff.rfl⟩
      have hsp' : Space floor u.trampoline (u.proc i) old tf := by
        rw [htramp, hother i hij]
        exact hsp
      have hu' : ∀ {x : State} {np' : Proc}, (x.setProc j np').proc j = np' := State.setProc_self _ _ _
      refine ⟨?_, hothers, htramp, old, tf, npt, ntf, hsp, ?_, ?_⟩
      · have hadopt : Child V (others held u j) floor u.trampoline s.kmem (u.proc i) old tf k
            { np with ofile := fun fd => (s.proc i).ofile fd <|> np.ofile fd, cwd := some cwd, name := (s.proc i).name }
            npt ntf := by
          rw [htramp, hother i hij, hR]
          exact hchild'
        refine hgood.adopt hij hsp' hadopt rfl rfl ?_
        change np.state ≠ .UNUSED
        rw [hnp]
        change q.state ≠ .UNUSED
        rw [hstate]
        simp
      · rw [hu']
        exact hchild'
      · rw [hu', hnp, hq, ← deref_ok hcwd]
        rfl

/-- `kfork` finds no slot, or it goes through its critical sections. -/
lemma kfork_cases {r : Int} (h : kfork s i = .ok (r, t)) :
    (r = -1 ∧ t = s) ∨ ∃ j done u, (s.proc j).state = .UNUSED ∧ forkSlot s i j = .ok (done, u) ∧
      if done then r = (u.proc j).pid ∧ t = forkStart (forkLink u i j) j else r = -1 ∧ t = u := by
  unfold kfork at h
  obtain ⟨⟨slot, u⟩, hslot, h⟩ := bind_ok h
  unfold allocproc at hslot
  split at hslot
  · obtain ⟨rfl, rfl⟩ := Prod.mk.inj (pure_ok hslot)
    obtain ⟨rfl, rfl⟩ := Prod.mk.inj (pure_ok h)
    exact Or.inl ⟨rfl, rfl⟩
  · next j hfind =>
    have hj : (s.proc j).state = .UNUSED := by simpa using List.find?_some hfind
    obtain ⟨⟨done, u'⟩, hinit, hslot⟩ := bind_ok hslot
    obtain ⟨rfl, rfl⟩ := Prod.mk.inj (pure_ok hslot)
    cases done with
    | false =>
      obtain ⟨rfl, rfl⟩ := Prod.mk.inj (pure_ok h)
      refine Or.inr ⟨j, false, t, hj, ?_, rfl, rfl⟩
      rw [forkSlot, hinit]
      rfl
    | true =>
      obtain ⟨⟨copied, u₂⟩, hcopy, h⟩ := bind_ok h
      have hfork : forkSlot s i j = .ok (copied, u₂) := by
        rw [forkSlot, hinit]
        exact hcopy
      cases copied with
      | false =>
        obtain ⟨rfl, rfl⟩ := Prod.mk.inj (pure_ok h)
        exact Or.inr ⟨j, false, t, hj, hfork, rfl, rfl⟩
      | true =>
        obtain ⟨rfl, rfl⟩ := Prod.mk.inj (pure_ok h)
        exact Or.inr ⟨j, true, u₂, hj, hfork, rfl, rfl⟩

/-- The child of `p` as `kfork` of process `i` leaves it. -/
def Proc.forked (slot p : Proc) (i : Fin nproc) (pid : Int) (npt : Pagetable) (ntf : Nat) : Proc :=
  { slot.spawned p pid npt ntf with parent := some i, state := .RUNNABLE }

/-- What `kfork` of process `i` does. -/
inductive Forks (floor : Nat) (V : Arena) (held : Multiset Nat) (s : State) (i : Fin nproc) (t : State) :
    Int → Prop
  | full : t = s → Forks floor V held s i t (-1)
  | failed {j : Fin nproc} {mmap : Nat} (hj : (s.proc j).state = .UNUSED)
      (hother : ∀ l, l ≠ j → t.proc l = s.proc l)
      (hslot : t.proc j = { ((s.proc j).started s.nextpid).cleared with mmap := mmap }) :
      Forks floor V held s i t (-1)
  | done {j : Fin nproc} {old npt : Pagetable} {tf ntf : Nat} (hj : (s.proc j).state = .UNUSED)
      (hother : ∀ l, l ≠ j → t.proc l = s.proc l)
      (hparent : Space floor s.trampoline (s.proc i) old tf)
      (hchild : Child V (others held s j) floor s.trampoline s.kmem (s.proc i) old tf t.kmem (t.proc j) npt ntf)
      (hslot : t.proc j = (s.proc j).forked (s.proc i) i s.nextpid npt ntf) :
      Forks floor V held s i t s.nextpid

lemma kfork_good {r : Int} (h : Good floor V held s) (hi : (s.proc i).state ≠ .UNUSED)
    (hf : kfork s i = .ok (r, t)) :
    Good floor V held t ∧ t.trampoline = s.trampoline ∧ Forks floor V held s i t r := by
  rcases kfork_cases hf with ⟨rfl, rfl⟩ | ⟨j, done, u, hj, hfork, hdone⟩
  · exact ⟨h, rfl, .full rfl⟩
  · obtain ⟨hgood, hother, htramp, hspec⟩ := forkSlot_good h hi hj hfork
    cases done with
    | false =>
      obtain ⟨rfl, rfl⟩ := hdone
      obtain ⟨mmap, hslot⟩ := hspec
      exact ⟨hgood, htramp, .failed hj hother hslot⟩
    | true =>
      obtain ⟨rfl, rfl⟩ := hdone
      obtain ⟨old, tf, npt, ntf, hsp, hchild, hslot⟩ := hspec
      -- linking and starting the child are assignments to two of its fields
      have hproc : (forkStart (forkLink u i j) j).proc j =
          { u.proc j with parent := some i, state := .RUNNABLE } := by
        rw [forkStart, State.setProc_self, forkLink, State.setProc_self]
      have hother' : ∀ l, l ≠ j → (forkStart (forkLink u i j) j).proc l = u.proc l := by
        intro l hl
        rw [forkStart, State.setProc_of_ne _ hl, forkLink, State.setProc_of_ne _ hl]
      have hused : (u.proc j).state = .USED := by rw [hslot]; rfl
      have hsame : SameMem (u.proc j) ((forkStart (forkLink u i j) j).proc j) := by
        rw [hproc]
        refine ⟨rfl, rfl, rfl, rfl, rfl, ?_⟩
        simp [hused]
      have hpid : (u.proc j).pid = s.nextpid := by rw [hslot]; rfl
      refine ⟨hgood.congr rfl rfl fun l => ?_, htramp, ?_⟩
      · by_cases hl : l = j
        · rw [hl]
          exact hsame
        · rw [hother' l hl]
          exact .refl _
      · rw [hpid]
        refine .done hj (fun l hl => (hother' l hl).trans (hother l hl)) hsp (hchild.congr _ hsame) ?_
        rw [hproc, hslot]
        rfl

/-! ### mmap -/

section

variable {tramp tf : Nat} {pt : Pagetable} {p : Proc} {R : Multiset Nat} {k : Kmem}

lemma low_of_top (h : p.mmap = trapframeVa - pgsize) : p.low + 1 = tfPage := by
  have htf := tfPage_eq
  obtain ⟨n, hn⟩ : ∃ n, tfPage = n + 1 := ⟨tfPage - 1, by omega⟩
  rw [Proc.low, h, trapframeVa_eq, hn, prev_page, Nat.mul_div_cancel _ (by decide)]

/-- Where the mmap region ends there is a page left for it to grow into. -/
lemma Space.ceiling_eq (h : Space floor tramp p pt tf) (hmmap : p.mmap ≠ 0) :
    p.ceiling = p.low + 1 := by
  unfold Proc.ceiling
  split
  · rfl
  · next hhas => exact (low_of_top ((h.idle (by simpa using hhas)).resolve_left hmmap)).symm

lemma Space.low_free (h : Space floor tramp p pt tf) (hB : k.Books V (R + p.refs))
    (hnodup : p.refs.Nodup) (hfloor : floor + npages + 2 ≤ tfPage) (hmmap : p.mmap ≠ 0) :
    pages p.sz < p.low ∧ p.low < tfPage ∧ pt.leaf p.low = none := by
  have hslack := h.slack hB hnodup hfloor
  rw [h.ceiling_eq hmmap] at hslack
  have hlow : p.low < tfPage := by
    by_cases hhas : p.hasMmap = true
    · have := h.apart hhas
      omega
    · have := low_of_top ((h.idle (by simpa using hhas)).resolve_left hmmap)
      omega
  refine ⟨by omega, hlow, ?_⟩
  by_contra hne
  rcases h.user p.low hlow hne with hlt | ⟨-, hlt⟩ <;> omega

/-- The process with one more page at the end of its mmap region. -/
def Proc.mmapped (p : Proc) (pt : Pagetable) : Proc :=
  { p with pagetable := some pt, mmap := p.mmap - pgsize, hasMmap := true }

/-- The mmap region grows by the page at `p->mmap`. -/
lemma Space.mmapped {pt' : Pagetable} {pa : Nat} (h : Space floor tramp p pt tf)
    (hsz : pages p.sz < p.low) (hlow : p.low < tfPage) (hmmap : p.mmap ≠ 0)
    (hleaf : pt'.leaf = Function.update pt.leaf p.low (some (pa2pte pa .rwu))) :
    Space floor tramp (p.mmapped pt') pt' tf ∧ (p.mmapped pt').low + 1 = p.low := by
  have hlow' : (p.mmapped pt').low + 1 = p.low := by
    have halign := h.aligned
    change (p.mmap - pgsize) / pgsize + 1 = p.low
    rw [halign]
    simp only [pgsize]
    omega
  have hidle : p.hasMmap = false → p.low + 1 = tfPage := fun hhas =>
    low_of_top ((h.idle hhas).resolve_left hmmap)
  have hmap : (p.mmapped pt').mmap = p.mmap - pgsize := rfl
  have hsize : pages (p.mmapped pt').sz = pages p.sz := rfl
  refine ⟨⟨rfl, h.trapframe, ?_, h.size, fun m hfloor hm => ?_, ?_, fun _ => ?_, fun _ m hm hlt => ?_,
    fun m hm hne => ?_, fun hhas => ?_⟩, hlow'⟩
  · refine h.top.congr fun m hm => ?_
    rw [hleaf, Function.update_of_ne (by omega)]
  · rw [hleaf, Function.update_of_ne (by omega)]
    exact h.heap m hfloor hm
  · rw [hmap, h.aligned]
    simp only [pgsize]
    omega
  · rw [hsize]
    omega
  · by_cases hml : m = p.low
    · exact ⟨pa, by rw [hleaf, hml, Function.update_self]⟩
    · rw [hleaf, Function.update_of_ne hml]
      by_cases hhas : p.hasMmap = true
      · exact h.region hhas m (by omega) hlt
      · have := hidle (by simpa using hhas)
        omega
  · rw [hsize]
    by_cases hml : m = p.low
    · exact Or.inr ⟨rfl, by omega⟩
    · rw [hleaf, Function.update_of_ne hml] at hne
      refine (h.user m hm hne).imp_right fun hin => ⟨rfl, ?_⟩
      have hlt := hin.2
      omega
  · cases hhas

end

/-- What `sys_mmap` of process `i` does. -/
inductive Mmaps (s : State) (i : Fin nproc) (t : State) : Int → Prop
  | failed {pt pt' : Pagetable} (hpt : (s.proc i).pagetable = some pt) (hleaf : pt'.leaf = pt.leaf)
      (hproc : t.proc = Function.update s.proc i { s.proc i with pagetable := some pt' }) : Mmaps s i t (-1)
  | done {pt pt' : Pagetable} {pa : Nat} (hpt : (s.proc i).pagetable = some pt)
      (hlow : pages (s.proc i).sz < (s.proc i).low ∧ (s.proc i).low < tfPage)
      (hva : (s.proc i).mmap = (s.proc i).low * pgsize) (hnone : pt.leaf (s.proc i).low = none)
      (hfree : pa ∈ s.kmem.freelist) (haddr : PageAddr pa)
      (hleaf : pt'.leaf = Function.update pt.leaf (s.proc i).low (some (pa2pte pa .rwu)))
      (hproc : t.proc = Function.update s.proc i ((s.proc i).mmapped pt'))
      (hzero : t.kmem.page pa = fun _ => 0) : Mmaps s i t (s.proc i).mmap

lemma Mmaps.shares {r : Int} {n x : Nat} (h : Mmaps s i t r) (hs : (s.proc i).Shares n x) :
    (t.proc i).Shares n x := by
  obtain ⟨hhas, hlow, hn, pt₀, hpt₀, hq⟩ := hs
  cases h with
  | @failed pt pt' hpt hleaf hproc =>
    obtain rfl : pt = pt₀ := Option.some.inj (hpt.symm.trans hpt₀)
    rw [hproc, Function.update_self]
    exact ⟨hhas, hlow, hn, pt', rfl, by rw [hleaf, hq]⟩
  | @done pt pt' pa hpt hsz hva hnone hfree haddr hleaf hproc hzero =>
    obtain rfl : pt = pt₀ := Option.some.inj (hpt.symm.trans hpt₀)
    rw [hproc, Function.update_self]
    refine ⟨rfl, ?_, hn, pt', rfl, ?_⟩
    · refine lt_of_le_of_lt (Nat.div_le_div_right (Nat.sub_le _ _)) hlow
    · rw [hleaf, Function.update_of_ne (by omega), hq]

/-- Pages of the heap may have been faulted in. -/
lemma Space.faulted {tramp tf : Nat} {pt pt' : Pagetable} {p : Proc}
    (h : Space floor tramp p pt tf) (hf : Faulted p.sz pt.leaf pt'.leaf) :
    Space floor tramp { p with pagetable := some pt' } pt' tf ∧
      (p.hasMmap = true → ∀ m, p.low < m → m < tfPage → pt'.leaf m = pt.leaf m) := by
  have hregion : p.hasMmap = true → ∀ m, p.low < m → m < tfPage → pt'.leaf m = pt.leaf m := by
    intro hhas m hm hlt
    rcases hf m with heq | ⟨hnone, -, -⟩
    · exact heq
    · obtain ⟨pa, hpa⟩ := h.region hhas m hm hlt
      rw [hpa] at hnone
      cases hnone
  refine ⟨⟨rfl, h.trapframe, hf.top h.size h.top, h.size, fun m hfloor hm => ?_, h.aligned, h.apart,
    fun hhas m hm hlt => ?_, fun m hm hne => ?_, h.idle⟩, hregion⟩
  · rcases hf m with heq | ⟨-, -, pa, hpa⟩
    · rw [heq]
      exact h.heap m hfloor hm
    · simp [hpa]
  · rw [hregion hhas m hm hlt]
    exact h.region hhas m hm hlt
  · rcases hf m with heq | ⟨-, hlt, -⟩
    · rw [heq] at hne
      exact h.user m hm hne
    · exact Or.inl hlt

/-- The process with other page-table pages, and the allocator after that. -/
def State.repaged (s : State) (i : Fin nproc) (pt : Pagetable) (k : Kmem) : State :=
  { s.setProc i { s.proc i with pagetable := some pt } with kmem := k }

lemma State.repaged_self (s : State) (i : Fin nproc) (pt : Pagetable) (k : Kmem) :
    (s.repaged i pt k).proc i = { s.proc i with pagetable := some pt } :=
  s.setProc_self i _

/-- `sys_mmap`, once it has a page. -/
lemma sysMmap_some {pt pt' : Pagetable} {k k' : Kmem} {pa : Nat} {b : Bool}
    (hpt : (s.proc i).pagetable = some pt) (hva : (s.proc i).mmap % pgsize = 0)
    (hk : s.kmem.kalloc = (some pa, k))
    (hmap : mappages (k.fill pa 0) pt (s.proc i).mmap pgsize pa .rwu = .ok (b, k', pt'))
    (hfound : b = true → walkaddr k' pt' (s.proc i).mmap = .ok pa)
    (hnext : sub64 (s.proc i).mmap pgsize = (s.proc i).mmap - pgsize) :
    sysMmap s i = .ok (if b then
        (((s.proc i).mmap : Int), { s.setProc i ((s.proc i).mmapped pt') with kmem := k' })
      else (-1, s.repaged i pt' (k'.kfree pa))) := by
  unfold sysMmap
  dsimp only
  rw [if_neg (by simp [hva]), hk, hpt]
  change (mappages (k.fill pa 0) pt (s.proc i).mmap pgsize pa .rwu >>= _) = _
  rw [hmap, ok_bind]
  cases b with
  | false => rfl
  | true =>
    change (walkaddr k' pt' (s.proc i).mmap >>= _) = _
    rw [hfound rfl, ok_bind, if_neg (by simp), hnext]
    rfl

/-- Page-table pages of the process have come in, and pages of its heap. -/
lemma Good.repaged {pt pt' : Pagetable} {tf : Nat} {k : Kmem} (h : Good floor V held s)
    (hi : (s.proc i).state ≠ .UNUSED) (hsp : Space floor s.trampoline (s.proc i) pt tf)
    (hf : Faulted (s.proc i).sz pt.leaf pt'.leaf) (htr : s.kmem.Trades V k pt.refs pt'.refs) :
    Good floor V held (s.repaged i pt' k) := by
  obtain ⟨hsp', hregion⟩ := hsp.faulted hf
  refine h.replace rfl rfl ?_ (fun n x hs _ => ?_) (fun hu => absurd hu hi) fun _ => ⟨pt', tf, hsp'⟩
  · rw [hsp.refs, hsp'.refs]
    exact htr.frame_left {tf}
  · obtain ⟨hhas, hlow, hn, pt₀, hpt₀, hq⟩ := hs
    obtain rfl : pt = pt₀ := Option.some.inj (hsp.pagetable.symm.trans hpt₀)
    exact ⟨hhas, hlow, hn, pt', rfl, by rw [hregion hhas n hlow hn, hq]⟩

/-- `sys_mmap` of a process that has an mmap region to grow always finds a page for it to go to. -/
lemma sysMmap_total (h : Good floor V held s) (hfloor : floor + npages + 2 ≤ tfPage)
    (hi : (s.proc i).state ≠ .UNUSED) (hmmap : (s.proc i).mmap ≠ 0) :
    ∃ r t, sysMmap s i = .ok (r, t) ∧ Good floor V held t ∧ t.trampoline = s.trampoline ∧
      Mmaps s i t r := by
  have htf := tfPage_eq
  obtain ⟨pt, tf, hsp⟩ := h.used i hi
  have hB := h.books_others i
  obtain ⟨hsz, hlow, hnone⟩ := hsp.low_free hB (h.nodup i) hfloor hmmap
  have hva : (s.proc i).mmap = (s.proc i).low * pgsize := hsp.aligned
  have halign : (s.proc i).mmap % pgsize = 0 := by rw [hva, Nat.mul_mod_left]
  have hnext : sub64 (s.proc i).mmap pgsize = (s.proc i).mmap - pgsize := by
    rw [hva]
    simp only [sub64, pgsize]
    omega
  cases hk : s.kmem.kalloc with
  | mk found k =>
    cases found with
    | none =>
      obtain rfl := Kmem.kalloc_none hk
      refine ⟨-1, s, ?_, h, rfl, .failed hsp.pagetable rfl ?_⟩
      · unfold sysMmap
        dsimp only
        rw [if_neg (by simp [halign]), hk]
        rfl
      · rw [← hsp.pagetable]
        exact (Function.update_eq_self i s.proc).symm
    | some pa =>
      obtain ⟨b, k1, pt1, hmap⟩ := mappages_total (by omega) hnone (k.fill pa 0) pa .rwu
      obtain ⟨-, hmapped⟩ := mappages_ok (V := V) hmap
      rw [← hva] at hmap
      have hfree : pa ∈ s.kmem.freelist := by
        rw [(Kmem.kalloc_some hk).1]
        exact List.mem_cons_self
      have haddr : PageAddr pa := V.page_addr pa ((hB.mem_free pa).mp hfree).1
      have htake : s.kmem.Trades V (k.fill pa 0) pt.refs ({pa} + pt.refs) := Kmem.trades_take hk _ _
      have hfound : b = true → walkaddr k1 pt1 (s.proc i).mmap = .ok pa := by
        rintro rfl
        have hleaf : pt1.leaf = Function.update pt.leaf (s.proc i).low (some (pa2pte pa .rwu)) := hmapped.leaf
        rw [hva, walkaddr_page k1 pt1 (by omega), hleaf, Function.update_self]
        exact congrArg Except.ok (pa_pa2pte haddr.aligned .rwu)
      have hrun := sysMmap_some hsp.pagetable halign hk hmap hfound hnext
      cases b with
      | false =>
        have hback := (htake.trans (hmapped.trades_of_not.frame_left {pa})).trans (Kmem.trades_drop V k1 pa _)
        exact ⟨-1, _, hrun, h.repaged hi hsp (fun m => Or.inl (congrFun hmapped.leaf m)) hback, rfl, .failed hsp.pagetable hmapped.leaf rfl⟩
      | true =>
        have hleaf : pt1.leaf = Function.update pt.leaf (s.proc i).low (some (pa2pte pa .rwu)) := hmapped.leaf
        obtain ⟨hsp', -⟩ := hsp.mmapped hsz hlow hmmap hleaf
        have hzero : k1.page pa = fun _ => 0 := by
          have hBk := (htake.frame_left {tf}).accounts (hsp.refs ▸ hB)
          have hBk' : (k.fill pa 0).Books V (others held s i + {tf} + {pa} + pt.refs) := by
            rw [add_assoc, add_assoc]
            exact hBk
          have hnode : pa ∉ pt.nodes := by
            intro hmem
            refine hB.notMem_of_free hfree (Multiset.mem_add.mpr (Or.inr ?_))
            rw [hsp.refs, Pagetable.refs]
            exact Multiset.mem_add.mpr (Or.inr (Multiset.mem_add.mpr (Or.inl hmem)))
          rw [hmapped.page_eq hBk' (by simp) hnode]
          exact Function.update_self _ _ _
        have hdone : Mmaps s i { s.setProc i ((s.proc i).mmapped pt1) with kmem := k1 } (s.proc i).mmap :=
          .done hsp.pagetable ⟨hsz, hlow⟩ hva hnone hfree haddr hleaf rfl hzero
        refine ⟨_, _, hrun, h.replace rfl rfl ?_ (fun n x hs _ => ?_) (fun hu => absurd hu hi) fun _ =>
          ⟨pt1, tf, hsp'⟩, rfl, hdone⟩
        · rw [hsp.refs, hsp'.refs]
          exact (htake.trans (hmapped.trades_refs hlow)).frame_left {tf}
        · have hnew := hdone.shares hs
          rwa [show ({ s.setProc i ((s.proc i).mmapped pt1) with kmem := k1 } : State).proc i =
            (s.proc i).mmapped pt1 from s.setProc_self i _] at hnew

/-- `sys_mmap` at a page that is mapped returns only if there is no memory. -/
lemma sysMmap_mapped {pt : Pagetable} {q : Pte} {r : Int} (hpt : (s.proc i).pagetable = some pt)
    (hva : (s.proc i).mmap = (s.proc i).low * pgsize) (hlow : (s.proc i).low < 2 ^ 26)
    (hq : pt.leaf (s.proc i).low = some q) (h : sysMmap s i = .ok (r, t)) : r = -1 ∧ t = s := by
  unfold sysMmap at h
  dsimp only at h
  rw [if_neg (by rw [hva]; simp [Nat.mul_mod_left])] at h
  split at h
  · next k hk =>
    obtain rfl := Kmem.kalloc_none hk
    obtain ⟨rfl, rfl⟩ := Prod.mk.inj (pure_ok h)
    exact ⟨rfl, rfl⟩
  · next pa k hk =>
    rw [hpt] at h
    obtain ⟨pt₀, hpt₀, h⟩ := bind_ok h
    obtain rfl : pt = pt₀ := Option.some.inj (deref_ok hpt₀)
    obtain ⟨_, hmap, -⟩ := bind_ok h
    rw [hva, mappages_remap hlow hq] at hmap
    cases hmap

/-! ### Faults and wait -/

/-- The memory of process `i` has been repaged, if at all. -/
inductive Repaged (s : State) (i : Fin nproc) : State → Prop
  | same : Repaged s i s
  | repaged {pt pt' : Pagetable} {k : Kmem} (hpt : (s.proc i).pagetable = some pt)
      (hf : Faulted (s.proc i).sz pt.leaf pt'.leaf) : Repaged s i (s.repaged i pt' k)

lemma pageFault_good {va : Nat} {b : Bool} (h : Good floor V held s)
    (hi : (s.proc i).state ≠ .UNUSED) (hf : pageFault s i va = .ok (b, t)) :
    Good floor V held t ∧ t.trampoline = s.trampoline ∧ Repaged s i t := by
  obtain ⟨pt, tf, hsp⟩ := h.used i hi
  have htf := tfPage_eq
  have hsz := hsp.size
  unfold pageFault at hf
  dsimp only at hf
  rw [hsp.pagetable] at hf
  obtain ⟨pt₀, hpt₀, hf⟩ := bind_ok hf
  obtain rfl : pt = pt₀ := Option.some.inj (deref_ok hpt₀)
  obtain ⟨⟨mem, k, pt'⟩, hfault, hf⟩ := bind_ok hf
  obtain ⟨-, rfl⟩ := Prod.mk.inj (pure_ok hf)
  have hspec : s.kmem.Trades V k pt.refs pt'.refs ∧ Faulted (s.proc i).sz pt.leaf pt'.leaf := by
    by_cases hva : va < (s.proc i).sz
    · rw [vmfault_round hva] at hfault
      have hn : va / pgsize < pages (s.proc i).sz :=
        lt_pages ((Nat.div_mul_le_self va pgsize).trans_lt hva)
      obtain ⟨htr, hleaf, -⟩ := vmfault_ok (V := V) (by omega) hsz hfault
      exact ⟨htr, hleaf⟩
    · rw [vmfault, if_pos (by omega)] at hfault
      cases hfault
      exact ⟨Trade.refl _ _ _, Faulted.refl _ _⟩
  exact ⟨h.repaged hi hsp hspec.2 hspec.1, rfl, .repaged hsp.pagetable hspec.2⟩

lemma copyoutInt_good {addr : Nat} {n : Int} {b : Bool} (h : Good floor V held s)
    (hi : (s.proc i).state ≠ .UNUSED) (hc : copyoutInt s i addr n = .ok (b, t)) :
    Good floor V held t ∧ t.trampoline = s.trampoline ∧ Repaged s i t := by
  unfold copyoutInt at hc
  split at hc
  · obtain ⟨-, rfl⟩ := Prod.mk.inj (pure_ok hc)
    exact ⟨h, rfl, .same⟩
  · obtain ⟨pt, tf, hsp⟩ := h.used i hi
    dsimp only at hc
    rw [hsp.pagetable] at hc
    obtain ⟨pt₀, hpt₀, hc⟩ := bind_ok hc
    obtain rfl : pt = pt₀ := Option.some.inj (deref_ok hpt₀)
    obtain ⟨⟨copied, k, pt'⟩, hcopy, hc⟩ := bind_ok hc
    obtain ⟨-, rfl⟩ := Prod.mk.inj (pure_ok hc)
    obtain ⟨htr, hf⟩ := copyout_own (V := V) hsp.size hsp.top hcopy
    exact ⟨h.repaged hi hsp hf htr, rfl, .repaged hsp.pagetable hf⟩

lemma Repaged.other (h : Repaged s i t) {l : Fin nproc} (hl : l ≠ i) : t.proc l = s.proc l := by
  cases h with
  | same => rfl
  | repaged hpt hf => exact s.setProc_of_ne hl _

lemma Repaged.state (h : Repaged s i t) (l : Fin nproc) : (t.proc l).state = (s.proc l).state := by
  by_cases hl : l = i
  · subst hl
    cases h with
    | same => rfl
    | repaged hpt hf => rw [State.repaged_self]
  · rw [h.other hl]

/-- Process `j` is given up. -/
lemma Good.free {p : Proc} {k : Kmem} (h : Good floor V held s) (hj : (s.proc j).state ≠ .UNUSED)
    (hf : freeproc s.kmem (s.proc j) = .ok (k, p)) :
    p = (s.proc j).cleared ∧ Good floor V held { s.setProc j p with kmem := k } := by
  obtain ⟨pt, tf, hsp⟩ := h.used j hj
  have hB := h.books_others j
  obtain ⟨k', hok, htr⟩ := freeproc_total (hsp.freeable hB).reclaimable s.kmem
  obtain ⟨rfl, rfl⟩ := Prod.mk.inj (Except.ok.inj (hok.symm.trans hf))
  have hB' := (htr V).accounts hB
  rw [add_zero] at hB'
  exact ⟨rfl, h.vacate hB' rfl rfl ⟨rfl, rfl, rfl⟩ rfl⟩

lemma Repaged.trans {u : State} (h : Repaged s i t) (h' : Repaged t i u) : Repaged s i u := by
  cases h with
  | same => exact h'
  | @repaged pt pt₁ k hpt hf =>
    cases h' with
    | same => exact .repaged hpt hf
    | @repaged pt₂ pt' k' hpt' hf' =>
      rw [State.repaged_self] at hpt' hf'
      obtain rfl : pt₁ = pt₂ := Option.some.inj hpt'
      have hstate : (s.repaged i pt₁ k).repaged i pt' k' = s.repaged i pt' k' := by
        unfold State.repaged State.setProc
        simp
      rw [hstate]
      exact .repaged hpt (hf.trans hf')

/-- A child is collected: the caller may have been repaged, and the slot of the child is cleared. -/
inductive Reaps (floor : Nat) (V : Arena) (held : Multiset Nat) (s : State) (i j : Fin nproc) :
    Bool → State → Prop
  | refused {t : State} (h : Repaged s i t) : Reaps floor V held s i j false t
  | collected {u : State} {k : Kmem} (hgood : Good floor V held u) (h : Repaged s i u) :
      Reaps floor V held s i j true { u.setProc j (u.proc j).cleared with kmem := k }

lemma reap_good {status count : Nat} {b : Bool} (h : Good floor V held s)
    (hi : (s.proc i).state ≠ .UNUSED) (hj : (s.proc j).state ≠ .UNUSED)
    (hr : reap s i j status count = .ok (b, t)) :
    Good floor V held t ∧ t.trampoline = s.trampoline ∧ Reaps floor V held s i j b t := by
  unfold reap at hr
  obtain ⟨⟨c₁, s₁⟩, h₁, hr⟩ := bind_ok hr
  obtain ⟨hgood₁, htramp₁, hrep₁⟩ := copyoutInt_good h hi h₁
  cases c₁ with
  | false =>
    obtain ⟨rfl, rfl⟩ := Prod.mk.inj (pure_ok hr)
    exact ⟨hgood₁, htramp₁, .refused hrep₁⟩
  | true =>
    obtain ⟨⟨c₂, s₂⟩, h₂, hr⟩ := bind_ok hr
    obtain ⟨hgood₂, htramp₂, hrep₂⟩ := copyoutInt_good hgood₁ (by rwa [hrep₁.state]) h₂
    have hrep := hrep₁.trans hrep₂
    cases c₂ with
    | false =>
      obtain ⟨rfl, rfl⟩ := Prod.mk.inj (pure_ok hr)
      exact ⟨hgood₂, htramp₂.trans htramp₁, .refused hrep⟩
    | true =>
      obtain ⟨⟨k, pp⟩, hfree, hr⟩ := bind_ok hr
      obtain ⟨rfl, rfl⟩ := Prod.mk.inj (pure_ok hr)
      obtain ⟨rfl, hgood⟩ := hgood₂.free (by rwa [hrep.state]) hfree
      exact ⟨hgood, htramp₂.trans htramp₁, .collected hgood₂ hrep⟩

/-- What `kwait2` of process `i` does. -/
inductive Waits (floor : Nat) (V : Arena) (held : Multiset Nat) (s : State) (i : Fin nproc)
    (t : State) : Prop
  | none : t = s → Waits floor V held s i t
  | reaps {j : Fin nproc} {b : Bool} (hparent : (s.proc j).parent = some i)
      (hstate : (s.proc j).state = .ZOMBIE) (h : Reaps floor V held s i j b t) :
      Waits floor V held s i t

lemma kwait2_good {status count : Nat} {r : Int} (h : Good floor V held s)
    (hi : (s.proc i).state ≠ .UNUSED) (hw : kwait2 s i status count = .ok (r, t)) :
    Good floor V held t ∧ t.trampoline = s.trampoline ∧ Waits floor V held s i t := by
  unfold kwait2 at hw
  split at hw
  · next j hfind =>
    obtain ⟨hparent, hzombie⟩ : (s.proc j).parent = some i ∧ (s.proc j).state = .ZOMBIE := by
      simpa using List.find?_some hfind
    obtain ⟨⟨b, u⟩, hreap, hw⟩ := bind_ok hw
    obtain ⟨-, rfl⟩ := Prod.mk.inj (pure_ok hw)
    obtain ⟨hgood, htramp, hreaps⟩ := reap_good h hi (by simp [hzombie]) hreap
    exact ⟨hgood, htramp, .reaps hparent hzombie hreaps⟩
  · split at hw
    · obtain ⟨-, rfl⟩ := Prod.mk.inj (pure_ok hw)
      exact ⟨h, rfl, .none rfl⟩
    · cases hw

/-! ### sbrk -/

section

variable {tramp tf newsz : Nat} {pt pt' : Pagetable} {p : Proc} {R : Multiset Nat} {k : Kmem}

/-- The heap has grown to `newsz`, page by page. -/
lemma Space.grown {perm : Perm} (h : Space floor tramp p pt tf) (hsz : pages newsz ≤ tfPage)
    (hle : p.sz ≤ newsz)
    (hg : Grown pt.leaf (pages p.sz) (pages newsz - pages p.sz) perm pt'.leaf) :
    Space floor tramp { p with pagetable := some pt', sz := newsz } pt' tf ∧
      (p.hasMmap = true → ∀ m, p.low < m → m < tfPage → pt'.leaf m = pt.leaf m) := by
  have hmono := pages_mono hle
  -- the pages of the mmap region were mapped, so the heap ends below
  have happart : p.hasMmap = true → pages newsz ≤ p.low + 1 ∧ p.low + 1 < tfPage := by
    intro hhas
    obtain ⟨hle', hlt⟩ := h.apart hhas
    refine ⟨?_, hlt⟩
    by_contra hgt
    obtain ⟨pa, hpa⟩ := h.region hhas (p.low + 1) (by omega) hlt
    rw [hg.fresh (p.low + 1) hle' (by omega)] at hpa
    cases hpa
  have hregion : p.hasMmap = true → ∀ m, p.low < m → m < tfPage → pt'.leaf m = pt.leaf m := by
    intro hhas m hm _
    have := happart hhas
    exact hg.same m (by omega)
  refine ⟨⟨rfl, h.trapframe, hg.top (by omega) h.top, hsz, fun m hfloor hm => ?_, h.aligned, happart,
    fun hhas m hm hlt => ?_, fun m hm hne => ?_, h.idle⟩, hregion⟩
  · by_cases hmp : m < pages p.sz
    · rw [hg.same m (Or.inl hmp)]
      exact h.heap m hfloor hmp
    · have hm' : m < pages newsz := hm
      obtain ⟨pa, hpa⟩ := hg.mapped m (by omega) (by omega)
      simp [hpa]
  · rw [hregion hhas m hm hlt]
    exact h.region hhas m hm hlt
  · by_cases hmn : m < pages newsz
    · exact Or.inl hmn
    · rw [hg.same m (by omega)] at hne
      refine (h.user m hm hne).imp_left fun hlt => ?_
      omega

/-- The heap has shrunk to `newsz`. -/
lemma Space.shrunk (h : Space floor tramp p pt tf) (hlt : newsz < p.sz)
    (hcut : pt'.leaf = cut pt.leaf (pages newsz) (pages p.sz - pages newsz)) :
    Space floor tramp { p with pagetable := some pt', sz := newsz } pt' tf ∧
      (p.hasMmap = true → ∀ m, p.low < m → m < tfPage → pt'.leaf m = pt.leaf m) := by
  have hmono := pages_mono hlt.le
  have hsz := h.size
  have hout : ∀ m, m < pages newsz ∨ pages p.sz ≤ m → pt'.leaf m = pt.leaf m := by
    intro m hm
    rw [hcut, cut, if_neg (by omega)]
  have hregion : p.hasMmap = true → ∀ m, p.low < m → m < tfPage → pt'.leaf m = pt.leaf m := by
    intro hhas m hm _
    have := h.apart hhas
    exact hout m (by omega)
  refine ⟨⟨rfl, h.trapframe, h.top.congr fun m hm => hout m (by omega), hmono.trans hsz,
    fun m hfloor hm => ?_, h.aligned, fun hhas => ?_, fun hhas m hm hlt' => ?_, fun m hm hne => ?_, h.idle⟩, hregion⟩
  · have hm' : m < pages newsz := hm
    rw [hout m (Or.inl hm')]
    exact h.heap m hfloor (by omega)
  · obtain ⟨hle, hlow⟩ := h.apart hhas
    exact ⟨hmono.trans hle, hlow⟩
  · rw [hregion hhas m hm hlt']
    exact h.region hhas m hm hlt'
  · by_cases hmn : m < pages newsz
    · exact Or.inl hmn
    · by_cases hmp : m < pages p.sz
      · rw [hcut, cut, if_pos (by omega)] at hne
        exact absurd rfl hne
      · rw [hout m (by omega)] at hne
        exact (h.user m hm hne).imp_left fun hlt' => by omega

/-- Only the size has grown, and stays below `floor`. -/
lemma Space.lazy (h : Space floor tramp p pt tf) (hB : k.Books V (R + p.refs))
    (hnodup : p.refs.Nodup) (hfloor : floor + npages + 2 ≤ tfPage) (hle : p.sz ≤ newsz)
    (hnew : pages newsz ≤ floor) : Space floor tramp { p with sz := newsz } pt tf := by
  have hmono := pages_mono hle
  have hslack := h.slack hB hnodup hfloor
  refine ⟨h.pagetable, h.trapframe, h.top, ?_, fun m hfl hm => ?_, h.aligned, fun hhas => ?_, h.region,
    fun m hm hne => (h.user m hm hne).imp_left fun hlt => ?_, h.idle⟩
  · change pages newsz ≤ tfPage
    omega
  · have hm' : m < pages newsz := hm
    omega
  · obtain ⟨-, hlow⟩ := h.apart hhas
    rw [Proc.ceiling, if_pos hhas] at hslack
    refine ⟨?_, hlow⟩
    change pages newsz ≤ p.low + 1
    omega
  · exact lt_of_lt_of_le hlt hmono

end

/-- The process with another page table and another size. -/
def State.resized (s : State) (i : Fin nproc) (pt : Pagetable) (sz : Nat) (k : Kmem) : State :=
  { s.setProc i { s.proc i with pagetable := some pt, sz := sz } with kmem := k }

lemma State.resized_same {pt : Pagetable} (hpt : (s.proc i).pagetable = some pt) :
    s.resized i pt (s.proc i).sz s.kmem = s := by
  unfold State.resized State.setProc
  rw [← hpt]
  have hproc : Function.update s.proc i { s.proc i with pagetable := (s.proc i).pagetable, sz := (s.proc i).sz } = s.proc :=
    Function.update_eq_self i s.proc
  dsimp only
  rw [hproc]

lemma Good.resized {pt pt' : Pagetable} {tf sz : Nat} {k : Kmem} (h : Good floor V held s)
    (hi : (s.proc i).state ≠ .UNUSED) (hsp : Space floor s.trampoline (s.proc i) pt tf)
    (hsp' : Space floor s.trampoline { s.proc i with pagetable := some pt', sz := sz } pt' tf)
    (hregion : (s.proc i).hasMmap = true →
      ∀ m, (s.proc i).low < m → m < tfPage → pt'.leaf m = pt.leaf m)
    (htr : s.kmem.Trades V k pt.refs pt'.refs) : Good floor V held (s.resized i pt' sz k) := by
  refine h.replace rfl rfl ?_ (fun n x hs _ => ?_) (fun hu => absurd hu hi) fun _ => ⟨pt', tf, hsp'⟩
  · rw [hsp.refs, hsp'.refs]
    exact htr.frame_left {tf}
  · obtain ⟨hhas, hlow, hn, pt₀, hpt₀, hq⟩ := hs
    obtain rfl : pt = pt₀ := Option.some.inj (hsp.pagetable.symm.trans hpt₀)
    exact ⟨hhas, hlow, hn, pt', rfl, by rw [hregion hhas n hlow hn, hq]⟩

/-- `growproc` by `n > 0` bytes. -/
lemma growproc_pos {n : Int} (h : Good floor V held s) (hfloor : floor + npages + 2 ≤ tfPage)
    (hi : (s.proc i).state ≠ .UNUSED) (hn : 0 < n) :
    ∃ r pt sz k, growproc s i n = .ok (r, s.resized i pt sz k) ∧ Good floor V held (s.resized i pt sz k) := by
  obtain ⟨pt, tf, hsp⟩ := h.used i hi
  have hB := h.books_others i
  have hslack := hsp.slack hB (h.nodup i) hfloor
  have hceil : (s.proc i).ceiling ≤ tfPage := by
    unfold Proc.ceiling
    split
    · next hhas =>
      have := hsp.apart hhas
      omega
    · exact le_rfl
  have hempty : ∀ m, pages (s.proc i).sz ≤ m → m < (s.proc i).ceiling → pt.leaf m = none := by
    intro m hm hlt
    by_contra hne
    rcases hsp.user m (by omega) hne with hlt' | ⟨hhas, hlow⟩
    · omega
    · rw [Proc.ceiling, if_pos hhas] at hlt
      omega
  obtain ⟨sz, k, pt', halloc⟩ := uvmalloc_total (k := s.kmem) (u64 ((s.proc i).sz + n.toNat)) .W hceil (by omega) hempty
  have hrun : growproc s i n = if sz = 0 then .ok (-1, s.resized i pt' (s.proc i).sz k)
      else .ok (0, s.resized i pt' sz k) := by
    unfold growproc
    dsimp only
    rw [if_pos hn, hsp.pagetable]
    change (uvmalloc s.kmem pt (s.proc i).sz (u64 ((s.proc i).sz + n.toNat)) .W >>= _) = _
    rw [halloc, ok_bind]
    rfl
  by_cases hlt : u64 ((s.proc i).sz + n.toNat) < (s.proc i).sz
  · rw [uvmalloc, if_pos hlt] at halloc
    cases halloc
    rw [if_neg (by omega)] at hrun
    refine ⟨0, pt, (s.proc i).sz, s.kmem, hrun, ?_⟩
    rw [State.resized_same hsp.pagetable]
    exact h
  · obtain ⟨htr, ⟨rfl, hsz, hgrown⟩ | ⟨rfl, hleaf⟩⟩ := uvmalloc_ok (V := V) (by omega) hsp.size hsp.top halloc
    · by_cases hzero : u64 ((s.proc i).sz + n.toNat) = 0
      · rw [if_pos hzero] at hrun
        refine ⟨-1, pt', (s.proc i).sz, k, hrun, ?_⟩
        have hold : (s.proc i).sz = 0 := by omega
        rw [hzero] at hgrown hsz
        have hleaf : ∀ m, pt'.leaf m = pt.leaf m := by
          intro m
          rw [hold] at hgrown
          exact hgrown.same m (by omega)
        exact h.repaged hi hsp (fun m => Or.inl (hleaf m)) htr
      · rw [if_neg hzero] at hrun
        obtain ⟨hsp', hregion⟩ := hsp.grown hsz (by omega) hgrown
        exact ⟨0, pt', _, k, hrun, h.resized hi hsp hsp' hregion htr⟩
    · rw [if_pos rfl] at hrun
      exact ⟨-1, pt', (s.proc i).sz, k, hrun, h.repaged hi hsp (fun m => Or.inl (congrFun hleaf m)) htr⟩

/-- `growproc` by `n < 0` bytes. -/
lemma growproc_neg {n : Int} (h : Good floor V held s) (hi : (s.proc i).state ≠ .UNUSED) (hn : n < 0) :
    ∃ pt sz k, growproc s i n = .ok (0, s.resized i pt sz k) ∧ sz ≤ (s.proc i).sz ∧
      Good floor V held (s.resized i pt sz k) := by
  have htf := tfPage_eq
  obtain ⟨pt, tf, hsp⟩ := h.used i hi
  have hsize := hsp.size
  have hrun : ∀ {sz : Nat} {k : Kmem} {pt' : Pagetable},
      uvmdealloc s.kmem pt (s.proc i).sz (sub64 (s.proc i).sz n.natAbs) = .ok (sz, k, pt') →
      growproc s i n = .ok (0, s.resized i pt' sz k) := by
    intro sz k pt' hd
    unfold growproc
    dsimp only
    rw [if_neg (by omega), if_pos hn, hsp.pagetable]
    change (uvmdealloc s.kmem pt (s.proc i).sz (sub64 (s.proc i).sz n.natAbs) >>= _) = _
    rw [hd, ok_bind]
    rfl
  by_cases hlt : sub64 (s.proc i).sz n.natAbs < (s.proc i).sz
  · have hmono := pages_mono hlt.le
    obtain ⟨k, pt', hun⟩ := uvmunmapLoop_total (d := true) (a := pages (sub64 (s.proc i).sz n.natAbs))
      (c := pages (s.proc i).sz - pages (sub64 (s.proc i).sz n.natAbs)) (by omega) s.kmem pt
    have hunmapped := uvmunmapLoop_ok (V := V) hun
    obtain ⟨hsp', hregion⟩ := hsp.shrunk hlt hunmapped.leaf
    refine ⟨pt', _, k, hrun ?_, hlt.le, h.resized hi hsp hsp' hregion
      (hunmapped.trades rfl fun m hm hlt' => by omega)⟩
    rw [uvmdealloc_eq (by omega) hlt, hun]
    rfl
  · refine ⟨pt, (s.proc i).sz, s.kmem, hrun ?_, le_rfl, ?_⟩
    · rw [uvmdealloc, if_pos (by omega)]
      rfl
    · rw [State.resized_same hsp.pagetable]
      exact h

/-- `growproc` never meets a page that is mapped. -/
lemma growproc_total (h : Good floor V held s) (hfloor : floor + npages + 2 ≤ tfPage)
    (hi : (s.proc i).state ≠ .UNUSED) (n : Int) :
    ∃ r pt sz k, growproc s i n = .ok (r, s.resized i pt sz k) ∧ Good floor V held (s.resized i pt sz k) := by
  rcases lt_trichotomy n 0 with hn | rfl | hn
  · obtain ⟨pt, sz, k, hrun, -, hgood⟩ := growproc_neg h hi hn
    exact ⟨0, pt, sz, k, hrun, hgood⟩
  · obtain ⟨pt, tf, hsp⟩ := h.used i hi
    refine ⟨0, pt, (s.proc i).sz, s.kmem, ?_, ?_⟩
    · rw [State.resized_same hsp.pagetable]
      rfl
    · rw [State.resized_same hsp.pagetable]
      exact h
  · exact growproc_pos h hfloor hi hn

/-- `sbrk`, when a lazy growth stays below `floor`. -/
lemma sysSbrk_total {n : Int} {eager : Bool} (h : Good floor V held s)
    (hfloor : floor + npages + 2 ≤ tfPage) (hi : (s.proc i).state ≠ .UNUSED)
    (hlazy : eager = false → 0 ≤ n → (s.proc i).sz ≤ u64 ((s.proc i).sz + n.toNat) →
      pages (u64 ((s.proc i).sz + n.toNat)) ≤ floor) :
    ∃ r pt sz k, sysSbrk s i n eager = .ok (r, s.resized i pt sz k) ∧
      Good floor V held (s.resized i pt sz k) := by
  obtain ⟨pt, tf, hsp⟩ := h.used i hi
  unfold sysSbrk
  dsimp only
  split
  · obtain ⟨r, pt', sz, k, hgrow, hgood⟩ := growproc_total h hfloor hi n
    rw [hgrow, ok_bind]
    dsimp only
    split
    · exact ⟨-1, pt', sz, k, rfl, hgood⟩
    · exact ⟨_, pt', sz, k, rfl, hgood⟩
  · next hcase =>
    rw [not_or, not_lt] at hcase
    split
    · refine ⟨-1, pt, (s.proc i).sz, s.kmem, ?_, ?_⟩
      · rw [State.resized_same hsp.pagetable]
        rfl
      · rw [State.resized_same hsp.pagetable]
        exact h
    · next hge =>
      have hnew := hlazy (by simpa using hcase.1) hcase.2 (by omega)
      have hsp' := hsp.lazy (h.books_others i) (h.nodup i) hfloor (by omega) hnew
      have heq : ({ s.proc i with pagetable := some pt, sz := u64 ((s.proc i).sz + n.toNat) } : Proc) =
          { s.proc i with sz := u64 ((s.proc i).sz + n.toNat) } := by rw [← hsp.pagetable]
      refine ⟨(s.proc i).sz, pt, u64 ((s.proc i).sz + n.toNat), s.kmem, ?_, h.resized hi hsp (heq ▸ hsp') (fun _ _ _ _ => rfl)
        (Trade.refl _ _ _)⟩
      unfold State.resized
      rw [heq]
      rfl

end FogOS.Kernel
