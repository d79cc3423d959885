import FogOS.Kernel.ExecMmap

/-!
# Reused process slots

What a new process finds in its slot from an earlier owner. `allocproc`, `freeproc` and `kfork`
together assign most fields of a child; three are left as they were.
-/

namespace FogOS.Kernel

open ByteMem Ledger

variable {V : Arena} {held : Multiset Nat} {s t : State} {i j l : Fin nproc}

/-- What a process is apart from its pid: its fields, its user pages with their contents, and its
registers. -/
@[ext] structure Profile where
  killed : Bool
  xstate : Int
  priority : Int
  niceLv : Int
  stracing : Int
  countp : Int
  mmap : Nat
  hasMmap : Bool
  sz : Nat
  name : List UInt8
  ofile : Fin nofile → Option Nat
  cwd : Option (Fin ninode)
  memory : Nat → Option (Perm × Mem)
  regs : Nat → Option UInt8

/-- The user page `m`: its permissions and its contents. -/
def Proc.memory (k : Kmem) (p : Proc) (m : Nat) : Option (Perm × Mem) :=
  if m < tfPage then p.pagetable.bind fun pt => (pt.leaf m).map fun q => (q.perm, k.page q.pa) else none

/-- The bytes of the trapframe. -/
def Proc.regs (k : Kmem) (p : Proc) (x : Nat) : Option UInt8 :=
  if x < trapframeSize then p.trapframe.map fun tf => k.page tf x else none

def State.profile (s : State) (i : Fin nproc) : Profile where
  killed := (s.proc i).killed
  xstate := (s.proc i).xstate
  priority := (s.proc i).priority
  niceLv := (s.proc i).niceLv
  stracing := (s.proc i).stracing
  countp := (s.proc i).countp
  mmap := (s.proc i).mmap
  hasMmap := (s.proc i).hasMmap
  sz := (s.proc i).sz
  name := (s.proc i).name
  ofile := (s.proc i).ofile
  cwd := (s.proc i).cwd
  memory := (s.proc i).memory s.kmem
  regs := (s.proc i).regs s.kmem

/-! ### Slots that are not in use -/

/-- A slot that is not in use, or about to be freed, has no open file; the tracing flag and the exit
status of an unused one are cleared. -/
structure Proc.Spare (p : Proc) : Prop where
  ofile : p.state = .UNUSED ∨ p.state = .ZOMBIE → ∀ fd, p.ofile fd = none
  cleared : p.state = .UNUSED → p.stracing = 0 ∧ p.xstate = 0

lemma ProcState.Alive.spare {p : Proc} (h : p.state.Alive) : p.Spare := by
  refine ⟨fun hstate => ?_, fun hstate => ?_⟩
  · rcases hstate with hstate | hstate <;> rw [hstate] at h <;> exact absurd h id
  · rw [hstate] at h
    exact absurd h id

/-- The calls that histories are made of. -/
def Call.Historic : Call → Prop
  | .fork | .nice _ | .stracing | .mmap | .kill _ | .exit _ | .wait _ _ => True
  | .sbrk _ _ | .fault _ | .exec _ _ => False

lemma Call.Historic.settled {c : Call} (h : c.Historic) : c.Settled := by
  cases c <;> first | exact trivial | exact h

lemma kexit_ofile {status : Int} (h : kexit s i status = .ok t) (l : Fin nproc) :
    (l = i → ∀ fd, (t.proc l).ofile fd = none) ∧
      (l ≠ i → (t.proc l).ofile = (s.proc l).ofile ∧ (t.proc l).stracing = (s.proc l).stracing ∧
        (t.proc l).xstate = (s.proc l).xstate) ∧ (l = i → (t.proc l).state = .ZOMBIE) := by
  have hx := kexit_exits h
  refine ⟨?_, fun hl => ?_, ?_⟩
  · rintro rfl fd
    obtain ⟨q, hq⟩ := hx.self
    rw [hq]
  · obtain ⟨q, hq⟩ := hx.other l hl
    rw [hq]
    exact ⟨rfl, rfl, rfl⟩
  · rintro rfl
    obtain ⟨q, hq⟩ := hx.self
    rw [hq]

/-- A call leaves spare slots spare. -/
lemma Tenants.spare {e : Label} (h : Tenants V held s) (hspare : ∀ l, (s.proc l).Spare) (hs : Syscall s e t)
    (he : e.call.Historic) (l : Fin nproc) : (t.proc l).Spare := by
  have hsame : ∀ {u : State}, u.proc l = s.proc l → (u.proc l).Spare := by
    intro u heq
    rw [heq]
    exact hspare l
  cases hs with
  | @fork _ i r hi hf =>
    obtain ⟨-, -, hspec⟩ := kfork_good h.good hi.used hf
    cases hspec with
    | full heq => exact hsame (by rw [heq])
    | @failed j mmap hj hother hslot =>
      by_cases hlj : l = j
      · subst hlj
        rw [hslot]
        exact ⟨fun _ => (hspare l).ofile (Or.inl hj), fun _ => ⟨rfl, rfl⟩⟩
      · exact hsame (hother l hlj)
    | @done j old npt tf ntf hj hother hparent hchild hslot =>
      by_cases hlj : l = j
      · subst hlj
        rw [hslot]
        exact ProcState.Alive.spare trivial
      · exact hsame (hother l hlj)
  | @mmap _ i r hi hm =>
    obtain ⟨-, -, rfl | hspec⟩ := h.mmap hi.used hm
    · exact hspare l
    · by_cases hl : l = i
      · subst hl
        refine ProcState.Alive.spare ?_
        rw [(hspec.proc l).2]
        exact hi
      · cases hspec with
        | failed hpt hleaf hproc => exact hsame (by rw [hproc, Function.update_of_ne hl])
        | done hpt hlow hva hnone hfree haddr hleaf hproc hzero =>
          exact hsame (by rw [hproc, Function.update_of_ne hl])
  | sbrk => exact absurd he id
  | fault => exact absurd he id
  | exec => exact absurd he id
  | @exit _ i status hi hx =>
    obtain ⟨hself, hother, hzombie⟩ := kexit_ofile hx l
    by_cases hl : l = i
    · refine ⟨fun _ => hself hl, fun hunused => ?_⟩
      rw [hzombie hl] at hunused
      cases hunused
    · obtain ⟨hofile, hstracing, hxstate⟩ := hother hl
      have hstate := kexit_state hl hx
      refine ⟨fun hst fd => ?_, fun hst => ?_⟩
      · rw [hofile]
        rw [hstate] at hst
        exact (hspare l).ofile hst fd
      · rw [hstracing, hxstate]
        rw [hstate] at hst
        exact (hspare l).cleared hst
  | @wait _ i status count r hi hw =>
    obtain ⟨-, -, hspec⟩ := kwait2_good h.good hi.used hw
    -- the caller is alive, and the others are as they were
    have hrepaged : ∀ {u : State}, Repaged s i u → (u.proc l).Spare := by
      intro u hrep
      by_cases hl : l = i
      · refine ProcState.Alive.spare ?_
        rw [hrep.state, hl]
        exact hi
      · exact hsame (hrep.other hl)
    cases hspec with
    | none heq => exact hsame (by rw [heq])
    | @reaps j b hparent hstate hreaps =>
      cases hreaps with
      | refused hrep => exact hrepaged hrep
      | @collected u k hu hrep =>
        by_cases hlj : l = j
        · subst hlj
          have heq : ({ u.setProc l (u.proc l).cleared with kmem := k } : State).proc l = (u.proc l).cleared :=
            u.setProc_self l _
          rw [heq]
          refine ⟨fun _ => (hrepaged hrep).ofile (Or.inr ?_), fun _ => ⟨rfl, rfl⟩⟩
          rw [hrep.state]
          exact hstate
        · have heq : ({ u.setProc j (u.proc j).cleared with kmem := k } : State).proc l = u.proc l :=
            u.setProc_of_ne hlj _
          rw [heq]
          exact hrepaged hrep
  | @kill i pid hi =>
    unfold kkill
    split
    · exact hspare l
    · next j hj =>
      by_cases hlj : l = j
      · subst hlj
        rw [State.setProc_self]
        by_cases hsleep : (s.proc l).state = .SLEEPING
        · refine ProcState.Alive.spare ?_
          dsimp only
          rw [if_pos hsleep]
          exact trivial
        · refine ⟨fun hst => (hspare l).ofile ?_, fun hst => (hspare l).cleared ?_⟩
          · rwa [if_neg hsleep] at hst
          · rwa [if_neg hsleep] at hst
      · rw [State.setProc_of_ne s hlj]
        exact hspare l
  | @nice i n hi =>
    by_cases hl : l = i
    · subst hl
      refine ProcState.Alive.spare ?_
      unfold sysNice
      rw [State.setProc_self]
      exact hi
    · exact hsame (s.setProc_of_ne hl _)
  | @stracing i hi =>
    by_cases hl : l = i
    · subst hl
      refine ProcState.Alive.spare ?_
      unfold sysStracing
      rw [State.setProc_self]
      exact hi
    · exact hsame (s.setProc_of_ne hl _)

/-! ### What a child gets from its parent -/

section

variable {R : Multiset Nat} {floor tramp tf ntf : Nat} {k₀ k : Kmem} {p np : Proc} {old npt : Pagetable}

lemma Proc.memory_some {pt : Pagetable} {m : Nat} (hpt : p.pagetable = some pt) (hm : m < tfPage) :
    p.memory k m = (pt.leaf m).map fun q => (q.perm, k.page q.pa) := by
  rw [Proc.memory, if_pos hm, hpt, Option.bind_some]

/-- The child has the user pages of its parent. -/
lemma Child.memory_eq (hc : Child V R floor tramp k₀ p old tf k np npt ntf) (hp : Space floor tramp p old tf)
    (hknown : ∀ x ∈ p.refs, x ∈ R) (hsz : np.sz = p.sz) (hhas : np.hasMmap = p.hasMmap)
    (hlow : p.hasMmap = true → np.low = p.low) : np.memory k = p.memory k₀ := by
  have hsize := hp.size
  funext m
  by_cases hm : m < tfPage
  · rw [Proc.memory_some hc.space.pagetable hm, Proc.memory_some hp.pagetable hm]
    by_cases hheap : m < pages p.sz
    · cases hq : old.leaf m with
      | none => rw [hc.inherits.absent m hheap hq]; rfl
      | some q =>
        obtain ⟨q', hq', hperm, hdata⟩ := hc.inherits.copied m q hheap hq
        rw [hq', Option.map_some, Option.map_some, hperm, hdata]
    · by_cases hregion : p.hasMmap = true ∧ p.low < m
      · rw [hc.inherits.shared hregion.1 m hregion.2 hm]
        cases hq : old.leaf m with
        | none => rfl
        | some q =>
          have hmem : q.pa ∈ p.refs := by
            rw [hp.refs]
            exact Multiset.mem_add.mpr (Or.inr (mem_refs hm hq))
          rw [Option.map_some, Option.map_some, hc.data q.pa (hknown q.pa hmem)]
      · -- neither of them has a page here
        have hnone : old.leaf m = none := by
          by_contra hne
          exact (hp.user m hm hne).elim hheap hregion
        have hnone' : npt.leaf m = none := by
          by_contra hne
          refine (hc.space.user m hm hne).elim (fun hlt => hheap (hsz ▸ hlt)) fun ⟨hhas', hlt⟩ => ?_
          rw [hhas] at hhas'
          exact hregion ⟨hhas', hlow hhas' ▸ hlt⟩
        rw [hnone, hnone']
        rfl
  · rw [Proc.memory, Proc.memory, if_neg hm, if_neg hm]

/-- The registers of a child are those of its parent, apart from `a0`. -/
def childRegs (r : Nat → Option UInt8) (x : Nat) : Option UInt8 :=
  if tfA0 ≤ x ∧ x < tfA0 + 8 then some 0 else r x

lemma Child.regs_eq (hc : Child V R floor tramp k₀ p old tf k np npt ntf) (hp : Space floor tramp p old tf) :
    np.regs k = childRegs (p.regs k₀) := by
  funext x
  unfold childRegs Proc.regs
  rw [hc.space.trapframe, hp.trapframe]
  by_cases hx : x < trapframeSize
  · rw [if_pos hx, if_pos hx, Option.map_some, Option.map_some, hc.regs x hx]
    unfold Mem.store64
    split
    · rw [Nat.zero_div]
      rfl
    · rfl
  · rw [if_neg hx, if_neg hx, if_neg]
    simp only [trapframeSize, tfA0] at *
    omega

end

/-- What `kfork` makes of the slot: all but three fields come from the parent or are cleared. -/
lemma Forks.profile {r : Int} (hi : (s.proc i).state ≠ .UNUSED)
    (hspare : (s.proc j).Spare) (hj : (s.proc j).state = .UNUSED) (hnew : (t.proc j).state ≠ .UNUSED)
    (hf : Forks 0 V held s i t r) :
    t.profile j =
      { s.profile i with
        killed := (s.proc j).killed
        priority := (s.proc j).priority
        niceLv := (s.proc j).niceLv
        stracing := 0
        xstate := 0
        countp := 0
        mmap := if (s.proc i).hasMmap then (s.proc i).mmap else 0
        regs := childRegs (s.profile i).regs } := by
  cases hf with
  | full heq => exact absurd (heq ▸ hj) hnew
  | @failed j' mmap hj' hother hslot =>
    by_cases hjj : j = j'
    · subst hjj
      rw [hslot] at hnew
      exact absurd rfl hnew
    · rw [hother j hjj] at hnew
      exact absurd hj hnew
  | @done j' old npt tf ntf hj' hother hparent hchild hslot =>
    have hjj : j = j' := by
      by_contra hjj
      rw [hother j hjj] at hnew
      exact hnew hj
    subst hjj
    have hij : i ≠ j := fun he => hi (he ▸ hj)
    have hknown : ∀ x ∈ (s.proc i).refs, x ∈ others held s j := fun x hx =>
      mem_others.mpr (Or.inr ⟨i, hij, hx⟩)
    have hmemory := hchild.memory_eq hparent hknown (by rw [hslot]; rfl) (by rw [hslot]; rfl) fun hhas => by
      rw [hslot, Proc.low, Proc.low]
      change (if (s.proc i).hasMmap = true then (s.proc i).mmap else 0) / pgsize = _
      rw [if_pos hhas]
    have hregs := hchild.regs_eq hparent
    have hofile := hspare.ofile (Or.inl hj)
    obtain ⟨hstracing, hxstate⟩ := hspare.cleared hj
    unfold State.profile
    rw [hmemory, hregs, hslot]
    ext1
    case ofile =>
      funext fd
      change ((s.proc i).ofile fd <|> (s.proc j).ofile fd) = (s.proc i).ofile fd
      rw [hofile fd]
      cases (s.proc i).ofile fd <;> rfl
    case stracing => exact hstracing
    case xstate => exact hxstate
    all_goals rfl

/-! ### What a call leaves of a process -/

/-- A process keeps its profile if at most its parent changes, and none of its pages is written. -/
lemma Space.profile_eq {floor tramp tf : Nat} {pt : Pagetable} {q : Option (Fin nproc)}
    (h : Space floor tramp (s.proc i) pt tf) (hproc : t.proc i = { s.proc i with parent := q })
    (hpage : ∀ x ∈ (s.proc i).refs, t.kmem.page x = s.kmem.page x) : t.profile i = s.profile i := by
  have hrefs := h.refs
  have hmemory : (t.proc i).memory t.kmem = (s.proc i).memory s.kmem := by
    funext m
    by_cases hm : m < tfPage
    · rw [Proc.memory_some h.pagetable hm,
        Proc.memory_some (by rw [hproc]; exact h.pagetable) hm]
      cases hq : pt.leaf m with
      | none => rfl
      | some e =>
        have hmem : e.pa ∈ (s.proc i).refs := by
          rw [hrefs]
          exact Multiset.mem_add.mpr (Or.inr (mem_refs hm hq))
        rw [Option.map_some, Option.map_some, hpage e.pa hmem]
    · rw [Proc.memory, Proc.memory, if_neg hm, if_neg hm]
  have hregs : (t.proc i).regs t.kmem = (s.proc i).regs s.kmem := by
    funext x
    have htf : tf ∈ (s.proc i).refs := by
      rw [hrefs]
      exact Multiset.mem_add.mpr (Or.inl (Multiset.mem_singleton_self tf))
    have htf' : (t.proc i).trapframe = some tf := by
      rw [hproc]
      exact h.trapframe
    rw [Proc.regs, Proc.regs, htf', h.trapframe, Option.map_some, Option.map_some, hpage tf htf]
  unfold State.profile
  rw [hmemory, hregs, hproc]

/-- A parent forks and is as before. -/
lemma kfork_profile {r : Int} (h : Good 0 V held s) (hi : (s.proc i).state ≠ .UNUSED)
    (hf : kfork s i = .ok (r, t)) (hj : (s.proc j).state = .UNUSED)
    (hnew : (t.proc j).state ≠ .UNUSED) : t.profile i = s.profile i := by
  obtain ⟨pt, tf, hsp⟩ := h.used i hi
  obtain ⟨-, -, hforks⟩ := kfork_good h hi hf
  have hij : i ≠ j := fun he => hi (he ▸ hj)
  cases hforks with
  | full heq => exact absurd (heq ▸ hj) hnew
  | @failed j' mmap hj' hother hslot =>
    by_cases hjj : j = j'
    · subst hjj
      rw [hslot] at hnew
      exact absurd rfl hnew
    · rw [hother j hjj] at hnew
      exact absurd hj hnew
  | @done j' old npt tf' ntf hj' hother hparent hchild hslot =>
    have hij' : i ≠ j' := fun he => hi (he ▸ hj')
    refine hsp.profile_eq (hother i hij') fun x hx => hchild.data x ?_
    exact mem_others.mpr (Or.inr ⟨i, hij', hx⟩)

/-- Another process exits. -/
lemma kexit_profile {floor : Nat} {status : Int} (h : Good floor V held s)
    (hi : (s.proc i).state ≠ .UNUSED) (hij : i ≠ j) (hx : kexit s j status = .ok t) :
    t.profile i = s.profile i := by
  obtain ⟨pt, tf, hsp⟩ := h.used i hi
  have hexits := kexit_exits hx
  obtain ⟨q, hq⟩ := hexits.other i hij
  exact hsp.profile_eq hq fun x _ => by rw [hexits.kmem]

/-- A parent that maps no pages of its own collects a child and asks for neither status nor count. -/
lemma kwait2_profile {floor : Nat} {r : Int} (h : Good floor V held s)
    (hi : (s.proc i).state.Alive) (hhas : (s.proc i).hasMmap = false)
    (hw : kwait2 s i 0 0 = .ok (r, t)) : t.profile i = s.profile i := by
  obtain ⟨pt, tf, hsp⟩ := h.used i hi.used
  unfold kwait2 at hw
  split at hw
  · next j hfind =>
    obtain ⟨-, hzombie⟩ : (s.proc j).parent = some i ∧ (s.proc j).state = .ZOMBIE := by
      simpa using List.find?_some hfind
    have hij : i ≠ j := by
      rintro rfl
      rw [hzombie] at hi
      exact hi
    obtain ⟨⟨b, u⟩, hreap, hw⟩ := bind_ok hw
    obtain ⟨-, rfl⟩ := Prod.mk.inj (pure_ok hw)
    obtain ⟨pt', tf', hsp'⟩ := h.used j (by simp [hzombie])
    have hB := h.books_others j
    obtain ⟨k, hfree, -, hdata⟩ := freeproc_books (hsp'.freeable hB).reclaimable hB
    have hreap' : reap s i j 0 0 =
        .ok (true, { s.setProc j (s.proc j).cleared with kmem := k }) := by
      unfold reap copyoutInt
      simp only [if_true, pure_bind, hfree]
      rfl
    obtain ⟨-, rfl⟩ := Prod.mk.inj (Except.ok.inj (hreap.symm.trans hreap'))
    refine hsp.profile_eq (q := (s.proc i).parent) (s.setProc_of_ne hij _) fun x hx => ?_
    refine hdata x (mem_others.mpr (Or.inr ⟨i, hij, hx⟩)) fun hx' => ?_
    obtain ⟨n, hshares, -⟩ := h.apart i j x hij hx hx'
    have := hshares.1
    rw [hhas] at this
    cases this
  · split at hw
    · obtain ⟨-, rfl⟩ := Prod.mk.inj (pure_ok hw)
      rfl
    · cases hw

/-! ### Two histories -/

lemma Execd.history {l : List Label} (h : Execd V held s) (hspare : ∀ l, (s.proc l).Spare)
    (hrun : Runs (fun _ e => e.call.Historic) s l t) : Tenants V held t ∧ ∀ l, (t.proc l).Spare :=
  hrun.invariant (I := fun s => Tenants V held s ∧ ∀ l, (s.proc l).Spare) ⟨h.tenants, hspare⟩
    fun _ _ _ hs ⟨he, hstep⟩ => ⟨hs.1.step hstep he.settled, hs.1.spare hs.2 hstep he⟩

/-- After two histories that leave the forking process the same and the same slot for the child,
the children agree exactly if the slots had the same `killed`, `priority` and `nice_lv`. -/
theorem child_of_slot_iff {V₁ V₂ : Arena} {held₁ held₂ : Multiset Nat} {r₁ r₂ s₁ s₂ t₁ t₂ : State}
    {l₁ l₂ : List Label} {p₁ p₂ : Int} (h₁ : Execd V₁ held₁ r₁) (h₂ : Execd V₂ held₂ r₂)
    (hspare₁ : ∀ l, (r₁.proc l).Spare) (hspare₂ : ∀ l, (r₂.proc l).Spare)
    (hrun₁ : Runs (fun _ e => e.call.Historic) r₁ l₁ s₁) (hrun₂ : Runs (fun _ e => e.call.Historic) r₂ l₂ s₂)
    (hi₁ : (s₁.proc i).state.Alive) (hi₂ : (s₂.proc i).state.Alive) (hsame : s₁.profile i = s₂.profile i)
    (hf₁ : kfork s₁ i = .ok (p₁, t₁)) (hf₂ : kfork s₂ i = .ok (p₂, t₂))
    (hj₁ : (s₁.proc j).state = .UNUSED) (hj₂ : (s₂.proc j).state = .UNUSED)
    (hc₁ : (t₁.proc j).state ≠ .UNUSED) (hc₂ : (t₂.proc j).state ≠ .UNUSED) :
    t₁.profile j = t₂.profile j ↔
      (s₁.proc j).killed = (s₂.proc j).killed ∧ (s₁.proc j).priority = (s₂.proc j).priority ∧
        (s₁.proc j).niceLv = (s₂.proc j).niceLv := by
  obtain ⟨ht₁, hslot₁⟩ := h₁.history hspare₁ hrun₁
  obtain ⟨ht₂, hslot₂⟩ := h₂.history hspare₂ hrun₂
  obtain ⟨-, -, hforks₁⟩ := kfork_good ht₁.good hi₁.used hf₁
  obtain ⟨-, -, hforks₂⟩ := kfork_good ht₂.good hi₂.used hf₂
  have hmmap : (s₁.proc i).mmap = (s₂.proc i).mmap := congrArg Profile.mmap hsame
  have hhas : (s₁.proc i).hasMmap = (s₂.proc i).hasMmap := congrArg Profile.hasMmap hsame
  rw [hforks₁.profile hi₁.used (hslot₁ j) hj₁ hc₁, hforks₂.profile hi₂.used (hslot₂ j) hj₂ hc₂, hsame,
    hmmap, hhas, Profile.mk.injEq]
  tauto

/-- The first program forks, its child turns on tracing and exits, -/
def tracedExits : State := returned (kexit (sysStracing programForks 1) 1 7)

/-- and is collected: the slot 1 is free again. -/
def slotReused : State := (returned (kwait2 tracedExits 0 0 0)).2

/-- The theorem for a process that forks at once, and one whose first child has used the slot. -/
theorem child_of_slot_reused : ∃ t₁ t₂ p₁ p₂ l, kfork firstProgram 0 = .ok (p₁, t₁) ∧
    Runs (fun _ e => e.call.Historic) firstProgram l slotReused ∧ l.length = 4 ∧
    kfork slotReused 0 = .ok (p₂, t₂) ∧ p₁ ≠ p₂ ∧ t₁.profile 1 = t₂.profile 1 := by
  have hfacts : (firstProgram.proc 1).state = .UNUSED ∧ (programForks.proc 1).state ≠ .UNUSED ∧
      (kexit (sysStracing programForks 1) 1 7).isOk = true ∧
      (kwait2 tracedExits 0 0 0).isOk = true ∧ (slotReused.proc 1).state = .UNUSED ∧
      ((kfork slotReused 0).isOk = true ∧ ((returned (kfork slotReused 0)).2.proc 1).state ≠ .UNUSED ∧
        (returned (kfork firstProgram 0)).1 ≠ (returned (kfork slotReused 0)).1) ∧
      ((programForks.proc 0).state.Alive ∧ (tracedExits.proc 0).state.Alive ∧
        (slotReused.proc 0).state.Alive ∧ (tracedExits.proc 0).hasMmap = false) ∧
      ((firstProgram.proc 1).killed = (slotReused.proc 1).killed ∧
        (firstProgram.proc 1).priority = (slotReused.proc 1).priority ∧
        (firstProgram.proc 1).niceLv = (slotReused.proc 1).niceLv) ∧
      (∀ l, ((firstProgram.proc l).state = .UNUSED ∨ (firstProgram.proc l).state = .ZOMBIE →
        ∀ fd, (firstProgram.proc l).ofile fd = none) ∧ ((firstProgram.proc l).state = .UNUSED →
        (firstProgram.proc l).stracing = 0 ∧ (firstProgram.proc l).xstate = 0)) := by
    decide +kernel
  obtain ⟨hunused, hused, hokx, hokw, hagain, ⟨hokf, hnew, hpid⟩, halive, hleft, hspare⟩ := hfacts
  obtain ⟨halive₁, halive₃, halive₄, hhas⟩ := halive
  obtain ⟨hok, hchild, -⟩ := program_facts.2.2.2.2.2
  have halive₀ : (firstProgram.proc 0).state.Alive := by
    rw [firstProgram_proc.1]
    exact trivial
  have hspares : ∀ l, (firstProgram.proc l).Spare := fun l => ⟨(hspare l).1, (hspare l).2⟩
  have hfork : kfork firstProgram 0 = .ok (_, programForks) := eq_ok_pair hok rfl
  have hexit := eq_ok hokx
  have hwait : kwait2 tracedExits 0 0 0 = .ok (_, slotReused) := eq_ok_pair hokw rfl
  have hrun₁ : Runs (fun _ e => e.call.Historic) firstProgram [⟨0, .fork, _⟩] programForks :=
    .cons ⟨trivial, .fork halive₀ hfork⟩ (.nil _)
  have hstrace : Syscall programForks ⟨1, .stracing, 0⟩ (sysStracing programForks 1) :=
    .stracing hchild
  have hrun₂ : Runs (fun _ e => e.call.Historic) programForks [⟨1, .stracing, 0⟩]
      (sysStracing programForks 1) := .cons ⟨trivial, hstrace⟩ (.nil _)
  have hrun₃ : Runs (fun _ e => e.call.Historic) (sysStracing programForks 1) [⟨1, .exit 7, 0⟩]
      tracedExits := by
    refine .cons ⟨trivial, .exit ?_ hexit⟩ (.nil _)
    unfold sysStracing
    rw [State.setProc_self]
    exact hchild
  have hrun₄ : Runs (fun _ e => e.call.Historic) tracedExits [⟨0, .wait 0 0, _⟩] slotReused :=
    .cons ⟨trivial, .wait halive₃ hwait⟩ (.nil _)
  have hrun₁₂ := hrun₁.append hrun₂
  have hrun₁₂₃ := hrun₁₂.append hrun₃
  have hgood {l t} (h : Runs (fun _ e => e.call.Historic) firstProgram l t) :=
    (execd_firstProgram.history hspares h).1.good
  -- the parent is the same after each of the four calls
  have hsame : slotReused.profile 0 = firstProgram.profile 0 := by
    have hstraced : (sysStracing programForks 1).proc 0 = programForks.proc 0 :=
      State.setProc_of_ne _ (by decide) _
    obtain ⟨pt, tf, hsp⟩ := (hgood hrun₁).used 0 halive₁.used
    calc slotReused.profile 0
        = tracedExits.profile 0 := kwait2_profile (hgood hrun₁₂₃) halive₃ hhas hwait
      _ = (sysStracing programForks 1).profile 0 :=
          kexit_profile (hgood hrun₁₂) (by rw [hstraced]; exact halive₁.used) (by decide) hexit
      _ = programForks.profile 0 := hsp.profile_eq hstraced fun _ _ => rfl
      _ = firstProgram.profile 0 :=
          kfork_profile (hgood (.nil _)) halive₀.used hfork hunused hused
  refine ⟨_, _, _, _, _, hfork, hrun₁₂₃.append hrun₄, rfl, eq_ok_pair hokf rfl, hpid, ?_⟩
  exact (child_of_slot_iff execd_firstProgram execd_firstProgram hspares hspares (.nil _)
    (hrun₁₂₃.append hrun₄) halive₀ halive₄ hsame.symm hfork (eq_ok_pair hokf rfl) hunused hagain hused hnew).mpr hleft

/-- The slot 1 is marked by `kill(0)` while it is not in use. -/
def slotKilled : State := (kkill firstProgram 0).2

/-- The next child is born killed. -/
theorem child_of_slot_differs :
    Runs (fun _ e => e.call.Historic) firstProgram [⟨0, .kill 0, 0⟩] slotKilled ∧
    slotKilled.profile 0 = firstProgram.profile 0 ∧
    ∃ t₁ t₂ p₁ p₂, kfork slotKilled 0 = .ok (p₁, t₁) ∧ kfork firstProgram 0 = .ok (p₂, t₂) ∧
      (slotKilled.proc 1).state = .UNUSED ∧ (firstProgram.proc 1).state = .UNUSED ∧
      (t₁.proc 1).state = .RUNNABLE ∧ (t₂.proc 1).state = .RUNNABLE ∧
      (t₁.proc 1).killed = true ∧ (t₂.proc 1).killed = false := by
  have hfacts : (firstProgram.proc 0).state.Alive ∧ (kkill firstProgram 0).1 = 0 ∧
      (List.finRange nproc).find? (fun j => (firstProgram.proc j).pid = 0) = some 1 ∧
      (kfork slotKilled 0).isOk = true ∧ (kfork firstProgram 0).isOk = true ∧
      (slotKilled.proc 1).state = .UNUSED ∧ (firstProgram.proc 1).state = .UNUSED ∧
      ((returned (kfork slotKilled 0)).2.proc 1).state = .RUNNABLE ∧
      ((returned (kfork firstProgram 0)).2.proc 1).state = .RUNNABLE ∧
      ((returned (kfork slotKilled 0)).2.proc 1).killed = true ∧
      ((returned (kfork firstProgram 0)).2.proc 1).killed = false := by
    decide +kernel
  obtain ⟨halive, hret, hfind, hforks⟩ := hfacts
  obtain ⟨hok₁, hok₂, hrest⟩ := hforks
  have hkill : Syscall firstProgram ⟨0, .kill 0, (kkill firstProgram 0).1⟩ slotKilled := .kill halive
  rw [hret] at hkill
  refine ⟨.cons ⟨trivial, hkill⟩ (.nil _), ?_, _, _, _, _, eq_ok_pair hok₁ rfl, eq_ok_pair hok₂ rfl, hrest⟩
  have hslot : ∃ p, slotKilled = firstProgram.setProc 1 p := by
    unfold slotKilled kkill
    rw [hfind]
    exact ⟨_, rfl⟩
  obtain ⟨p, hp⟩ := hslot
  have hself : slotKilled.proc 0 = firstProgram.proc 0 := by
    rw [hp]
    exact State.setProc_of_ne _ (by decide) _
  have hkmem : slotKilled.kmem = firstProgram.kmem := by
    rw [hp]
    rfl
  unfold State.profile
  rw [hself, hkmem]

end FogOS.Kernel
