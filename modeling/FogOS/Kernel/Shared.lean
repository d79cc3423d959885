import FogOS.Kernel.Runs
import Mathlib.Data.Set.Card

/-!
# Shared mmap pages

Processes that come from an exec'd one by fork share the pages of their mmap regions. The
allocator counts a page once for every process that maps it, and gets it back when the last of
them is reaped.
-/

namespace FogOS.Kernel

open ByteMem Ledger

variable {V : Arena} {held : Multiset Nat} {s t u : State} {i j l : Fin nproc} {n x : Nat}

/-- The page at `x` is mapped at page `n` of the mmap region of the process. -/
def Proc.MmapPage (p : Proc) (n x : Nat) : Prop :=
  p.hasMmap = true ∧ p.low < n ∧ n < tfPage ∧
    ∃ pt q, p.pagetable = some pt ∧ pt.leaf n = some q ∧ q.pa = x

/-- The page table of the process maps the page at `x`. -/
def Proc.Maps (p : Proc) (x : Nat) : Prop :=
  ∃ pt m q, p.pagetable = some pt ∧ pt.leaf m = some q ∧ q.pa = x

/-- Processes as `kexec` and these calls leave them: all of the heap is there. -/
structure Tenants (V : Arena) (held : Multiset Nat) (s : State) : Prop where
  good : Good 0 V held s
  heap : ∀ i, (s.proc i).state ≠ .UNUSED → 0 < pages (s.proc i).sz
  tramp : s.trampoline / pgsize * pgsize ∉ V.pages

/-- All calls but exec and sbrk. -/
def Call.Settled : Call → Prop
  | .sbrk _ _ | .exec _ _ => False
  | _ => True

/-! ### Steps -/

/-- `sys_mmap` of a tenant: nothing happens, or a page is added to its region. -/
lemma Tenants.mmap {r : Int} (h : Tenants V held s) (hi : (s.proc i).state ≠ .UNUSED)
    (hm : sysMmap s i = .ok (r, t)) :
    Good 0 V held t ∧ t.trampoline = s.trampoline ∧ (t = s ∨ Mmaps s i t r) := by
  have htf := tfPage_eq
  have hnp := npages_eq
  by_cases hmmap : (s.proc i).mmap = 0
  · obtain ⟨pt, tf, hsp⟩ := h.good.used i hi
    have hlow : (s.proc i).low = 0 := by rw [Proc.low, hmmap]; rfl
    obtain ⟨q, hq⟩ := Option.ne_none_iff_exists'.mp (hsp.heap 0 le_rfl (h.heap i hi))
    obtain ⟨-, rfl⟩ := sysMmap_mapped hsp.pagetable hsp.aligned (by omega) (hlow ▸ hq) hm
    exact ⟨h.good, rfl, Or.inl rfl⟩
  · obtain ⟨r', t', hrun, hgood, htramp, hspec⟩ := sysMmap_total h.good (by omega) hi hmmap
    obtain ⟨rfl, rfl⟩ := Prod.mk.inj (Except.ok.inj (hrun.symm.trans hm))
    exact ⟨hgood, htramp, Or.inr hspec⟩

lemma Mmaps.proc {r : Int} (h : Mmaps s i t r) (l : Fin nproc) :
    (t.proc l).sz = (s.proc l).sz ∧ (t.proc l).state = (s.proc l).state := by
  cases h with
  | failed hpt hleaf hproc =>
    rw [hproc]
    by_cases hl : l = i
    · subst hl
      rw [Function.update_self]
      exact ⟨rfl, rfl⟩
    · rw [Function.update_of_ne hl]
      exact ⟨rfl, rfl⟩
  | done hpt hlow hva hnone hfree haddr hleaf hproc hzero =>
    rw [hproc]
    by_cases hl : l = i
    · subst hl
      rw [Function.update_self]
      exact ⟨rfl, rfl⟩
    · rw [Function.update_of_ne hl]
      exact ⟨rfl, rfl⟩

lemma Repaged.sz (h : Repaged s i t) (l : Fin nproc) : (t.proc l).sz = (s.proc l).sz := by
  by_cases hl : l = i
  · subst hl
    cases h with
    | same => rfl
    | repaged hpt hf => rw [State.repaged_self]
  · rw [h.other hl]

lemma Tenants.congr (h : Tenants V held s) (hk : t.kmem = s.kmem) (htramp : t.trampoline = s.trampoline)
    (hsame : ∀ l, SameMem (s.proc l) (t.proc l)) : Tenants V held t := by
  refine ⟨h.good.congr hk htramp hsame, fun l hl => ?_, htramp ▸ h.tramp⟩
  rw [(hsame l).sz]
  exact h.heap l fun hu => hl ((hsame l).unused.mpr hu)

/-- A call leaves the invariant. -/
lemma Tenants.step {e : Label} (h : Tenants V held s) (hs : Syscall s e t) (he : e.call.Settled) :
    Tenants V held t := by
  cases hs with
  | @fork _ i r hi hf =>
    obtain ⟨hgood, htramp, hspec⟩ := kfork_good h.good hi.used hf
    refine ⟨hgood, fun l hl => ?_, htramp ▸ h.tramp⟩
    cases hspec with
    | full heq => exact heq ▸ h.heap l (heq ▸ hl)
    | @failed j mmap hj hother hslot =>
      by_cases hlj : l = j
      · rw [hlj, hslot] at hl
        exact absurd rfl hl
      · rw [hother l hlj] at hl ⊢
        exact h.heap l hl
    | @done j old npt tf ntf hj hother hparent hchild hslot =>
      by_cases hlj : l = j
      · rw [hlj, hslot]
        exact h.heap i hi.used
      · rw [hother l hlj] at hl ⊢
        exact h.heap l hl
  | mmap hi hm =>
    obtain ⟨hgood, htramp, hspec⟩ := h.mmap hi.used hm
    refine ⟨hgood, fun l hl => ?_, htramp ▸ h.tramp⟩
    rcases hspec with rfl | hspec
    · exact h.heap l hl
    · obtain ⟨hsz, hstate⟩ := hspec.proc l
      rw [hsz]
      exact h.heap l (hstate ▸ hl)
  | sbrk => exact absurd he id
  | fault hi hf =>
    obtain ⟨hgood, htramp, hrep⟩ := pageFault_good h.good hi.used hf
    refine ⟨hgood, fun l hl => ?_, htramp ▸ h.tramp⟩
    rw [hrep.sz]
    exact h.heap l (hrep.state l ▸ hl)
  | exec => exact absurd he id
  | exit hi hf =>
    obtain ⟨hk, htramp, hsame⟩ := kexit_same hi.used hf
    exact h.congr hk htramp hsame
  | wait hi hf =>
    obtain ⟨hgood, htramp, hspec⟩ := kwait2_good h.good hi.used hf
    refine ⟨hgood, fun l hl => ?_, htramp ▸ h.tramp⟩
    cases hspec with
    | none heq => exact heq ▸ h.heap l (heq ▸ hl)
    | @reaps j b hparent hstate hreaps =>
      cases hreaps with
      | refused hrep =>
        rw [hrep.sz]
        exact h.heap l (hrep.state l ▸ hl)
      | @collected u k hu hrep =>
        by_cases hlj : l = j
        · subst hlj
          rw [show ({ u.setProc l (u.proc l).cleared with kmem := k } : State).proc l = _ from
            u.setProc_self l _] at hl
          exact absurd rfl hl
        · rw [show ({ u.setProc j (u.proc j).cleared with kmem := k } : State).proc l = _ from
            u.setProc_of_ne hlj _] at hl ⊢
          rw [hrep.sz]
          exact h.heap l (hrep.state l ▸ hl)
  | @kill i pid hi =>
    obtain ⟨hk, htramp, hsame⟩ := kkill_same s pid
    exact h.congr hk htramp hsame
  | @nice i n hi => exact h.congr rfl rfl (sysNice_same s i n)
  | @stracing i hi => exact h.congr rfl rfl (sysStracing_same s i)

/-! ### Pages of mmap regions -/

lemma Good.used_of_pagetable {floor : Nat} {pt : Pagetable} (h : Good floor V held s)
    (hpt : (s.proc i).pagetable = some pt) : (s.proc i).state ≠ .UNUSED := by
  intro hu
  rw [(h.unused i hu).pagetable] at hpt
  cases hpt

/-- A page of an mmap region is held by the process, as a page to share. -/
lemma Good.mmapPage {floor : Nat} (h : Good floor V held s) (hm : (s.proc i).MmapPage n x) :
    (s.proc i).Shares n x ∧ x ∈ (s.proc i).refs ∧ PageAddr x := by
  obtain ⟨hhas, hlow, hn, pt, q, hpt, hq, rfl⟩ := hm
  obtain ⟨pt₀, tf, hsp⟩ := h.used i (h.used_of_pagetable hpt)
  obtain rfl : pt₀ = pt := Option.some.inj (hsp.pagetable.symm.trans hpt)
  obtain ⟨pa, hpa⟩ := hsp.region hhas n hlow hn
  have haddr := hsp.pageAddr (h.books_others i) hn hq
  have hshares : (s.proc i).Shares n q.pa := by
    refine ⟨hhas, hlow, hn, pt₀, hpt, ?_⟩
    have hrwu : q.perm = .rwu := congrArg Pte.perm (Option.some.inj (hq.symm.trans hpa))
    rw [← hrwu, pa2pte_pa, hq]
  exact ⟨hshares, hsp.mem_of_shares haddr hshares, haddr⟩

lemma Proc.Shares.mmapPage {p : Proc} (h : p.Shares n x) (hx : PageAddr x) : p.MmapPage n x := by
  obtain ⟨hhas, hlow, hn, pt, hpt, hq⟩ := h
  exact ⟨hhas, hlow, hn, pt, _, hpt, hq, pa_pa2pte hx.aligned _⟩

lemma Proc.MmapPage.maps {p : Proc} (h : p.MmapPage n x) : p.Maps x := by
  obtain ⟨-, -, -, pt, q, hpt, hq, hx⟩ := h
  exact ⟨pt, n, q, hpt, hq, hx⟩

/-- Whoever holds a page of an mmap region maps it. -/
lemma Tenants.mem_refs_iff (h : Tenants V held s) (hm : (s.proc i).MmapPage n x) :
    x ∈ (s.proc j).refs ↔ (s.proc j).Maps x := by
  obtain ⟨hshares, hmem, haddr⟩ := h.good.mmapPage hm
  constructor
  · intro hj
    by_cases hij : j = i
    · subst hij
      exact hm.maps
    · obtain ⟨n', hn', -⟩ := h.good.apart j i x hij hj hmem
      exact (hn'.mmapPage haddr).maps
  · rintro ⟨pt, m, q, hpt, hq, rfl⟩
    obtain ⟨pt₀, tf, hsp⟩ := h.good.used j (h.good.used_of_pagetable hpt)
    obtain rfl : pt₀ = pt := Option.some.inj (hsp.pagetable.symm.trans hpt)
    rw [hsp.refs]
    rcases lt_trichotomy m tfPage with hlt | rfl | hgt
    · exact Multiset.mem_add.mpr (Or.inr (mem_refs hlt hq))
    · -- the trapframe page is held too
      obtain rfl : q = pa2pte tf (Perm.R.or .W) := Option.some.inj (hq.symm.trans hsp.top.trapframe)
      have htf : PageAddr tf := by
        refine V.page_addr tf (h.good.books.subset tf ?_)
        rw [← others_add held s j, hsp.refs]
        simp
      rw [pa_pa2pte htf.aligned]
      simp
    · rcases Nat.lt_or_eq_of_le hgt with hgt | rfl
      · rw [hsp.top.above m hgt] at hq
        cases hq
      · -- the trampoline is no page of the allocator
        obtain rfl : q = pa2pte s.trampoline (Perm.R.or .X) :=
          Option.some.inj (hq.symm.trans hsp.top.trampoline)
        refine absurd (h.good.books.subset _ ?_) h.tramp
        rw [← others_add held s i]
        exact Multiset.mem_add.mpr (Or.inr hmem)

/-- A page of an mmap region is counted once for every process that maps it. -/
lemma Tenants.refCount (h : Tenants V held s) (hm : (s.proc i).MmapPage n x) :
    s.kmem.refCount (pa2idx x) = {j | (s.proc j).Maps x}.ncard := by
  classical
  obtain ⟨-, hmem, -⟩ := h.good.mmapPage hm
  have hall : x ∈ held + ∑ j, (s.proc j).refs := by
    rw [← others_add held s i]
    exact Multiset.mem_add.mpr (Or.inr hmem)
  have hheld : held.count x = 0 := Multiset.count_eq_zero.mpr fun hx => h.good.kernel x hx i hmem
  have hone : ∀ j, (s.proc j).refs.count x = if (s.proc j).Maps x then 1 else 0 := by
    intro j
    rw [← h.mem_refs_iff hm (j := j)]
    split
    · next hj => exact Multiset.count_eq_one_of_mem (h.good.nodup j) hj
    · next hj => exact Multiset.count_eq_zero.mpr hj
  have hcount := h.good.books.count_eq x hall
  rw [Multiset.count_add, hheld, zero_add, Multiset.count_sum', Finset.sum_congr rfl fun j _ => hone j,
    ← Finset.card_filter] at hcount
  have hcard : {j | (s.proc j).Maps x}.ncard = (Finset.univ.filter fun j => (s.proc j).Maps x).card := by
    rw [← Set.ncard_coe_finset]
    congr 1
    ext j
    simp
  rw [hcard]
  exact hcount

/-! ### Who keeps a page -/

lemma Repaged.shares (h : Repaged s i t) (hs : (s.proc l).Shares n x) : (t.proc l).Shares n x := by
  by_cases hl : l = i
  · subst hl
    cases h with
    | same => exact hs
    | @repaged pt pt' k hpt hf =>
      obtain ⟨hhas, hlow, hn, pt₀, hpt₀, hq⟩ := hs
      obtain rfl : pt = pt₀ := Option.some.inj (hpt.symm.trans hpt₀)
      rw [State.repaged_self]
      refine ⟨hhas, hlow, hn, pt', rfl, ?_⟩
      rcases hf n with heq | ⟨hnone, -, -⟩
      · rw [heq, hq]
      · rw [hnone] at hq
        cases hq
  · rw [h.other hl]
    exact hs

/-- The mmap region is not repaged. -/
lemma Repaged.shares_of {floor : Nat} (h : Repaged s i t) (hgood : Good floor V held s)
    (hs : (t.proc l).Shares n x) : (s.proc l).Shares n x := by
  by_cases hl : l = i
  · subst hl
    cases h with
    | same => exact hs
    | @repaged pt pt' k hpt hf =>
      rw [State.repaged_self] at hs
      obtain ⟨hhas, hlow, hn, pt₀, hpt₀, hq⟩ := hs
      obtain rfl : pt' = pt₀ := Option.some.inj hpt₀
      obtain ⟨pt₁, tf, hsp⟩ := hgood.used l (hgood.used_of_pagetable hpt)
      obtain rfl : pt₁ = pt := Option.some.inj (hsp.pagetable.symm.trans hpt)
      refine ⟨hhas, hlow, hn, pt₁, hpt, ?_⟩
      rw [← (hsp.faulted hf).2 hhas n hlow hn, hq]
  · rwa [h.other hl] at hs

/-- A call of somebody takes process `l` out of the process table. -/
def Label.Reaps (e : Label) (s : State) (l : Fin nproc) (t : State) : Prop :=
  (∃ status count, e.call = .wait status count) ∧ (s.proc l).state = .ZOMBIE ∧ (t.proc l).state = .UNUSED

/-- A page of an mmap region stays where it is until the process is reaped. -/
lemma Tenants.keeps {e : Label} (h : Tenants V held s) (hs : Syscall s e t) (he : e.call.Settled)
    (hsh : (s.proc l).Shares n x) : (t.proc l).Shares n x ∨ e.Reaps s l t := by
  have hused : (s.proc l).state ≠ .UNUSED := by
    obtain ⟨-, -, -, pt, hpt, -⟩ := hsh
    exact h.good.used_of_pagetable hpt
  cases hs with
  | @fork _ i r hi hf =>
    left
    obtain ⟨-, -, hspec⟩ := kfork_good h.good hi.used hf
    cases hspec with
    | full heq => exact heq ▸ hsh
    | failed hj hother hslot =>
      rw [hother l fun hl => hused (hl ▸ hj)]
      exact hsh
    | done hj hother hparent hchild hslot =>
      rw [hother l fun hl => hused (hl ▸ hj)]
      exact hsh
  | @mmap _ i r hi hm =>
    left
    obtain ⟨-, -, rfl | hspec⟩ := h.mmap hi.used hm
    · exact hsh
    · by_cases hl : l = i
      · subst hl
        exact hspec.shares hsh
      · cases hspec with
        | failed hpt hleaf hproc =>
          rw [hproc, Function.update_of_ne hl]
          exact hsh
        | done hpt hlow hva hnone hfree haddr hleaf hproc hzero =>
          rw [hproc, Function.update_of_ne hl]
          exact hsh
  | sbrk => exact absurd he id
  | fault hi hf => exact Or.inl ((pageFault_good h.good hi.used hf).2.2.shares hsh)
  | exec => exact absurd he id
  | exit hi hf => exact Or.inl (((kexit_same hi.used hf).2.2 l).shares hsh)
  | @wait _ i status count r hi hf =>
    obtain ⟨-, -, hspec⟩ := kwait2_good h.good hi.used hf
    cases hspec with
    | none heq => exact Or.inl (heq ▸ hsh)
    | @reaps j b hparent hstate hreaps =>
      cases hreaps with
      | refused hrep => exact Or.inl (hrep.shares hsh)
      | @collected u k hu hrep =>
        by_cases hlj : l = j
        · subst hlj
          refine Or.inr ⟨⟨status, count, rfl⟩, hstate, ?_⟩
          rw [show ({ u.setProc l (u.proc l).cleared with kmem := k } : State).proc l = _ from
            u.setProc_self l _]
          rfl
        · left
          rw [show ({ u.setProc j (u.proc j).cleared with kmem := k } : State).proc l = _ from
            u.setProc_of_ne hlj _]
          exact hrep.shares hsh
  | @kill i pid hi => exact Or.inl (((kkill_same s pid).2.2 l).shares hsh)
  | @nice i n hi => exact Or.inl ((sysNice_same s i n l).shares hsh)
  | @stracing i hi => exact Or.inl ((sysStracing_same s i l).shares hsh)

/-- What a wait that takes a process out of the table is. -/
lemma Tenants.reaped {e : Label} (h : Tenants V held s) (hs : Syscall s e t) (hr : e.Reaps s j t) :
    ∃ i u k, Good 0 V held u ∧ Repaged s i u ∧ t = { u.setProc j (u.proc j).cleared with kmem := k } := by
  obtain ⟨⟨status, count, he⟩, hzombie, hunused⟩ := hr
  have hne : (t.proc j).state ≠ (s.proc j).state := by
    rw [hzombie, hunused]
    simp
  cases hs with
  | @wait _ i _ _ r hi hf =>
    obtain ⟨-, -, hspec⟩ := kwait2_good h.good hi.used hf
    cases hspec with
    | none heq => exact absurd (by rw [heq]) hne
    | @reaps l b hparent hstate hreaps =>
      cases hreaps with
      | refused hrep => exact absurd (hrep.state j) hne
      | @collected u k hu hrep =>
        by_cases hlj : j = l
        · subst hlj
          exact ⟨i, u, k, hu, hrep, rfl⟩
        · refine absurd ?_ hne
          rw [show ({ u.setProc l (u.proc l).cleared with kmem := k } : State).proc j = _ from
            u.setProc_of_ne hlj _]
          exact hrep.state j
  | fork => cases he
  | mmap => cases he
  | sbrk => cases he
  | fault => cases he
  | exec => cases he
  | exit => cases he
  | kill => cases he
  | nice => cases he
  | stracing => cases he

lemma Tenants.reaps_unique {e : Label} (h : Tenants V held s) (hs : Syscall s e t)
    (hj : e.Reaps s j t) (hl : e.Reaps s l t) : l = j := by
  obtain ⟨i, u, k, -, hrep, rfl⟩ := h.reaped hs hj
  by_contra hne
  obtain ⟨-, hzombie, hunused⟩ := hl
  rw [show ({ u.setProc j (u.proc j).cleared with kmem := k } : State).proc l = _ from
    u.setProc_of_ne hne _, hrep.state, hzombie] at hunused
  cases hunused

/-- A page goes back to the free list when the last process that maps it is reaped. -/
lemma Tenants.freed {e : Label} (h : Tenants V held s) (hs : Syscall s e t) (he : e.call.Settled)
    (hm : (s.proc i).MmapPage n x) :
    x ∈ t.kmem.freelist ↔ ∃ j, e.Reaps s j t ∧ ∀ l, (s.proc l).Maps x ↔ l = j := by
  have ht := h.step hs he
  obtain ⟨-, hmem, haddr⟩ := h.good.mmapPage hm
  constructor
  · intro hfree
    -- whoever maps the page has not kept it
    have hreaped : ∀ l, (s.proc l).Maps x → e.Reaps s l t := by
      intro l hl
      have hshares : ∃ n', (s.proc l).Shares n' x := by
        by_cases hli : l = i
        · exact ⟨n, hli ▸ (h.good.mmapPage hm).1⟩
        · obtain ⟨n', hn', -⟩ := h.good.apart l i x hli ((h.mem_refs_iff hm).mpr hl) hmem
          exact ⟨n', hn'⟩
      obtain ⟨n', hn'⟩ := hshares
      refine (h.keeps hs he hn').resolve_left fun hkept => ?_
      have hmem' := (ht.good.mmapPage (hkept.mmapPage haddr)).2.1
      refine ht.good.books.notMem_of_free hfree ?_
      rw [← others_add held t l]
      exact Multiset.mem_add.mpr (Or.inr hmem')
    refine ⟨i, hreaped i hm.maps, fun l => ⟨fun hl => ?_, fun hl => hl ▸ hm.maps⟩⟩
    exact h.reaps_unique hs (hreaped i hm.maps) (hreaped l hl)
  · rintro ⟨j, hr, honly⟩
    obtain rfl : i = j := (honly i).mp hm.maps
    obtain ⟨c, u, k, hu, hrep, rfl⟩ := h.reaped hs hr
    have hin : x ∈ held + ∑ l, (s.proc l).refs := by
      rw [← others_add held s i]
      exact Multiset.mem_add.mpr (Or.inr hmem)
    refine (ht.good.books.mem_free x).mpr ⟨h.good.books.subset x hin, fun hout => ?_⟩
    rw [← others_add held _ i] at hout
    rcases Multiset.mem_add.mp hout with hother | hself
    · obtain hheld | ⟨l, hl, hx⟩ := mem_others.mp hother
      · exact h.good.kernel x hheld i hmem
      · rw [show ({ u.setProc i (u.proc i).cleared with kmem := k } : State).proc l = _ from
          u.setProc_of_ne hl _] at hx
        have hkept := (hrep.shares (h.good.mmapPage hm).1).mmapPage haddr
        obtain ⟨n', hn', -⟩ := hu.apart l i x hl hx (hu.mmapPage hkept).2.1
        exact hl ((honly l).mp ((hrep.shares_of h.good hn').mmapPage haddr).maps)
    · rw [show ({ u.setProc i (u.proc i).cleared with kmem := k } : State).proc i = _ from
        u.setProc_self i _, Proc.Vacant.refs ⟨rfl, rfl, rfl⟩] at hself
      exact absurd hself (Multiset.notMem_zero x)

/-- After a fork the child has every page of the mmap region of its parent, at the same address. -/
lemma Tenants.forked {r : Int} (h : Tenants V held s) (hs : Syscall s ⟨i, .fork, r⟩ t)
    (hr : r ≠ -1) : ∃ j, (s.proc j).state = .UNUSED ∧ (t.proc j).state = .RUNNABLE ∧
      (t.proc j).parent = some i ∧ (t.proc j).pid = r ∧
      ∀ n x, (s.proc i).MmapPage n x → (t.proc i).MmapPage n x ∧ (t.proc j).MmapPage n x := by
  cases hs with
  | fork hi hf =>
    obtain ⟨-, -, hspec⟩ := kfork_good h.good hi.used hf
    cases hspec with
    | full heq => exact absurd rfl hr
    | failed hj hother hslot => exact absurd rfl hr
    | @done j old npt tf ntf hj hother hparent hchild hslot =>
      have hij : i ≠ j := fun he => hi.used (he ▸ hj)
      refine ⟨j, hj, ?_, ?_, ?_, fun n x hm => ?_⟩
      · rw [hslot]
        rfl
      · rw [hslot]
        rfl
      · rw [hslot]
        rfl
      · refine ⟨?_, ?_⟩
        · rw [hother i hij]
          exact hm
        · obtain ⟨hhas, hlow, hn, pt, q, hpt, hq, hx⟩ := hm
          obtain rfl : old = pt := Option.some.inj (hparent.pagetable.symm.trans hpt)
          refine ⟨?_, ?_, hn, npt, q, hchild.space.pagetable, ?_, hx⟩
          · rw [hslot]
            exact hhas
          · rw [hslot]
            change (if (s.proc i).hasMmap = true then (s.proc i).mmap else 0) / pgsize < n
            rw [if_pos hhas]
            exact hlow
          · rw [hchild.inherits.shared hhas n hlow hn, hq]

/-! ### Whole runs -/

/-- A kernel whose processes have just been exec'd: none of them has an mmap page. -/
structure Execd (V : Arena) (held : Multiset Nat) (s : State) : Prop where
  tenants : Tenants V held s
  fresh : ∀ i, (s.proc i).state ≠ .UNUSED →
    (s.proc i).hasMmap = false ∧ (s.proc i).mmap = trapframeVa - pgsize

/-- mmap, fork, exit and wait. -/
def Call.Sharing : Call → Prop
  | .mmap | .fork | .exit _ | .wait _ _ => True
  | _ => False

lemma Call.Sharing.settled {c : Call} (h : c.Sharing) : c.Settled := by
  cases c <;> first | exact trivial | exact h

/-- In every state of every run of mmap, fork, exit and wait from an exec'd process: a page of an
mmap region is counted once for every process that maps it; a fork gives the child the pages of its
parent at the same addresses; and a page is freed exactly by the wait that reaps the last process
that maps it. -/
theorem mmap_counts_exact {l : List Label} (h : Execd V held s)
    (hrun : Runs (fun _ e => e.call.Sharing) s l t) :
    (∀ i n x, (t.proc i).MmapPage n x →
      t.kmem.refCount (pa2idx x) = {j | (t.proc j).Maps x}.ncard) ∧
    ∀ e u, e.call.Sharing → Syscall t e u →
      (e.call = .fork → e.ret ≠ -1 → ∃ j, (t.proc j).state = .UNUSED ∧ (u.proc j).state = .RUNNABLE ∧
        (u.proc j).parent = some e.who ∧ (u.proc j).pid = e.ret ∧
        ∀ n x, (t.proc e.who).MmapPage n x → (u.proc e.who).MmapPage n x ∧ (u.proc j).MmapPage n x) ∧
      ∀ i n x, (t.proc i).MmapPage n x →
        (x ∈ u.kmem.freelist ↔ ∃ j, e.Reaps t j u ∧ ∀ l, (t.proc l).Maps x ↔ l = j) := by
  have ht : Tenants V held t :=
    hrun.invariant h.tenants fun s e t hs ⟨he, hstep⟩ => hs.step hstep he.settled
  refine ⟨fun i n x hm => ht.refCount hm, fun e u he hstep => ⟨fun hfork hret => ?_, fun i n x hm => ?_⟩⟩
  · obtain ⟨who, call, ret⟩ := e
    obtain rfl : call = .fork := hfork
    exact ht.forked hstep hret
  · exact ht.freed hstep he.settled hm

/-! ### A run -/

/-- The first process is running. -/
def firstRuns : State :=
  let t := returned (userinit (freshKernel 24))
  t.setProc 0 { t.proc 0 with state := .RUNNING }

/-- It has a page of memory. -/
def firstGrows : State := (returned (sysSbrk firstRuns 0 4096 true)).2

/-- Its mmap region is below the trapframe. -/
def firstExecd : State := firstGrows.setProc 0 { firstGrows.proc 0 with mmap := trapframeVa - pgsize }

lemma first_facts :
    ((userinit (freshKernel 24)).isOk = true ∧
      ((returned (userinit (freshKernel 24))).proc 0).state = .RUNNABLE) ∧
    ((firstGrows.proc 0).state = .RUNNING ∧ (firstGrows.proc 0).hasMmap = false) ∧
    ((∀ i, (firstExecd.proc i).state ≠ .UNUSED → i = 0) ∧ 0 < pages (firstExecd.proc 0).sz ∧
      firstExecd.trampoline = kernbase + pgsize) := by
  decide +kernel

lemma good_firstGrows : Good 0 (freshArena 24) 0 firstGrows := by
  have htf := tfPage_eq
  have hnp := npages_eq
  obtain ⟨⟨hok, hstate⟩, -⟩ := first_facts
  have hruns : Good 0 (freshArena 24) 0 firstRuns := by
    refine (userinit_good (Idle.fresh (by omega)).good (eq_ok hok)).1.congr rfl rfl (SameMem.setProc ?_)
    exact ⟨rfl, rfl, rfl, rfl, rfl, by simp [hstate]⟩
  have hrunning : (firstRuns.proc 0).state = .RUNNING := by simp only [firstRuns, State.setProc_self]
  have htotal : ∃ r pt sz k, sysSbrk firstRuns 0 4096 true = .ok (r, firstRuns.resized 0 pt sz k) ∧
      Good 0 (freshArena 24) 0 (firstRuns.resized 0 pt sz k) :=
    sysSbrk_total hruns (by omega) (by simp [hrunning]) (by simp)
  obtain ⟨r, pt, sz, k, hgrow, hgood⟩ := htotal
  have hgrows : firstGrows = firstRuns.resized 0 pt sz k := by
    unfold firstGrows returned
    rw [hgrow]
  rwa [← hgrows] at hgood

lemma good_firstExecd : Good 0 (freshArena 24) 0 firstExecd := by
  obtain ⟨-, ⟨hrunning, hhas⟩, -⟩ := first_facts
  exact good_firstGrows.reset (by simp [hrunning]) hhas rfl

lemma execd_firstExecd : Execd (freshArena 24) 0 firstExecd := by
  obtain ⟨-, ⟨-, hhas⟩, honly, hpages, htramp⟩ := first_facts
  refine ⟨⟨good_firstExecd, fun i hi => ?_, fun hmem => ?_⟩, fun i hi => ?_⟩
  · rw [honly i hi]
    exact hpages
  · rw [htramp] at hmem
    obtain ⟨i, -, hi⟩ := List.mem_map.mp hmem.1
    simp only [kernbase, pgsize] at hi
    omega
  · rw [honly i hi]
    exact ⟨hhas, rfl⟩

/-- It maps a page, -/
def firstMaps : State := (returned (sysMmap firstExecd 0)).2

/-- forks, -/
def firstForks : State := (returned (kfork firstMaps 0)).2

/-- and the child exits. -/
def secondExits : State := returned (kexit firstForks 1 0)

lemma fork_facts :
    ((firstExecd.proc 0).state.Alive ∧ (sysMmap firstExecd 0).isOk = true) ∧
    ((firstMaps.proc 0).state.Alive ∧ (kfork firstMaps 0).isOk = true) ∧
    ((firstForks.proc 1).state.Alive ∧ (kexit firstForks 1 0).isOk = true) := by
  decide +kernel

/-- The theorem on a run in which a page is shared. -/
theorem mmap_counts_exact_fork : ∃ va pid, Runs (fun _ e => e.call.Sharing) firstExecd
      [⟨0, .mmap, va⟩, ⟨0, .fork, pid⟩, ⟨1, .exit 0, 0⟩] secondExits ∧
    ∀ i n x, (secondExits.proc i).MmapPage n x →
      secondExits.kmem.refCount (pa2idx x) = {j | (secondExits.proc j).Maps x}.ncard := by
  obtain ⟨⟨hmaps, hokm⟩, ⟨hforks, hokf⟩, hexits, hoke⟩ := fork_facts
  have hmap : sysMmap firstExecd 0 = .ok (_, firstMaps) := eq_ok_pair hokm rfl
  have hfork : kfork firstMaps 0 = .ok (_, firstForks) := eq_ok_pair hokf rfl
  have hexit : kexit firstForks 1 0 = .ok secondExits := eq_ok hoke
  have hrun : Runs (fun _ e => e.call.Sharing) firstExecd
      [⟨0, .mmap, (returned (sysMmap firstExecd 0)).1⟩, ⟨0, .fork, (returned (kfork firstMaps 0)).1⟩,
        ⟨1, .exit 0, 0⟩] secondExits := by
    exact .cons ⟨trivial, .mmap hmaps hmap⟩ (.cons ⟨trivial, .fork hforks hfork⟩
      (.cons ⟨trivial, .exit hexits hexit⟩ (.nil _)))
  exact ⟨_, _, hrun, (mmap_counts_exact execd_firstExecd hrun).1⟩

end FogOS.Kernel
