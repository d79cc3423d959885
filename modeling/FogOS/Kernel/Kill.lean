import FogOS.Kernel.Runs

/-!
# Kill

`kkill(n)` marks the first slot whose pid is `n`. The pids of the processes are positive and
different from each other, so it finds the right one; but a slot that is not in use has the pid 0,
and `allocproc` does not clear the mark that it may get.
-/

namespace FogOS.Kernel

open ByteMem Ledger

/-- `setkilled`, by which `usertrap` ends a process that has made a fault. -/
def setkilled (s : State) (i : Fin nproc) : State := s.setProc i { s.proc i with killed := true }

/-- What happens to the processes. -/
inductive Deed
  | call (e : Label)
  | fault (i : Fin nproc)
  | schedule (j : Fin nproc) (st : ProcState)

inductive Does : State → Deed → State → Prop
  | call {s t : State} {e : Label} (he : e.call.Plain) (h : Syscall s e t) : Does s (.call e) t
  /-- A trap of process `i` that the kernel does not know. -/
  | fault {s : State} {i : Fin nproc} (hi : (s.proc i).state.Alive) : Does s (.fault i) (setkilled s i)
  /-- `scheduler`, `yield`, `sleep` and `wakeup`. -/
  | schedule {s : State} {j : Fin nproc} {st : ProcState} (hj : (s.proc j).state.Alive) (hst : st.Alive) :
      Does s (.schedule j st) (s.setProc j { s.proc j with state := st })

/-- The process with this pid in slot `j` is killed or has made a fault. -/
def Deed.Hits (j : Fin nproc) (pid : Int) : Deed → Prop
  | .call e => e.call = .kill pid
  | .fault i => i = j
  | .schedule _ _ => False

/-- Since it was created, the process in slot `j` has been killed or has made a fault. -/
def Signalled (s₀ : State) (l : List Deed) (s : State) (j : Fin nproc) : Prop :=
  ∃ l₁ s₁ d l₂, l = l₁ ++ d :: l₂ ∧ Steps Does s₀ l₁ s₁ ∧ Steps Does s₁ (d :: l₂) s ∧
    (s₁.proc j).state ≠ .UNUSED ∧ (s₁.proc j).pid = (s.proc j).pid ∧ d.Hits j (s.proc j).pid

/-- `kkill(n)` finds the process with pid `n`, marks it and wakes it up, or does nothing. -/
structure KillOk (s : State) (n : Int) : Prop where
  ret : (kkill s n).1 = 0 ↔ ∃ j, (s.proc j).state ≠ .UNUSED ∧ (s.proc j).pid = n
  found : ∀ j, (s.proc j).state ≠ .UNUSED → (s.proc j).pid = n → (kkill s n).2 =
    s.setProc j { s.proc j with
      killed := true
      state := if (s.proc j).state = .SLEEPING then .RUNNABLE else (s.proc j).state }
  missed : (¬ ∃ j, (s.proc j).state ≠ .UNUSED ∧ (s.proc j).pid = n) → kkill s n = (-1, s)

/-- The number is not the pid of a slot that is not in use. -/
def Aimed (s : State) : Deed → Prop
  | .call ⟨_, .kill n, _⟩ => n ≠ 0 ∨ ∀ j, (s.proc j).state ≠ .UNUSED
  | _ => True

/-- A kernel whose process table is all zeroes. -/
structure Pristine (V : Arena) (held : Multiset Nat) (s : State) : Prop where
  idle : Idle V held s
  pid : ∀ j, (s.proc j).pid = 0
  killed : ∀ j, (s.proc j).killed = false
  nextpid : s.nextpid = 1

variable {V : Arena} {held : Multiset Nat} {floor : Nat} {s s₀ t : State} {i j l : Fin nproc} {d : Deed}
  {ds : List Deed} {p q : Proc} {n : Int}

/-! ### Pids -/

/-- The pids of the process table. -/
structure Pidded (s : State) : Prop where
  unused : ∀ j, (s.proc j).state = .UNUSED → (s.proc j).pid = 0
  used : ∀ j, (s.proc j).state ≠ .UNUSED → 0 < (s.proc j).pid ∧ (s.proc j).pid < s.nextpid
  inj : ∀ j k, (s.proc j).state ≠ .UNUSED → (s.proc k).state ≠ .UNUSED →
    (s.proc j).pid = (s.proc k).pid → j = k
  next : 0 < s.nextpid

/-- The scan of `kkill` ends at the only process with the pid. -/
lemma Pidded.kkill_eq (h : Pidded s) (hn : n ≠ 0 ∨ ∀ j, (s.proc j).state ≠ .UNUSED)
    (hj : (s.proc j).state ≠ .UNUSED) (hpid : (s.proc j).pid = n) :
    kkill s n = (0, s.setProc j { s.proc j with
      killed := true
      state := if (s.proc j).state = .SLEEPING then .RUNNABLE else (s.proc j).state }) := by
  unfold kkill
  split
  · next hnone =>
    have := List.find?_eq_none.mp hnone j (List.mem_finRange j)
    simp [hpid] at this
  · next k hk =>
    have hk' : (s.proc k).pid = n := by simpa using List.find?_some hk
    have hused : (s.proc k).state ≠ .UNUSED := by
      rcases hn with hn | hn
      · exact fun hu => hn (hk'.symm.trans (h.unused k hu))
      · exact hn k
    obtain rfl := h.inj k j hused hj (hk'.trans hpid.symm)
    rfl

lemma Pidded.kkill_none (h : Pidded s) (hn : n ≠ 0 ∨ ∀ j, (s.proc j).state ≠ .UNUSED)
    (hnone : ¬ ∃ j, (s.proc j).state ≠ .UNUSED ∧ (s.proc j).pid = n) : kkill s n = (-1, s) := by
  unfold kkill
  split
  · rfl
  · next k hk =>
    have hk' : (s.proc k).pid = n := by simpa using List.find?_some hk
    refine absurd ⟨k, ?_, hk'⟩ hnone
    rcases hn with hn | hn
    · exact fun hu => hn (hk'.symm.trans (h.unused k hu))
    · exact hn k

/-- `kkill(0)` goes wrong as long as there is a slot that is not in use. -/
lemma Pidded.killOk_iff (h : Pidded s) : KillOk s n ↔ n ≠ 0 ∨ ∀ j, (s.proc j).state ≠ .UNUSED := by
  constructor
  · intro hok
    by_contra hnot
    push Not at hnot
    obtain ⟨rfl, j, hj⟩ := hnot
    have hnone : ¬ ∃ k, (s.proc k).state ≠ .UNUSED ∧ (s.proc k).pid = 0 := by
      rintro ⟨k, hk, hpid⟩
      have := (h.used k hk).1
      omega
    have hmissed := congrArg Prod.fst (hok.missed hnone)
    unfold kkill at hmissed
    split at hmissed
    · next hfind =>
      have := List.find?_eq_none.mp hfind j (List.mem_finRange j)
      simp [h.unused j hj] at this
    · cases hmissed
  · intro hn
    refine ⟨⟨fun hret => ?_, ?_⟩, fun j hj hpid => ?_, h.kkill_none hn⟩
    · by_contra hnone
      rw [h.kkill_none hn hnone] at hret
      cases hret
    · rintro ⟨j, hj, hpid⟩
      rw [h.kkill_eq hn hj hpid]
    · rw [h.kkill_eq hn hj hpid]

/-! ### What a deed does to the marks -/

/-- The process is the same, as far as `kkill` can tell. -/
structure Alike (p q : Proc) : Prop where
  unused : q.state = .UNUSED ↔ p.state = .UNUSED
  pid : q.pid = p.pid
  killed : q.killed = p.killed

lemma Alike.refl (p : Proc) : Alike p p := ⟨Iff.rfl, rfl, rfl⟩

/-- What a deed does to pids and marks. -/
inductive Alters (s : State) (d : Deed) (t : State) : Prop
  | stay (hsame : ∀ l, Alike (s.proc l) (t.proc l)) (hnext : t.nextpid = s.nextpid)
  | born {j : Fin nproc} (hother : ∀ l, l ≠ j → Alike (s.proc l) (t.proc l))
      (hj : (s.proc j).state = .UNUSED) (hstate : (t.proc j).state ≠ .UNUSED)
      (hpid : (t.proc j).pid = s.nextpid) (hkilled : (t.proc j).killed = (s.proc j).killed)
      (hnext : t.nextpid = s.nextpid + 1)
  | gone {j : Fin nproc} (hother : ∀ l, l ≠ j → Alike (s.proc l) (t.proc l))
      (hstate : (t.proc j).state = .UNUSED) (hpid : (t.proc j).pid = 0)
      (hkilled : (t.proc j).killed = false) (hnext : s.nextpid ≤ t.nextpid)
  | hit {j : Fin nproc} (hother : ∀ l, l ≠ j → Alike (s.proc l) (t.proc l))
      (hstate : (t.proc j).state = .UNUSED ↔ (s.proc j).state = .UNUSED)
      (hpid : (t.proc j).pid = (s.proc j).pid) (hhits : d.Hits j (s.proc j).pid)
      (hnext : t.nextpid = s.nextpid)

lemma alike_setProc (hp : Alike (s.proc i) p) (l : Fin nproc) : Alike (s.proc l) ((s.setProc i p).proc l) := by
  by_cases hl : l = i
  · subst hl
    rwa [State.setProc_self]
  · rw [State.setProc_of_ne _ hl]
    exact .refl _

lemma Repaged.alike (h : Repaged s i t) : (∀ l, Alike (s.proc l) (t.proc l)) ∧ t.nextpid = s.nextpid := by
  cases h with
  | same => exact ⟨fun _ => .refl _, rfl⟩
  | repaged hpt hf => exact ⟨alike_setProc (s := s) ⟨Iff.rfl, rfl, rfl⟩, rfl⟩

lemma kfork_nextpid {r : Int} (h : kfork s i = .ok (r, t)) : t = s ∨ t.nextpid = s.nextpid + 1 := by
  rcases kfork_cases h with ⟨-, rfl⟩ | ⟨j, done, u, hj, hfork, hdone⟩
  · exact Or.inl rfl
  · right
    have hnext := (forkSlot_ok hfork).2.2.1
    cases done with
    | true =>
      obtain ⟨-, rfl⟩ := hdone
      exact hnext
    | false =>
      obtain ⟨-, rfl⟩ := hdone
      exact hnext

lemma kkill_alters (e : Label) (he : e.call = .kill n) : Alters s (.call e) (kkill s n).2 := by
  unfold kkill
  split
  · exact .stay (fun _ => .refl _) rfl
  · next j hfind =>
    have hj : (s.proc j).pid = n := by simpa using List.find?_some hfind
    refine .hit (j := j) (fun l hl => ?_) ?_ ?_ ?_ rfl
    · dsimp only
      rw [State.setProc_of_ne _ hl]
      exact .refl _
    · dsimp only
      rw [State.setProc_self]
      dsimp only
      split
      · next hs => simp [hs]
      · rfl
    · dsimp only
      rw [State.setProc_self]
    · rw [hj]
      exact he

lemma Does.alters (h : Good floor V held s) (hd : Does s d t) : Good floor V held t ∧ Alters s d t := by
  cases hd with
  | @call _ e he hs =>
    refine ⟨(h.plain hs he).1, ?_⟩
    cases hs with
    | @fork _ i r hi hf =>
      obtain ⟨-, -, hspec⟩ := kfork_good h hi.used hf
      have hnext := kfork_nextpid hf
      cases hspec with
      | full heq => exact .stay (fun l => heq ▸ .refl _) (by rw [heq])
      | @failed j mmap hj hother hslot =>
        refine .gone (j := j) (fun l hl => (hother l hl).symm ▸ .refl _) ?_ ?_ ?_ ?_
        · rw [hslot]
          rfl
        · rw [hslot]
          rfl
        · rw [hslot]
          rfl
        · rcases hnext with rfl | hnext <;> omega
      | @done j old npt tf ntf hj hother hparent hchild hslot =>
        have hne : t ≠ s := by
          rintro rfl
          rw [hslot] at hj
          cases hj
        refine .born (j := j) (fun l hl => (hother l hl).symm ▸ .refl _) hj ?_ ?_ ?_ (hnext.resolve_left hne)
        · rw [hslot]
          intro hu
          cases hu
        · rw [hslot]
          rfl
        · rw [hslot]
          rfl
    | mmap => exact absurd he id
    | sbrk => exact absurd he id
    | fault hi hf =>
      obtain ⟨-, -, hrep⟩ := pageFault_good h hi.used hf
      exact .stay hrep.alike.1 hrep.alike.2
    | exec => exact absurd he id
    | @exit _ i status hi hx =>
      have hexits := kexit_exits hx
      refine .stay (fun l => ?_) hexits.nextpid
      by_cases hl : l = i
      · subst hl
        obtain ⟨q, hq⟩ := hexits.self
        rw [hq]
        exact ⟨iff_of_false (by simp) hi.used, rfl, rfl⟩
      · obtain ⟨q, hq⟩ := hexits.other l hl
        rw [hq]
        exact ⟨Iff.rfl, rfl, rfl⟩
    | @wait _ i status count r hi hw =>
      obtain ⟨-, -, hspec⟩ := kwait2_good h hi.used hw
      cases hspec with
      | none heq => exact .stay (fun l => heq ▸ .refl _) (by rw [heq])
      | @reaps j b hparent hstate hreaps =>
        cases hreaps with
        | refused hrep => exact .stay hrep.alike.1 hrep.alike.2
        | @collected u k hu hrep =>
          obtain ⟨hsame, hnext⟩ := hrep.alike
          have hself : ({ u.setProc j (u.proc j).cleared with kmem := k } : State).proc j = (u.proc j).cleared :=
            u.setProc_self j _
          refine .gone (j := j) (fun l hl => ?_) (by rw [hself]; rfl) (by rw [hself]; rfl)
            (by rw [hself]; rfl) hnext.ge
          rw [show ({ u.setProc j (u.proc j).cleared with kmem := k } : State).proc l = u.proc l from
            u.setProc_of_ne hl _]
          exact hsame l
    | kill hi => exact kkill_alters _ rfl
    | nice hi => exact .stay (alike_setProc ⟨Iff.rfl, rfl, rfl⟩) rfl
    | stracing hi => exact .stay (alike_setProc ⟨Iff.rfl, rfl, rfl⟩) rfl
  | @fault i hi =>
    have hsame : ∀ l, SameMem (s.proc l) ((setkilled s i).proc l) := fun l => by
      refine SameMem.setProc ?_ l
      exact ⟨rfl, rfl, rfl, rfl, rfl, Iff.rfl⟩
    refine ⟨h.congr rfl rfl hsame, .hit (j := i) (fun l hl => ?_) ?_ ?_ rfl rfl⟩
    · unfold setkilled
      rw [State.setProc_of_ne _ hl]
      exact .refl _
    · unfold setkilled
      rw [State.setProc_self]
    · unfold setkilled
      rw [State.setProc_self]
  | @schedule j st hj hst =>
    have hiff : st = .UNUSED ↔ (s.proc j).state = .UNUSED := iff_of_false hst.used hj.used
    refine ⟨h.congr rfl rfl fun l => ?_, .stay (alike_setProc ⟨hiff, rfl, rfl⟩) rfl⟩
    refine SameMem.setProc ?_ l
    exact ⟨rfl, rfl, rfl, rfl, rfl, hiff⟩

lemma Pidded.alters (h : Pidded s) (ha : Alters s d t) : Pidded t := by
  -- a slot that looks the same in both states
  have hkeep : ∀ {l}, Alike (s.proc l) (t.proc l) → s.nextpid ≤ t.nextpid →
      ((t.proc l).state = .UNUSED → (t.proc l).pid = 0) ∧
      ((t.proc l).state ≠ .UNUSED → 0 < (t.proc l).pid ∧ (t.proc l).pid < t.nextpid) := by
    intro l hl hnext
    rw [hl.pid]
    refine ⟨fun hu => h.unused l (hl.unused.mp hu), fun hu => ?_⟩
    have := h.used l (mt hl.unused.mpr hu)
    omega
  have hinj : ∀ {l k}, Alike (s.proc l) (t.proc l) → Alike (s.proc k) (t.proc k) →
      (t.proc l).state ≠ .UNUSED → (t.proc k).state ≠ .UNUSED → (t.proc l).pid = (t.proc k).pid → l = k := by
    intro l k hl hk hlu hku heq
    rw [hl.pid, hk.pid] at heq
    exact h.inj l k (mt hl.unused.mpr hlu) (mt hk.unused.mpr hku) heq
  have hpos := h.next
  cases ha with
  | stay hsame hnext =>
    exact ⟨fun l => (hkeep (hsame l) hnext.ge).1, fun l => (hkeep (hsame l) hnext.ge).2,
      fun l k => hinj (hsame l) (hsame k), by omega⟩
  | @born j hother hj hstate hpid hkilled hnext =>
    have hlt : ∀ l, l ≠ j → (t.proc l).state ≠ .UNUSED → (t.proc l).pid < s.nextpid := by
      intro l hl hu
      rw [(hother l hl).pid]
      exact (h.used l (mt (hother l hl).unused.mpr hu)).2
    refine ⟨fun l hu => ?_, fun l hu => ?_, fun l k hl hk heq => ?_, by omega⟩
    · by_cases hl : l = j
      · exact absurd (hl ▸ hu) hstate
      · exact (hkeep (hother l hl) (by omega)).1 hu
    · by_cases hl : l = j
      · rw [hl, hpid]
        omega
      · exact (hkeep (hother l hl) (by omega)).2 hu
    · by_cases hlj : l = j
      · by_cases hkj : k = j
        · rw [hlj, hkj]
        · have := hlt k hkj hk
          rw [hlj, hpid] at heq
          omega
      · by_cases hkj : k = j
        · have := hlt l hlj hl
          rw [hkj, hpid] at heq
          omega
        · exact hinj (hother l hlj) (hother k hkj) hl hk heq
  | @gone j hother hstate hpid hkilled hnext =>
    refine ⟨fun l hu => ?_, fun l hu => ?_, fun l k hl hk heq => ?_, by omega⟩
    · by_cases hl : l = j
      · rw [hl, hpid]
      · exact (hkeep (hother l hl) hnext).1 hu
    · by_cases hl : l = j
      · exact absurd (hl ▸ hstate) hu
      · exact (hkeep (hother l hl) hnext).2 hu
    · have hlj : l ≠ j := fun hlj => hl (hlj ▸ hstate)
      have hkj : k ≠ j := fun hkj => hk (hkj ▸ hstate)
      exact hinj (hother l hlj) (hother k hkj) hl hk heq
  | @hit j hother hstate hpid hhits hnext =>
    have hpids : ∀ l, (t.proc l).pid = (s.proc l).pid := fun l => by
      by_cases hl : l = j
      · rw [hl, hpid]
      · exact (hother l hl).pid
    have hunused : ∀ l, (t.proc l).state = .UNUSED ↔ (s.proc l).state = .UNUSED := fun l => by
      by_cases hl : l = j
      · rw [hl, hstate]
      · exact (hother l hl).unused
    refine ⟨fun l hu => ?_, fun l hu => ?_, fun l k hl hk heq => ?_, by omega⟩
    · rw [hpids]
      exact h.unused l ((hunused l).mp hu)
    · rw [hpids, hnext]
      exact h.used l (mt (hunused l).mpr hu)
    · rw [hpids, hpids] at heq
      exact h.inj l k (mt (hunused l).mpr hl) (mt (hunused k).mpr hk) heq

/-! ### Runs -/

/-- What a run has done to a process still counts after one more deed. -/
lemma Signalled.snoc (h : Signalled s₀ ds s j) (hd : Does s d t) (hpid : (t.proc j).pid = (s.proc j).pid) :
    Signalled s₀ (ds ++ [d]) t j := by
  obtain ⟨l₁, s₁, d₁, l₂, rfl, hrun₁, hrun₂, hused, hsame, hhits⟩ := h
  refine ⟨l₁, s₁, d₁, l₂ ++ [d], by simp, hrun₁, hrun₂.snoc hd, hused, ?_, ?_⟩
  · rw [hsame, hpid]
  · rwa [hpid]

/-- A deed that does not aim at slots that are not in use keeps their marks clear. -/
lemma Alters.clear (ha : Alters s d t) (hd : Does s d t) (h : Pidded s) (haim : Aimed s d)
    (hclear : ∀ j, (s.proc j).state = .UNUSED → (s.proc j).killed = false) (l : Fin nproc)
    (hl : (t.proc l).state = .UNUSED) : (t.proc l).killed = false := by
  have hkeep : Alike (s.proc l) (t.proc l) → (t.proc l).killed = false := fun hsame => by
    rw [hsame.killed]
    exact hclear l (hsame.unused.mp hl)
  cases ha with
  | stay hsame => exact hkeep (hsame l)
  | @born j hother hj hstate =>
    exact hkeep (hother l fun hlj => hstate (hlj ▸ hl))
  | @gone j hother hstate hpid hkilled =>
    by_cases hlj : l = j
    · rw [hlj, hkilled]
    · exact hkeep (hother l hlj)
  | @hit j hother hstate hpid hhits hnext =>
    by_cases hlj : l = j
    · -- the slot is not in use, so it has made no fault, and its pid is 0
      subst hlj
      have hu := hstate.mp hl
      rw [h.unused l hu] at hhits
      cases hd with
      | @call _ e he hs =>
        obtain ⟨who, c, r⟩ := e
        obtain rfl : c = .kill 0 := hhits
        rcases haim with h0 | hall
        · exact absurd rfl h0
        · exact absurd hu (hall l)
      | fault hi =>
        obtain rfl := hhits
        exact absurd hu hi.used
      | schedule => exact absurd hhits id
    · exact hkeep (hother l hlj)

/-- What holds of a kernel in which only processes have been aimed at. -/
structure Hunted (V : Arena) (held : Multiset Nat) (s₀ : State) (ds : List Deed) (s : State) : Prop where
  good : Good 0 V held s
  pidded : Pidded s
  clear : ∀ j, (s.proc j).state = .UNUSED → (s.proc j).killed = false
  marked : ∀ j, (s.proc j).state ≠ .UNUSED → (s.proc j).killed = true → Signalled s₀ ds s j

lemma Hunted.step (h : Hunted V held s₀ ds s) (hrun : Steps Does s₀ ds s) (haim : Aimed s d)
    (hd : Does s d t) : Hunted V held s₀ (ds ++ [d]) t := by
  obtain ⟨hgood, ha⟩ := hd.alters h.good
  refine ⟨hgood, h.pidded.alters ha, ha.clear hd h.pidded haim h.clear, fun l hl hk => ?_⟩
  have hkeep : Alike (s.proc l) (t.proc l) → Signalled s₀ (ds ++ [d]) t l := fun hsame =>
    (h.marked l (mt hsame.unused.mpr hl) (hsame.killed ▸ hk)).snoc hd hsame.pid
  cases ha with
  | stay hsame => exact hkeep (hsame l)
  | @born j hother hj hstate hpid hkilled =>
    by_cases hlj : l = j
    · -- a new process has the mark of its slot
      rw [hlj, hkilled, h.clear j hj] at hk
      cases hk
    · exact hkeep (hother l hlj)
  | @gone j hother hstate =>
    exact hkeep (hother l fun hlj => hl (hlj ▸ hstate))
  | @hit j hother hstate hpid hhits =>
    by_cases hlj : l = j
    · subst hlj
      refine ⟨ds, s, d, [], rfl, hrun, Steps.cons hd (.nil t), mt hstate.mpr hl, hpid.symm, ?_⟩
      rwa [hpid]
    · exact hkeep (hother l hlj)

lemma Hunted.of_steps (h : Hunted V held s₀ [] s₀)
    (hrun : Steps (fun s d t => Aimed s d ∧ Does s d t) s₀ ds s) : Hunted V held s₀ ds s := by
  induction hrun with
  | nil => exact h
  | snoc hrun hd ih => exact ih.step (hrun.mono fun _ _ _ _ hd => hd.2) hd.1 hd.2

/-- `userinit` makes a process in a slot that is not in use. -/
lemma userinit_alters (hvacant : ∀ j, (s.proc j).Vacant) (hu : userinit s = .ok t) : Alters s d t := by
  unfold userinit at hu
  obtain ⟨⟨slot, u⟩, halloc, hrest⟩ := bind_ok hu
  unfold allocproc at halloc
  split at halloc
  · obtain ⟨rfl, -⟩ := Prod.mk.inj (pure_ok halloc)
    cases hrest
  · next j hfind =>
    have hj : (s.proc j).state = .UNUSED := by simpa using List.find?_some hfind
    obtain ⟨⟨done, u'⟩, hinit, halloc⟩ := bind_ok halloc
    obtain ⟨rfl, rfl⟩ := Prod.mk.inj (pure_ok halloc)
    obtain ⟨q, heq, -, hq⟩ := initSlot_slot (V := freshArena 0) (hvacant j) hinit
    cases done with
    | false => cases hrest
    | true =>
      obtain ⟨⟨cwd, fs⟩, -, hrest⟩ := bind_ok hrest
      obtain rfl := pure_ok hrest
      obtain ⟨pt, tf, -, rfl⟩ := hq
      have hself : u.proc j = { (s.proc j).started s.nextpid with trapframe := some tf, pagetable := some pt } := by
        rw [heq]
        exact State.setProc_self _ _ _
      refine .born (j := j) (fun l hl => ?_) hj ?_ ?_ ?_ (by rw [heq]; rfl)
      · dsimp only
        rw [State.setProc_of_ne _ hl, heq]
        exact (State.setProc_of_ne s hl _).symm ▸ .refl _
      · dsimp only
        rw [State.setProc_self]
        simp
      · dsimp only
        rw [State.setProc_self, hself]
        rfl
      · dsimp only
        rw [State.setProc_self, hself]
        rfl

lemma Pristine.pidded (h : Pristine V held s) : Pidded s where
  unused j _ := h.pid j
  used j hj := absurd (h.idle.unused j) hj
  inj j _ hj := absurd (h.idle.unused j) hj
  next := by rw [h.nextpid]; decide

lemma Pristine.hunted (h : Pristine V held s) (hu : userinit s = .ok t) : Hunted V held t [] t := by
  have ha : Alters s (.schedule 0 .RUNNABLE) t := userinit_alters h.idle.vacant hu
  have hnone : ∀ j, (t.proc j).killed = false := by
    intro l
    cases ha with
    | stay hsame => rw [(hsame l).killed, h.killed]
    | @born j hother hj hstate hpid hkilled =>
      by_cases hl : l = j
      · rw [hl, hkilled, h.killed]
      · rw [(hother l hl).killed, h.killed]
    | @gone j hother hstate hpid hkilled =>
      by_cases hl : l = j
      · rw [hl, hkilled]
      · rw [(hother l hl).killed, h.killed]
    | hit hother hstate hpid hhits => exact absurd hhits id
  refine ⟨(userinit_good h.idle.good hu).1, h.pidded.alters ha, fun j _ => hnone j, fun j _ hk => ?_⟩
  rw [hnone] at hk
  cases hk

/-- In every run in which `kill(0)` is called only while all slots are in use: a further `kkill`
reaches its target and nothing else, if and only if it is such a call, and no process is marked that
has not been killed or made a fault since it was created. -/
theorem kill_reaches_target (h : Pristine V held s) (hu : userinit s = .ok s₀)
    (hrun : Steps (fun s d t => Aimed s d ∧ Does s d t) s₀ ds t) :
    (∀ n, KillOk t n ↔ n ≠ 0 ∨ ∀ j, (t.proc j).state ≠ .UNUSED) ∧
      ∀ j, (t.proc j).state ≠ .UNUSED → (t.proc j).killed = true → Signalled s₀ ds t j := by
  have hh := Hunted.of_steps (h.hunted hu) hrun
  exact ⟨fun n => hh.pidded.killOk_iff, hh.marked⟩

/-- A kernel with 24 free pages, before its first process. -/
lemma pristine_fresh : Pristine (freshArena 24) 0 { freshKernel 24 with fs := programFs } := by
  have hidle := Idle.fresh (n := 24) (by decide)
  exact ⟨⟨hidle.books, hidle.unused, hidle.vacant⟩, fun _ => rfl, fun _ => rfl, rfl⟩

lemma userinit_booted : userinit { freshKernel 24 with fs := programFs } = .ok (booted 24) :=
  eq_ok (by decide)

/-- The first process kills itself. -/
theorem kill_reaches_target_self : ∃ ds t,
    Steps (fun s d t => Aimed s d ∧ Does s d t) (booted 24) ds t ∧ (t.proc 0).killed = true ∧
      Signalled (booted 24) ds t 0 := by
  have hfacts : ((booted 24).proc 0).state.Alive ∧ ((kkill (booted 24) 1).2.proc 0).killed = true ∧
      ((kkill (booted 24) 1).2.proc 0).state ≠ .UNUSED := by
    decide +kernel
  obtain ⟨halive, hkilled, hused⟩ := hfacts
  have haim : Aimed (booted 24) (.call ⟨0, .kill 1, (kkill (booted 24) 1).1⟩) := Or.inl (by decide)
  have hrun : Steps (fun s d t => Aimed s d ∧ Does s d t) (booted 24) [.call ⟨0, .kill 1, (kkill (booted 24) 1).1⟩]
      (kkill (booted 24) 1).2 := .cons ⟨haim, .call trivial (.kill halive)⟩ (.nil _)
  exact ⟨_, _, hrun, hkilled, (kill_reaches_target pristine_fresh userinit_booted hrun).2 0 hused hkilled⟩

/-- `kill(0)` right after boot marks a slot that is not in use, and returns 0. -/
theorem kill_strays : ¬ ∀ V held s s₀ ds t, Pristine V held s → userinit s = .ok s₀ →
    Steps Does s₀ ds t → (∀ n, KillOk t n) ∧
      ∀ j, (t.proc j).state ≠ .UNUSED → (t.proc j).killed = true → Signalled s₀ ds t j := by
  intro hall
  have hok := (hall _ _ _ _ [] _ pristine_fresh userinit_booted (.nil _)).1 0
  have hfacts : (kkill (booted 24) 0).1 = 0 ∧
      ∀ j, ((booted 24).proc j).state ≠ .UNUSED → ((booted 24).proc j).pid ≠ 0 := by
    decide +kernel
  obtain ⟨hret, hnone⟩ := hfacts
  obtain ⟨j, hj, hpid⟩ := hok.ret.mp hret
  exact hnone j hj hpid

end FogOS.Kernel
