import FogOS.Kernel.Machine
import FogOS.Kernel.Shortage
import FogOS.Kernel.UserCopy

/-!
# Exit and wait

Every child is delivered once. The invariant is about the view of the machine and the events so
far: the process table is a tree under init, pids are not used again, and the events say of every
process what its slot says. What a wait has found comes to the memory of the waiter, which is the
part of `Kernel.UserCopy`.
-/

namespace FogOS.Kernel

/-! ### The process table -/

/-- The child that a process in `kfork` has in hand. -/
def Pc.child : Pc → Option (Fin nproc)
  | .forked j | .linked j => some j
  | _ => none

/-- What a process that stands at a place of the code relies on. -/
def Stands (v : View) (r i : Fin nproc) : Pc → Prop
  | .forked j => (v.life j).state = .USED ∧ (v.life j).parent = none
  | .linked j => (v.life j).state = .USED ∧ (v.life j).parent = some i
  | .exiting _ => i ≠ r
  | .orphaned _ => i ≠ r ∧ v.waitLock = some i ∧ ∀ j, (v.life j).parent ≠ some i
  | .scanning _ _ n kids =>
    v.waitLock = some i ∧ (kids = false → ∀ j : Fin nproc, j < n → (v.life j).parent ≠ some i)
  | _ => True

/-- The process table, `r` being init. -/
structure Tree (v : View) (r : Fin nproc) : Prop where
  init : v.initproc = some r
  alive : (v.life r).state.Alive
  root : (v.life r).parent = none
  unused : ∀ j, (v.life j).state = .UNUSED → (v.life j).parent = none
  idle : ∀ i, ¬ (v.life i).state.Alive → v.pc i = .user
  parent : ∀ j q, (v.life j).parent = some q → (v.life q).state.Alive
  stands : ∀ i, Stands v r i (v.pc i)
  forker : ∀ i i' j, (v.pc i).child = some j → (v.pc i').child = some j → i = i'

variable {v v' : View} {r i : Fin nproc} {e : Event} {c : Pc}

@[grind →]
lemma ProcState.Alive.ne {st : ProcState} (h : st.Alive) :
    st ≠ .UNUSED ∧ st ≠ .USED ∧ st ≠ .ZOMBIE := by
  cases st <;> simp_all [ProcState.Alive]

@[grind =]
lemma Pc.child_free (h : c.Free) : c.child = none := by
  cases c <;> simp_all [Pc.child, Pc.Free]

lemma stands_free (h : c.Free) : Stands v r i c := by
  cases c <;> simp_all [Stands, Pc.Free]

/-- No other process moves the ground a process stands on. -/
lemma Stands.mono (h : Stands v r i c)
    (hchild : ∀ j, c.child = some j → (v'.life j).state = (v.life j).state ∧
      (v'.life j).parent = (v.life j).parent)
    (hlock : v.waitLock = some i → v'.waitLock = some i ∧
      ∀ j, (v'.life j).parent = some i → (v.life j).parent = some i) : Stands v' r i c := by
  cases c with
  | forked j => simpa [Stands, hchild j rfl] using h
  | linked j => simpa [Stands, hchild j rfl] using h
  | exiting status => exact h
  | orphaned status =>
    obtain ⟨hne, hheld, hkids⟩ := h
    exact ⟨hne, (hlock hheld).1, fun j hj => hkids j ((hlock hheld).2 j hj)⟩
  | scanning status count n kids =>
    obtain ⟨hheld, hkids⟩ := h
    exact ⟨(hlock hheld).1, fun hk j hj hp => hkids hk j hj ((hlock hheld).2 j hp)⟩
  | _ => trivial

variable {l : List Event}

namespace Tree

lemma used (h : Tree v r) {i j : Fin nproc} (hj : (v.pc i).child = some j) :
    (v.life j).state = .USED ∧ ((v.life j).parent = none ∨ (v.life j).parent = some i) := by
  have hstands := h.stands i
  cases hpc : v.pc i <;> simp_all [Pc.child, Stands]

lemma held (h : Tree v r) {i : Fin nproc} {status count n : Nat} {kids : Bool}
    (hpc : v.pc i = .scanning status count n kids) : v.waitLock = some i := by
  have hscan := h.stands i
  rw [hpc] at hscan
  exact hscan.1

/-- Nobody else holds `wait_lock` during a scan. -/
lemma released (h : Tree v r) {i : Fin nproc} {status count n : Nat} {kids : Bool}
    (hpc : v.pc i = .scanning status count n kids) (k : Fin nproc) (hk : k ≠ i)
    (hheld : v.waitLock = some k) : none = some k := by
  have hi := Option.some.inj ((h.held hpc).symm.trans hheld)
  exact absurd hi.symm hk

/-- A process goes on, and the others stand where they stood. -/
lemma stands_goto {v₁ : View} {i : Fin nproc} {c : Pc} (h : Tree v r) (hpc : ∀ k, v₁.pc k = v.pc k)
    (hc : Stands v₁ r i c)
    (hchild : ∀ k j, k ≠ i → (v.pc k).child = some j →
      (v₁.life j).state = (v.life j).state ∧ (v₁.life j).parent = (v.life j).parent)
    (hlock : ∀ k, k ≠ i → v.waitLock = some k → v₁.waitLock = some k ∧
      ∀ j, (v₁.life j).parent = some k → (v.life j).parent = some k) (k : Fin nproc) :
    Stands (v₁.goto i c) r k ((v₁.goto i c).pc k) := by
  by_cases hk : k = i
  · subst hk
    rw [View.goto_pc, if_pos rfl]
    exact hc
  · rw [View.goto_pc, if_neg hk, hpc k]
    exact (h.stands k).mono (fun j => hchild k j hk) (hlock k hk)

/-- A process goes on to a place where it has no child in hand. -/
lemma goto {i : Fin nproc} {c : Pc} (h : Tree v r) (hi : (v.life i).state.Alive)
    (hchild : c.child = none) (lock : Option (Fin nproc))
    (hlock : ∀ k, k ≠ i → v.waitLock = some k → lock = some k)
    (hc : Stands { v with waitLock := lock } r i c) :
    Tree ({ v with waitLock := lock }.goto i c) r where
  init := h.init
  alive := h.alive
  root := h.root
  unused := h.unused
  idle k hk := by
    have hki : k ≠ i := by
      rintro rfl
      exact hk hi
    rw [View.goto_pc, if_neg hki]
    exact h.idle k hk
  parent := h.parent
  stands := h.stands_goto (fun _ => rfl) hc (fun _ _ _ _ => ⟨rfl, rfl⟩)
    fun k hk hheld => ⟨hlock k hk hheld, fun _ hj => hj⟩
  forker k k' j := by
    have := h.forker k k' j
    grind

/-- A process that lives on under its parent. -/
lemma live {j : Fin nproc} {p : Life} (h : Tree v r) (hj : (v.life j).state.Alive)
    (hp : p.state.Alive) (hparent : p.parent = (v.life j).parent) : Tree (v.setLife j p) r := by
  have hr := h.alive
  have hused := @h.used
  constructor
  case stands =>
    intro i
    exact (h.stands i).mono (by grind) (by grind)
  all_goals grind [Tree]

lemma move (h : Tree v r) (hmove : Move v e v') : Tree v' r := by
  have hr := h.alive
  have hused := @h.used
  cases hmove with
  | schedule hj hst => exact h.live hj hst rfl
  | stay => exact h
  | goto hi hfree hc =>
    exact h.goto hi (Pc.child_free hc) v.waitLock (fun _ _ hheld => hheld) (stands_free hc)
  | @count i hi hpc =>
    have hlive := h.live (p := { v.life i with countp := toInt32 ((v.life i).countp + 1) }) hi hi rfl
    exact hlive.goto (by simpa using hi) rfl v.waitLock (fun _ _ hheld => hheld) trivial
  | @forkFail i j l hi hpc hj hl hparent hpid =>
    constructor
    case stands => exact h.stands_goto (fun _ => rfl) trivial (by grind) (by grind)
    all_goals grind [Tree, Pc.child]
  | @forkCopy i j l hi hpc hj hl hparent hpid hcount =>
    have hnone := h.unused j hj
    have hslot : Stands { v.setLife j l with nextpid := v.nextpid + 1 } r i (.forked j) := by
      simp [Stands, hl, hparent, hnone]
    constructor
    case stands => exact h.stands_goto (fun _ => rfl) hslot (by grind) (by grind)
    all_goals grind [Tree, Pc.child]
  | @forkLink i j hi hpc hlock =>
    have hj := h.used (i := i) (j := j) (by simp [hpc, Pc.child])
    have hslot : Stands (v.setLife j { v.life j with parent := some i }) r i (.linked j) := by
      simp [Stands, hj.1]
    constructor
    case stands =>
      exact h.stands_goto (fun _ => rfl) hslot (by grind [Tree, Pc.child]) (by grind)
    all_goals grind [Tree, Pc.child]
  | @forkStart i j hi hpc =>
    have hj := h.used (i := i) (j := j) (by simp [hpc, Pc.child])
    constructor
    case stands =>
      exact h.stands_goto (fun _ => rfl) trivial (by grind [Tree, Pc.child]) (by grind)
    all_goals grind [Tree, Pc.child]
  | @exitClose i status hi hfree hinit =>
    have hne : i ≠ r := fun hi => hinit (hi ▸ h.init)
    exact h.goto hi rfl v.waitLock (fun _ _ hheld => hheld) hne
  | @exitOrphan i status hi hpc hlock =>
    have hne : i ≠ r := by simpa [hpc, Stands] using h.stands i
    have horphan : Stands { v.reparent i with waitLock := some i } r i (.orphaned status) := by
      refine ⟨hne, rfl, fun j => ?_⟩
      grind [Tree]
    constructor
    case stands => exact h.stands_goto (fun _ => rfl) horphan (by grind) (by grind)
    all_goals grind [Tree, Pc.child]
  | @exitZombie i status hi hpc =>
    obtain ⟨hne, hheld, hkids⟩ : i ≠ r ∧ v.waitLock = some i ∧ ∀ j, (v.life j).parent ≠ some i := by
      simpa [hpc, Stands] using h.stands i
    constructor
    case stands => exact h.stands_goto (fun _ => rfl) trivial (by grind) (by grind)
    all_goals grind [Tree, Pc.child]
  | @waitBegin i status count hi hfree hlock =>
    refine h.goto hi rfl (some i) (fun k _ hheld => ?_) ⟨rfl, fun _ j hj => absurd hj (Nat.not_lt_zero j)⟩
    rw [hlock] at hheld
    cases hheld
  | @waitNext i j status count kids kids' hi hpc hkids =>
    have hscan := h.stands i
    rw [hpc] at hscan
    refine h.goto hi rfl v.waitLock (fun _ _ hheld => hheld) ⟨hscan.1, fun hk k hlt => ?_⟩
    obtain ⟨hkids, hj⟩ := hkids hk
    rcases Nat.lt_succ_iff_lt_or_eq.mp hlt with hlt | heq
    · exact hscan.2 hkids k hlt
    · rwa [Fin.ext heq]
  | @waitCollect i j status count kids hi hpc hj hst =>
    have hheld := h.held hpc
    constructor
    case stands =>
      exact h.stands_goto (fun _ => rfl) trivial (by grind [Life.cleared]) (by grind)
    all_goals grind [Tree, Pc.child, Life.cleared]
  | waitRefuse hi hpc hj hst => exact h.goto hi rfl none (h.released hpc) trivial
  | waitNone hi hpc => exact h.goto hi rfl none (h.released hpc) trivial
  | @waitSleep i status count hi hpc =>
    have hlive := h.live (p := { v.life i with state := .SLEEPING }) hi trivial rfl
    exact hlive.goto (by simp [ProcState.Alive]) rfl none (h.released hpc) trivial

end Tree

/-! ### The events so far -/

/-- The pid that a wait has returned. -/
def Event.pid? : Event → Option Int
  | .collect _ _ x _ _ => some x
  | _ => none

/-- The pids that have been returned by wait. -/
def collected (l : List Event) : List Int := l.filterMap Event.pid?

/-- Pids are not used again, and no pid is collected twice. -/
structure Pids (l : List Event) (v : View) : Prop where
  lt : ∀ j, (v.life j).state ≠ .UNUSED → (v.life j).pid < v.nextpid
  inj : ∀ j k, (v.life j).state ≠ .UNUSED → (v.life k).state ≠ .UNUSED →
    (v.life j).pid = (v.life k).pid → j = k
  old : ∀ x ∈ collected l, x < v.nextpid
  gone : ∀ x ∈ collected l, ∀ j, (v.life j).state ≠ .UNUSED → (v.life j).pid ≠ x
  once : (collected l).Nodup

lemma collected_concat (l : List Event) (e : Event) :
    collected (l ++ [e]) = collected l ++ e.pid?.toList := by
  cases h : e.pid? <;> simp [collected, h]

/-- Pids go on in the slots they were in. -/
lemma Pids.keep (h : Pids l v) (he : e.pid? = none) (hnext : v.nextpid ≤ v'.nextpid)
    (hlife : ∀ j, (v'.life j).state ≠ .UNUSED →
      (v.life j).state ≠ .UNUSED ∧ (v'.life j).pid = (v.life j).pid) : Pids (l ++ [e]) v' := by
  have hlist : collected (l ++ [e]) = collected l := by simp [collected_concat, he]
  constructor
  case lt =>
    intro j hj
    obtain ⟨hj, hpid⟩ := hlife j hj
    rw [hpid]
    exact (h.lt j hj).trans_le hnext
  case inj =>
    intro j k hj hk heq
    obtain ⟨hj, hpid⟩ := hlife j hj
    obtain ⟨hk, hpid'⟩ := hlife k hk
    rw [hpid, hpid'] at heq
    exact h.inj j k hj hk heq
  case old =>
    intro x hx
    rw [hlist] at hx
    exact (h.old x hx).trans_le hnext
  case gone =>
    intro x hx j hj
    rw [hlist] at hx
    obtain ⟨hj, hpid⟩ := hlife j hj
    rw [hpid]
    exact h.gone x hx j hj
  case once => rw [hlist]; exact h.once

lemma Pids.move (h : Pids l v) (htree : Tree v r) (hmove : Move v e v') : Pids (l ++ [e]) v' := by
  cases hmove with
  | forkFail hi hpc hj hl hparent hpid => exact h.keep rfl (Int.le_add_one le_rfl) (by grind)
  | @forkCopy i j p hi hpc hj hl hparent hpid hcount =>
    have hlist : collected (l ++ [.quiet]) = collected l := by simp [collected_concat, Event.pid?]
    constructor
    case once => rw [hlist]; exact h.once
    all_goals grind [Pids]
  | @forkStart i j hi hpc =>
    have hj := htree.used (i := i) (j := j) (by simp [hpc, Pc.child])
    exact h.keep rfl le_rfl (by grind)
  | @waitCollect i j status count kids hi hpc hj hst =>
    have hlist : collected (l ++ [.collect i j (v.life j).pid (told status (v.life j).xstate)
        (told count (v.life j).countp)]) = collected l ++ [(v.life j).pid] := by
      simp [collected_concat, Event.pid?]
    have hnew : (v.life j).pid ∉ collected l := fun hx => h.gone _ hx j (by simp [hst]) rfl
    constructor
    case once =>
      rw [hlist]
      exact List.nodup_append_comm.mp (List.nodup_cons.mpr ⟨hnew, h.once⟩)
    all_goals grind [Pids, Life.cleared]
  | _ => exact h.keep rfl le_rfl (by grind)

/-! ### The lives so far -/

section

variable {j : Fin nproc}

/-- A life so far: the forker, the pid, and the events since fork has returned. -/
structure Past where
  forker : Fin nproc
  pid : Int
  events : List Event

def Past.add (past : Past) (e : Event) : Past := { past with events := past.events ++ [e] }

@[simp] lemma Past.add_forker (past : Past) (e : Event) : (past.add e).forker = past.forker := rfl
@[simp] lemma Past.add_pid (past : Past) (e : Event) : (past.add e).pid = past.pid := rfl

@[simp] lemma Past.add_events (past : Past) (e : Event) :
    (past.add e).events = past.events ++ [e] := rfl

/-- The slot in which a life begins or ends. -/
def Event.turns? : Event → Option (Fin nproc)
  | .fork _ j _ | .collect _ j _ _ _ => some j
  | _ => none

/-- The life in slot `j` after one more event. -/
def Event.next (j : Fin nproc) (past : Option Past) (e : Event) : Option Past :=
  match e with
  | .fork i k x => if k = j then some ⟨i, x, []⟩ else past.map (·.add e)
  | .collect _ k _ _ _ => if k = j then none else past.map (·.add e)
  | _ => past.map (·.add e)

/-- The life in slot `j` after these events. -/
def since (j : Fin nproc) (l : List Event) : Option Past := l.foldl (Event.next j) none

/-- The number of system calls that `j` has completed. -/
def calls (j : Fin nproc) (l : List Event) : Nat := l.count (.call j)

def Event.status? (j : Fin nproc) : Event → Option Int
  | .exit i status => if i = j then some status else none
  | _ => none

/-- The arguments of the `kexit`s of `j`. -/
def exits (j : Fin nproc) (l : List Event) : List Int := l.filterMap (Event.status? j)

lemma since_concat (j : Fin nproc) (l : List Event) (e : Event) :
    since j (l ++ [e]) = e.next j (since j l) := by
  simp [since]

lemma exits_concat (j : Fin nproc) (l : List Event) (e : Event) :
    exits j (l ++ [e]) = exits j l ++ (e.status? j).toList := by
  cases h : e.status? j <;> simp [exits, h]

lemma calls_concat (j : Fin nproc) (l : List Event) (e : Event) :
    calls j (l ++ [e]) = calls j l + if e = .call j then 1 else 0 := by
  simp [calls, List.count_append, List.count_singleton]

lemma Event.next_of_ne (h : e.turns? ≠ some j) (past : Option Past) :
    e.next j past = past.map (·.add e) := by
  cases e <;> simp_all [Event.next, Event.turns?]

/-- A life begins with a fork, and goes on as long as no event begins or ends it. -/
lemma since_eq_some {past : Past} (h : since j l = some past) :
    ∃ a, l = a ++ .fork past.forker j past.pid :: past.events ∧
      ∀ e ∈ past.events, e.turns? ≠ some j := by
  induction l using List.reverseRecOn generalizing past with
  | nil => simp [since] at h
  | append_singleton l e ih =>
    rw [since_concat] at h
    by_cases hturn : e.turns? = some j
    · cases e with
      | fork i k x =>
        obtain rfl : k = j := by simpa [Event.turns?] using hturn
        obtain rfl : (⟨i, x, []⟩ : Past) = past := by simpa [Event.next] using h
        exact ⟨l, rfl, by simp⟩
      | collect i k x s c =>
        obtain rfl : k = j := by simpa [Event.turns?] using hturn
        simp [Event.next] at h
      | _ => simp [Event.turns?] at hturn
    · rw [Event.next_of_ne hturn] at h
      obtain ⟨past', hpast', rfl⟩ := Option.map_eq_some_iff.mp h
      obtain ⟨a, rfl, hrest⟩ := ih hpast'
      refine ⟨a, by simp [Past.add], fun e' he' => ?_⟩
      rcases List.mem_append.mp he' with he' | he'
      · exact hrest e' he'
      · rwa [List.mem_singleton.mp he']

/-- The process that waits for the child: its forker, or init once the forker has exited. -/
def heir (r : Fin nproc) (past : Past) : Fin nproc :=
  if exits past.forker past.events = [] then past.forker else r

lemma heir_add {past : Past} (he : e.status? past.forker = none) :
    heir r (past.add e) = heir r past := by
  simp [heir, exits_concat, he]

lemma heir_exit {past : Past} (status : Int) :
    heir r (past.add (.exit i status)) = if past.forker = i then r else heir r past := by
  by_cases hi : past.forker = i
  · simp [heir, exits_concat, Event.status?, hi]
  · rw [heir_add (by simp [Event.status?, Ne.symm hi]), if_neg hi]

/-- What `kexit` was called with, if it was. -/
def ending (v : View) (j : Fin nproc) : List Int :=
  if (v.life j).state = .ZOMBIE then [(v.life j).xstate]
  else match v.pc j with
    | .orphaned status => [status]
    | _ => []

/-- A process that has started. -/
def Started (st : ProcState) : Prop := st.Alive ∨ st = .ZOMBIE

/-- What the events say of the process in slot `j`. -/
def Lived (l : List Event) (v : View) (r j : Fin nproc) : Prop :=
  ∃ past, since j l = some past ∧ past.pid = (v.life j).pid ∧
    (v.life j).countp = toInt32 (calls j past.events) ∧ exits j past.events = ending v j ∧
    (v.life j).parent = some (heir r past)

/-- The events and the table agree. -/
structure Pasts (l : List Event) (v : View) (r : Fin nproc) : Prop where
  started : ∀ j, j ≠ r → Started (v.life j).state → Lived l v r j
  unstarted : ∀ j, j ≠ r → ¬ Started (v.life j).state → since j l = none
  fresh : ∀ j, (v.life j).state = .USED → (v.life j).countp = 0

/-- An event that says nothing of the process in slot `j`, and of no exit. -/
def Event.Mute (j : Fin nproc) (e : Event) : Prop :=
  e.turns? ≠ some j ∧ e ≠ .call j ∧ ∀ k, e.status? k = none

lemma Lived.keep (h : Lived l v r j) (he : e.Mute j) (hpid : (v'.life j).pid = (v.life j).pid)
    (hcount : (v'.life j).countp = (v.life j).countp)
    (hparent : (v'.life j).parent = (v.life j).parent) (hending : ending v' j = ending v j) :
    Lived (l ++ [e]) v' r j := by
  obtain ⟨past, hpast, hpid', hcount', hending', hparent'⟩ := h
  obtain ⟨hturn, hcall, hstatus⟩ := he
  have hexits : ∀ k, exits k (past.add e).events = exits k past.events := by
    intro k
    simp [Past.add, exits_concat, hstatus k]
  refine ⟨past.add e, ?_, hpid'.trans hpid.symm, ?_, ?_, ?_⟩
  · rw [since_concat, Event.next_of_ne hturn, hpast]
    rfl
  · rw [hcount, hcount']
    simp [Past.add, calls_concat, hcall]
  · rw [hexits, hending, hending']
  · rw [hparent, hparent', heir_add (hstatus _)]

/-- Moves that begin no life, end none and count nothing. -/
lemma Pasts.keep (h : Pasts l v r) (he : ∀ j, e.Mute j)
    (hlife : ∀ j, (Started (v'.life j).state ↔ Started (v.life j).state) ∧
      (Started (v.life j).state → (v'.life j).pid = (v.life j).pid ∧
        (v'.life j).countp = (v.life j).countp ∧ (v'.life j).parent = (v.life j).parent ∧
        ending v' j = ending v j))
    (hfresh : ∀ j, (v'.life j).state = .USED → (v'.life j).countp = 0) : Pasts (l ++ [e]) v' r where
  started j hj hst := by
    have hst' := (hlife j).1.mp hst
    obtain ⟨hpid, hcount, hparent, hending⟩ := (hlife j).2 hst'
    exact (h.started j hj hst').keep (he j) hpid hcount hparent hending
  unstarted j hj hst := by
    have hnone := h.unstarted j hj (mt (hlife j).1.mpr hst)
    rw [since_concat, Event.next_of_ne (he j).1, hnone]
    rfl
  fresh := hfresh

lemma mute_quiet (j : Fin nproc) : Event.quiet.Mute j := by
  simp [Event.Mute, Event.turns?, Event.status?]

lemma Started.not_used {st : ProcState} (h : Started st) : st ≠ .USED ∧ st ≠ .UNUSED := by
  cases st <;> simp_all [Started, ProcState.Alive]

/-- One more system call. -/
lemma Pasts.count (h : Pasts l v r) (hi : (v.life i).state.Alive) (hpc : v.pc i = .returning) :
    Pasts (l ++ [.call i])
      ((v.setLife i { v.life i with countp := toInt32 ((v.life i).countp + 1) }).goto i .user) r where
  started j hj hst := by
    by_cases hji : j = i
    · subst hji
      obtain ⟨past, hpast, hpid, hcount, hending, hparent⟩ := h.started j hj (by simpa using hst)
      have hexits : ∀ k, exits k (past.add (.call j)).events = exits k past.events := by
        intro k
        simp [Past.add, exits_concat, Event.status?]
      refine ⟨past.add (.call j), ?_, by simpa using hpid, ?_, ?_, ?_⟩
      · rw [since_concat, Event.next_of_ne (by simp [Event.turns?]), hpast]
        rfl
      · have hcalls : calls j (past.add (.call j)).events = calls j past.events + 1 := by
          simp [Past.add, calls_concat]
        simp only [View.goto_life, View.setLife_life, if_pos, hcount, hcalls, toInt32]
        push_cast
        exact Int.bmod_add_bmod
      · rw [hexits, hending]
        simp [ending, hpc]
      · rw [heir_add rfl]
        simpa using hparent
    · refine (h.started j hj (by simpa [hji] using hst)).keep ?_ ?_ ?_ ?_ ?_
      · simp [Event.Mute, Event.turns?, Event.status?, Ne.symm hji]
      all_goals simp [ending, hji]
  unstarted j hj hst := by
    have hji : j ≠ i := by
      rintro rfl
      exact hst (Or.inl (by simpa using hi))
    rw [since_concat, Event.next_of_ne (by simp [Event.turns?]),
      h.unstarted j hj (by simpa [hji] using hst)]
    rfl
  fresh j hj := by
    have := h.fresh j
    grind

/-- A child starts. -/
lemma Pasts.forkStart (h : Pasts l v r) (htree : Tree v r) (hpc : v.pc i = .linked j) :
    Pasts (l ++ [.fork i j (v.life j).pid])
      ((v.setLife j { v.life j with state := .RUNNABLE }).goto i .returning) r := by
  obtain ⟨hused, hparent⟩ : (v.life j).state = .USED ∧ (v.life j).parent = some i := by
    simpa [hpc, Stands] using htree.stands i
  have hidle : v.pc j = .user := htree.idle j (by simp [hused, ProcState.Alive])
  have hij : j ≠ i := by
    rintro rfl
    simp [hpc] at hidle
  have hmute : ∀ k, k ≠ j → (Event.fork i j (v.life j).pid).Mute k := by
    intro k hk
    simp [Event.Mute, Event.turns?, Event.status?, Ne.symm hk]
  constructor
  case started =>
    intro k hk hst
    by_cases hkj : k = j
    · subst hkj
      refine ⟨⟨i, (v.life k).pid, []⟩, ?_, by simp, ?_, ?_, ?_⟩
      · rw [since_concat]
        simp [Event.next]
      · simpa [calls] using (h.fresh k hused).trans (by decide)
      · simp [exits, ending, hij, hidle]
      · simpa [heir, exits] using hparent
    · refine (h.started k hk (by simpa [hkj] using hst)).keep (hmute k hkj) ?_ ?_ ?_ ?_
      case _ => simp [hkj]
      case _ => simp [hkj]
      case _ => simp [hkj]
      case _ => 
        by_cases hki : k = i
        · subst hki
          simp [ending, hkj, hpc]
        · simp [ending, hkj, hki]
  case unstarted =>
    intro k hk hst
    have hkj : k ≠ j := by
      rintro rfl
      simp [Started, ProcState.Alive] at hst
    rw [since_concat, Event.next_of_ne (hmute k hkj).1, h.unstarted k hk (by simpa [hkj] using hst)]
    rfl
  case fresh =>
    intro k hk
    have := h.fresh k
    grind

/-- The children of a process that exits are passed to init. -/
lemma Pasts.exitOrphan {status : Int} (h : Pasts l v r) (htree : Tree v r)
    (hi : (v.life i).state.Alive) (hpc : v.pc i = .exiting status) :
    Pasts (l ++ [.exit i status])
      ({ v.reparent i with waitLock := some i }.goto i (.orphaned status)) r := by
  have hne : i ≠ r := by simpa [hpc, Stands] using htree.stands i
  constructor
  case started =>
    intro k hk hst
    obtain ⟨past, hpast, hpid, hcount, hending, hparent⟩ := h.started k hk (by simpa using hst)
    refine ⟨past.add (.exit i status), ?_, by simpa using hpid, ?_, ?_, ?_⟩
    · rw [since_concat, Event.next_of_ne (by simp [Event.turns?]), hpast]
      rfl
    · simpa [calls_concat] using hcount
    · rw [Past.add_events, exits_concat, hending]
      by_cases hki : k = i
      · subst hki
        have hzombie : (v.life k).state ≠ .ZOMBIE := hi.ne.2.2
        simp [ending, hpc, Event.status?, hzombie]
      · simp [ending, hki, Event.status?, Ne.symm hki]
    · rw [heir_exit]
      simp only [View.goto_life, View.reparent_parent, hparent, htree.init]
      unfold heir
      grind
  case unstarted =>
    intro k hk hst
    rw [since_concat, Event.next_of_ne (by simp [Event.turns?]),
      h.unstarted k hk (by simpa using hst)]
    rfl
  case fresh =>
    intro k hk
    have := h.fresh k
    grind

/-- A child is collected. -/
lemma Pasts.waitCollect {status count : Nat} {x : Int} {a b : Option Int} {kids : Bool}
    (h : Pasts l v r) (htree : Tree v r) (hpc : v.pc i = .scanning status count j kids)
    (hst : (v.life j).state = .ZOMBIE) :
    Pasts (l ++ [.collect i j x a b])
      ({ v.setLife j (v.life j).cleared with waitLock := none }.goto i .returning) r := by
  have hidle : v.pc j = .user := htree.idle j (by simp [hst, ProcState.Alive])
  have hmute : ∀ k, k ≠ j → (Event.collect i j x a b).Mute k := by
    intro k hk
    simp [Event.Mute, Event.turns?, Event.status?, Ne.symm hk]
  constructor
  case started =>
    intro k hk hst'
    have hkj : k ≠ j := by
      rintro rfl
      simp [Started, Life.cleared, ProcState.Alive] at hst'
    refine (h.started k hk (by simpa [hkj] using hst')).keep (hmute k hkj) ?_ ?_ ?_ ?_
    · simp [hkj]
    · simp [hkj]
    · simp [hkj]
    · by_cases hki : k = i
      · subst hki
        simp [ending, hkj, hpc]
      · simp [ending, hkj, hki]
  case unstarted =>
    intro k hk hst'
    by_cases hkj : k = j
    · subst hkj
      rw [since_concat]
      simp [Event.next]
    · rw [since_concat, Event.next_of_ne (hmute k hkj).1,
        h.unstarted k hk (by simpa [hkj] using hst')]
      rfl
  case fresh =>
    intro k hk
    have := h.fresh k
    grind [Life.cleared]

lemma Pasts.move (h : Pasts l v r) (htree : Tree v r) (hmove : Move v e v') :
    Pasts (l ++ [e]) v' r := by
  have hfresh := h.fresh
  have hidle := htree.idle
  cases hmove with
  | count hi hpc => exact h.count hi hpc
  | forkStart hi hpc => exact h.forkStart htree hpc
  | exitOrphan hi hpc hlock => exact h.exitOrphan htree hi hpc
  | waitCollect hi hpc hj hst => exact h.waitCollect htree hpc hst
  | waitRefuse hi hpc hj hst =>
    exact h.keep (by simp [Event.Mute, Event.turns?, Event.status?]) (by grind [ending, Started]) (by grind)
  | waitNone hi hpc =>
    exact h.keep (by simp [Event.Mute, Event.turns?, Event.status?]) (by grind [ending, Started]) (by grind)
  | @forkLink i j hi hpc hlock =>
    have hj := htree.used (i := i) (j := j) (by simp [hpc, Pc.child])
    exact h.keep mute_quiet (by grind [ending, Started]) (by grind)
  | goto hi hfree hc =>
    exact h.keep mute_quiet (by grind [ending, Started, Pc.Free]) (by grind)
  | exitClose hi hfree hc =>
    exact h.keep mute_quiet (by grind [ending, Started, Pc.Free]) (by grind)
  | waitBegin status count hi hfree hc =>
    exact h.keep mute_quiet (by grind [ending, Started, Pc.Free]) (by grind)
  | waitSleep hi hpc =>
    have hsleep : ProcState.SLEEPING.Alive := trivial
    exact h.keep mute_quiet (by grind [ending, Started]) (by grind)
  | _ => exact h.keep mute_quiet (by grind [ending, Started]) (by grind)

end

/-! ### What reaches the waiter -/

section

variable {V : Arena} {held : Multiset Nat} {floor : Nat} {s t u : State} {i j : Fin nproc}

/-- User code of process `i` can write to the byte at `a`, and it is `c`. -/
def UserByte (s : State) (i : Fin nproc) (a : Nat) (c : UInt8) : Prop :=
  ∃ pt, (s.proc i).pagetable = some pt ∧ Copy.Usable true pt a ∧ Copy.byteAt s.kmem pt a = c

/-- The memory of process `i` holds the status at `addr` and the count at `caddr`. Where the two
overlap it holds the count, which is written last. -/
structure Written (s : State) (i : Fin nproc) (addr caddr : Nat) (status count : Option Int) :
    Prop where
  status : ∀ n ∈ status, ∀ k < 4, (count ≠ none → addr + k ∉ Set.Ico caddr (caddr + 4)) →
    UserByte s i (addr + k) ((intBytes n).getD k 0)
  count : ∀ n ∈ count, ∀ k < 4, UserByte s i (caddr + k) ((intBytes n).getD k 0)

lemma length_intBytes (n : Int) : (intBytes n).length = 4 := by
  unfold intBytes
  rw [List.length_map, List.length_range]

/-- `copyout` of an `int`: when it succeeds its bytes are there, and the other bytes stay. -/
lemma copyoutInt_bytes {addr : Nat} {n : Int} {b : Bool} (h : Good floor V held s)
    (htramp : s.trampoline / pgsize * pgsize ∉ V.pages) (hi : (s.proc i).state ≠ .UNUSED)
    (hc : copyoutInt s i addr n = .ok (b, t)) :
    (b = true → addr ≠ 0 → ∀ k < 4, UserByte t i (addr + k) ((intBytes n).getD k 0)) ∧
    ∀ a c, (addr ≠ 0 → a ∉ Set.Ico addr (addr + 4)) → UserByte s i a c → UserByte t i a c := by
  unfold copyoutInt at hc
  split at hc
  · next hzero =>
    obtain ⟨-, rfl⟩ := Prod.mk.inj (pure_ok hc)
    exact ⟨fun _ hne => absurd hzero hne, fun _ _ _ hbyte => hbyte⟩
  · next hne =>
    obtain ⟨R, tf, pt, hpt, hsz, huser⟩ := Copy.Userland.of_good h hi htramp
    dsimp only at hc
    rw [hpt] at hc
    obtain ⟨pt₀, hpt₀, hc⟩ := bind_ok hc
    obtain rfl : pt = pt₀ := Option.some.inj (deref_ok hpt₀)
    obtain ⟨⟨copied, k, pt'⟩, hcopy, hc⟩ := bind_ok hc
    obtain ⟨rfl, rfl⟩ := Prod.mk.inj (pure_ok hc)
    obtain ⟨b', k', pt'', hrun, -, hout⟩ := Copy.copyoutLoop_total addr (intBytes n) huser hsz le_rfl
    obtain ⟨rfl, rfl, rfl⟩ : b = b' ∧ k = k' ∧ pt' = pt'' := by
      have heq := hcopy.symm.trans hrun
      simpa using heq
    have hlen := length_intBytes n
    refine ⟨fun hb _ l hl => ?_, fun a c hout' hbyte => ?_⟩
    · obtain ⟨husable, hat⟩ := hout.done hb l (by omega)
      exact ⟨pt', by simp [State.setProc], husable, hat⟩
    · obtain ⟨pt₁, hpt₁, husable, hat⟩ := hbyte
      obtain rfl : pt = pt₁ := Option.some.inj (hpt.symm.trans hpt₁)
      have hconfined := hout.confined
      rw [hlen] at hconfined
      have hsame := hconfined.byte huser.top husable.read (hout' hne)
      exact ⟨pt', by simp [State.setProc], husable.stay hconfined.faulted, hsame.trans hat⟩

/-- The pages of the child that are freed are none of its parent's. -/
lemma UserByte.freeproc {a : Nat} {c : UInt8} {k : Kmem} {p : Proc} (hbyte : UserByte u i a c)
    (h : Good floor V held u) (hi : (u.proc i).state ≠ .UNUSED) (hj : (u.proc j).state ≠ .UNUSED)
    (hij : i ≠ j) (hf : freeproc u.kmem (u.proc j) = .ok (k, p)) :
    UserByte { u.setProc j p with kmem := k } i a c := by
  obtain ⟨pt, hpt, husable, hat⟩ := hbyte
  obtain ⟨ptj, tfj, hspj⟩ := h.used j hj
  obtain ⟨pti, tfi, hspi⟩ := h.used i hi
  obtain rfl : pt = pti := Option.some.inj (hpt.symm.trans hspi.pagetable)
  have hB := h.books_others j
  obtain ⟨-, hpage, -⟩ := freeproc_spares (hspj.freeable hB).reclaimable hB hf
  have hproc : (u.setProc j p).proc i = u.proc i := u.setProc_of_ne hij p
  refine ⟨pt, (congrArg Proc.pagetable hproc).trans hpt, husable, ?_⟩
  obtain ⟨-, q, hq, hu, -⟩ := husable
  have hmem : q.pa ∈ (u.proc i).refs := by
    rw [hspi.refs]
    exact Multiset.mem_add.mpr (Or.inr (mem_refs (hspi.top.lt_of_user hq hu) hq))
  rw [← hat]
  unfold Copy.byteAt
  rw [hq]
  exact congrFun (hpage q.pa (mem_others.mpr (Or.inr ⟨i, hij, hmem⟩))) _

/-- What `reap` has copied out is there when the child has been freed. -/
lemma reap_written {addr caddr : Nat} (h : Good floor V held s)
    (htramp : s.trampoline / pgsize * pgsize ∉ V.pages) (hi : (s.proc i).state ≠ .UNUSED)
    (hj : (s.proc j).state ≠ .UNUSED) (hij : i ≠ j) (hr : reap s i j addr caddr = .ok (true, t)) :
    Written t i addr caddr (told addr (s.proc j).xstate) (told caddr (s.proc j).countp) := by
  unfold reap at hr
  obtain ⟨⟨copied, s₁⟩, h₁, hr⟩ := bind_ok hr
  obtain ⟨hgood₁, htramp₁, hrep₁⟩ := copyoutInt_good h hi h₁
  cases copied with
  | false => cases pure_ok hr
  | true =>
    obtain ⟨⟨copied, s₂⟩, h₂, hr⟩ := bind_ok hr
    have hi₁ : (s₁.proc i).state ≠ .UNUSED := by rwa [hrep₁.state]
    obtain ⟨hgood₂, -, hrep₂⟩ := copyoutInt_good hgood₁ hi₁ h₂
    cases copied with
    | false => cases pure_ok hr
    | true =>
      obtain ⟨⟨k, pp⟩, hfree, hr⟩ := bind_ok hr
      obtain ⟨-, rfl⟩ := Prod.mk.inj (pure_ok hr)
      have hi₂ : (s₂.proc i).state ≠ .UNUSED := by rwa [hrep₂.state]
      have hj₂ : (s₂.proc j).state ≠ .UNUSED := by rwa [hrep₂.state, hrep₁.state]
      have hchild : (s₁.proc j).countp = (s.proc j).countp := by rw [hrep₁.other hij.symm]
      have hfirst := copyoutInt_bytes h htramp hi h₁
      have hsecond := copyoutInt_bytes hgood₁ (by rwa [htramp₁]) hi₁ h₂
      rw [hchild] at hsecond
      refine ⟨fun n hn l hl hapart => ?_, fun n hn l hl => ?_⟩
      · unfold told at hn
        split at hn
        · cases hn
        · next hne =>
          obtain rfl := Option.some.inj hn
          refine (hsecond.2 _ _ (fun hc => hapart ?_) (hfirst.1 rfl hne l hl)).freeproc hgood₂ hi₂
            hj₂ hij hfree
          simp [told, hc]
      · unfold told at hn
        split at hn
        · cases hn
        · next hne =>
          obtain rfl := Option.some.inj hn
          exact (hsecond.1 rfl hne l hl).freeproc hgood₂ hi₂ hj₂ hij hfree

end

section

variable {j : Fin nproc} {m m' : Machine} {t : State}

/-! ### Runs -/

/-- The table that `procinit` leaves. -/
structure Procinit (s : State) : Prop where
  unused : ∀ i, (s.proc i).state = .UNUSED
  parent : ∀ i, (s.proc i).parent = none

/-- The machine after `userinit`. -/
def boot (s : State) : Machine := ⟨s, none, fun _ => .user⟩

lemma userinit_ok {s t : State} (hs : Procinit s) (h : userinit s = .ok t) :
    ∃ r, t.initproc = some r ∧ (t.proc r).state = .RUNNABLE ∧ (t.proc r).parent = none ∧
      (t.proc r).pid < t.nextpid ∧ ∀ k, k ≠ r → t.proc k = s.proc k := by
  unfold userinit at h
  obtain ⟨⟨slot, u⟩, hslot, h⟩ := bind_ok h
  cases slot with
  | none => cases h
  | some r =>
    dsimp only at h
    obtain ⟨⟨cwd, fs⟩, -, h⟩ := bind_ok h
    obtain rfl := pure_ok h
    unfold allocproc at hslot
    split at hslot
    · obtain ⟨h₁, -⟩ := Prod.mk.inj (pure_ok hslot)
      cases h₁
    · obtain ⟨⟨done, u'⟩, hinit, hslot⟩ := bind_ok hslot
      obtain ⟨h₁, rfl⟩ := Prod.mk.inj (pure_ok hslot)
      cases done with
      | false => simp at h₁
      | true =>
        obtain rfl := Option.some.inj h₁
        obtain ⟨hnew, hnext, hpid⟩ := initSlot_ok hinit
        have hparent := hnew.parent
        refine ⟨_, rfl, ?_, ?_, ?_, fun k hk => ?_⟩
        · simp [State.setProc]
        · simpa [State.setProc, hs.parent] using hparent
        · simp [State.setProc, hpid, hnext]
        · simpa [State.setProc, hk] using hnew.others k hk

/-- The invariant. -/
structure Inv (l : List Event) (v : View) (r : Fin nproc) : Prop where
  tree : Tree v r
  pids : Pids l v
  pasts : Pasts l v r

lemma inv_boot {s t : State} (hs : Procinit s) (h : userinit s = .ok t) {r : Fin nproc}
    (hr : t.initproc = some r) : Inv [] (boot t).view r := by
  obtain ⟨r', hr', hstate, hparent, hpid, hothers⟩ := userinit_ok hs h
  obtain rfl : r' = r := Option.some.inj (hr'.symm.trans hr)
  have hview : ∀ k, (boot t).view.life k = (t.proc k).life := fun _ => rfl
  have hunused : ∀ k, k ≠ r' → (t.proc k).state = .UNUSED ∧ (t.proc k).parent = none := by
    intro k hk
    rw [hothers k hk]
    exact ⟨hs.unused k, hs.parent k⟩
  have hrun : ProcState.RUNNABLE.Alive := trivial
  refine ⟨?_, ?_, ?_⟩
  · constructor
    case init => exact hr
    case idle => exact fun _ _ => rfl
    case stands => exact fun _ => trivial
    case forker => exact fun _ _ _ hj => by cases hj
    all_goals
      simp only [hview, Proc.life]
      grind
  · constructor
    case lt =>
      simp only [hview, Proc.life]
      grind [boot, Machine.view]
    case inj =>
      simp only [hview, Proc.life]
      grind
    all_goals simp [collected]
  · constructor
    case started =>
      intro k hk hst
      have hstate' : ((boot t).view.life k).state = .UNUSED := (hunused k hk).1
      rw [hstate'] at hst
      exact absurd rfl hst.not_used.2
    case unstarted => exact fun _ _ _ => rfl
    case fresh =>
      simp only [hview, Proc.life]
      grind

lemma Inv.step (h : Inv l m.view r) (hstep : Step m e m') : Inv (l ++ [e]) m'.view r :=
  ⟨h.tree.move hstep.move, h.pids.move h.tree hstep.move, h.pasts.move h.tree hstep.move⟩

lemma Inv.run {m₀ : Machine} (h : Inv [] m₀.view r) (hrun : Steps Step m₀ l m) : Inv l m.view r := by
  induction hrun with
  | nil => exact h
  | snoc _ hstep ih => exact ih.step hstep

/-- What a run shows of a wait that returns: `i` collects the child in slot `j` after the events
`before`. -/
def Delivers (r : Fin nproc) (before : List Event) (i j : Fin nproc) (x : Int)
    (status count : Option Int) : Prop :=
  ∃ a b f v, before = a ++ .fork f j x :: b ∧ (∀ e ∈ b, e.turns? ≠ some j) ∧
    i = (if exits f b = [] then f else r) ∧ exits j b = [v] ∧ (∀ n ∈ status, n = v) ∧
    ∀ n ∈ count, n = toInt32 (calls j b)

lemma Inv.delivers {i j : Fin nproc} {x : Int} {status count : Option Int} (h : Inv l m.view r)
    (hstep : Step m (.collect i j x status count) m') : Delivers r l i j x status count := by
  cases hstep with
  | @waitCollect _ addr caddr _ kids t hi hj hst ht =>
    have hjr : j ≠ r := by
      rintro rfl
      have hroot : (m.kernel.proc j).parent = none := h.tree.root
      simp [hj] at hroot
    obtain ⟨past, hpast, hpid, hcount, hending, hparent⟩ := h.pasts.started j hjr (Or.inr hst)
    obtain ⟨a, hl, hturns⟩ := since_eq_some hpast
    refine ⟨a, past.events, past.forker, (m.kernel.proc j).xstate, ?_, hturns, ?_, ?_, ?_, ?_⟩
    · rw [hl, hpid]
      rfl
    · exact Option.some.inj (hj.symm.trans hparent)
    · have hzombie : (m.view.life j).state = .ZOMBIE := hst
      rw [hending, ending, if_pos hzombie]
      rfl
    · intro n hn
      unfold told at hn
      split at hn <;> simp_all
    · intro n hn
      have hcount' : (m.kernel.proc j).countp = toInt32 (calls j past.events) := hcount
      unfold told at hn
      split at hn <;> simp_all

lemma Inv.delivered {m₀ : Machine} (h : Inv [] m₀.view r) (hrun : Steps Step m₀ l m)
    {l₁ l₂ : List Event} {i j : Fin nproc} {x : Int} {status count : Option Int}
    (hl : l = l₁ ++ .collect i j x status count :: l₂) : Delivers r l₁ i j x status count := by
  induction hrun generalizing l₂ with
  | nil => simp at hl
  | @snoc m m' l e hrun hstep ih =>
    rcases List.eq_nil_or_concat l₂ with rfl | ⟨l₃, e', rfl⟩
    · obtain ⟨rfl, he⟩ := List.append_inj' hl rfl
      obtain rfl : e = .collect i j x status count := by simpa using he
      exact (h.run hrun).delivers hstep
    · rw [List.concat_eq_append, ← List.cons_append, ← List.append_assoc] at hl
      exact ih (List.append_inj' hl rfl).1

/-- The child in slot `j` has exited, and its parent `i` has not collected it. -/
def Collectable (s : State) (i j : Fin nproc) : Prop :=
  (s.proc j).parent = some i ∧ (s.proc j).state = .ZOMBIE

/-- A wait that a bad pointer makes fail leaves every process as it was. -/
lemma Step.refused (h : Step m (.refuse i j) m') :
    Collectable m'.kernel i j ∧ ∀ k, (m'.kernel.proc k).life = (m.kernel.proc k).life := by
  cases h with
  | @waitRefuse _ status count _ kids t hi hj hst ht =>
    obtain ⟨-, -, hlives⟩ := reap_ok ht
    have hlife : ∀ k, (t.proc k).life = (m.kernel.proc k).life := by simpa using hlives
    refine ⟨⟨?_, ?_⟩, hlife⟩
    · exact (congrArg Life.parent (hlife j)).trans hj
    · exact (congrArg Life.state (hlife j)).trans hst

/-- Only a wait that returns a child gives a started slot back. -/
lemma Move.freed (h : Move v e v') (hst : Started (v.life j).state)
    (hfree : (v'.life j).state = .UNUSED) :
    ∃ i status count, e = .collect i j (v.life j).pid status count := by
  obtain ⟨-, hused⟩ := hst.not_used
  cases h with
  | @waitCollect i k addr caddr kids hi hpc hk hzombie =>
    by_cases hjk : j = k
    · subst hjk
      exact ⟨_, _, _, rfl⟩
    · exact absurd (by simpa [hjk] using hfree) hused
  | _ => exact absurd hfree (by grind)

/-- A wait that returns -1 at the end of a scan has no children, unless its process was killed. -/
lemma Inv.childless (h : Inv l m.view r) (hstep : Step m (.childless i) m') :
    (m.kernel.proc i).killed ∨ ∀ j, (m.kernel.proc j).parent ≠ some i := by
  cases hstep with
  | @waitNone _ status count kids hi hkids =>
    rcases hkids with rfl | hkilled
    · have hscan := h.tree.stands i
      rw [show m.view.pc i = _ from hi.2] at hscan
      exact Or.inr fun j => hscan.2 rfl j j.isLt
    · exact Or.inl hkilled

/-- What a wait returns has come to the memory of its process, at the addresses it was called with. -/
lemma Step.written {j : Fin nproc} {x : Int} {status count : Option Int}
    (h : Step m (.collect i j x status count) m') :
    ∃ addr caddr kids, m.pc i = .scanning addr caddr j kids ∧
      (status = none ↔ addr = 0) ∧ (count = none ↔ caddr = 0) ∧
      ∀ floor V held, Good floor V held m.kernel →
        m.kernel.trampoline / pgsize * pgsize ∉ V.pages →
        Written m'.kernel i addr caddr status count := by
  cases h with
  | @waitCollect _ addr caddr _ kids t hi hj hst ht =>
    have hij : i ≠ j := by
      rintro rfl
      rw [hi.1] at hst
      cases hst
    refine ⟨addr, caddr, kids, hi.2, by simp [told], by simp [told], fun floor V held hgood htramp => ?_⟩
    exact reap_written hgood htramp (by simp [hi.1]) (by simp [hst]) hij ht

/-- Exit and wait deliver each child once. In every run after `userinit`, no pid is returned twice;
a wait that returns `pid` has collected the process that a fork has started under that pid, is made
by the forker, or by init if the forker has exited since, and delivers what the process has given
to its only `kexit` and the number of system calls it has completed: as long as the pages are in the
books of the allocator, the bytes are then in the memory of its caller, at the addresses of the
call. A wait that fails on a bad pointer leaves the child collectable, and only a wait that returns
a child gives a started slot back. -/
theorem wait_delivers_once {s t : State} {r : Fin nproc} {l : List Event} {m : Machine}
    (hs : Procinit s) (hinit : userinit s = .ok t) (hr : t.initproc = some r)
    (hrun : Steps Step (boot t) l m) :
    (collected l).Nodup ∧
    (∀ l₁ l₂ i j x status count, l = l₁ ++ .collect i j x status count :: l₂ →
      Delivers r l₁ i j x status count) ∧
    (∀ e m', Step m e m' →
      (∀ i j x status count, e = .collect i j x status count →
        ∃ addr caddr kids, m.pc i = .scanning addr caddr j kids ∧
          (status = none ↔ addr = 0) ∧ (count = none ↔ caddr = 0) ∧
          ∀ floor V held, Good floor V held m.kernel →
            m.kernel.trampoline / pgsize * pgsize ∉ V.pages →
            Written m'.kernel i addr caddr status count) ∧
      (∀ i j, e = .refuse i j → Collectable m'.kernel i j ∧
        ∀ k, (m'.kernel.proc k).life = (m.kernel.proc k).life) ∧
      (∀ j, Started (m.kernel.proc j).state → (m'.kernel.proc j).state = .UNUSED →
        ∃ i status count, e = .collect i j (m.kernel.proc j).pid status count) ∧
      (∀ i, e = .childless i →
        (m.kernel.proc i).killed ∨ ∀ j, (m.kernel.proc j).parent ≠ some i)) := by
  have h0 := inv_boot hs hinit hr
  have h := h0.run hrun
  refine ⟨h.pids.once, ?_, fun e m' hstep => ⟨?_, ?_, ?_, ?_⟩⟩
  · intro l₁ l₂ i j x status count hl
    exact h0.delivered hrun hl
  · rintro i j x status count rfl
    exact hstep.written
  · rintro i j rfl
    exact hstep.refused
  · intro j hst hfree
    exact hstep.move.freed hst hfree
  · rintro i rfl
    exact h.childless hstep

/-! ### A run -/

/-- One more system call of process `i`. -/
def counted (s : State) (i : Fin nproc) : State :=
  s.setProc i { s.proc i with countp := toInt32 ((s.proc i).countp + 1) }

/-- Init has a child. -/
def initForks : State := (returned (kfork firstGrows 0)).2

/-- The child runs. -/
def childRuns : State :=
  (counted initForks 0).setProc 1 { (counted initForks 0).proc 1 with state := .RUNNING }

/-- The child has completed a system call. -/
def childCalls : State := counted childRuns 1

/-- The child has called `exit(7)`. -/
def childExits : State := returned (kexit childCalls 1 7)

/-- Init forks, the child completes a system call and exits with status 7, and init waits. -/
def childRun : List Event :=
  [.quiet, .quiet, .quiet, .quiet, .quiet, .fork 0 1 2, .call 0, .quiet, .quiet, .quiet, .call 1, .quiet,
    .exit 1 7, .quiet, .quiet, .quiet, .quiet, .collect 0 1 2 (some 7) (some 1)]

lemma childRun_facts :
    ((userinit (freshKernel 24)).isOk = true ∧ (returned (userinit (freshKernel 24))).initproc = some 0 ∧
      ((returned (userinit (freshKernel 24))).proc 0).state.Alive ∧
      (sysSbrk firstRuns 0 4096 true).isOk = true) ∧
    ((firstGrows.proc 0).state = .RUNNING ∧ (kfork firstGrows 0).isOk = true ∧
      (returned (kfork firstGrows 0)).1 = 2 ∧
      (List.finRange nproc).find? (fun j => (firstGrows.proc j).state = .UNUSED) = some 1) ∧
    ((initForks.proc 0).state = .RUNNING ∧ ((counted initForks 0).proc 1).state = .RUNNABLE ∧
      (childRuns.proc 1).state = .RUNNING) ∧
    ((childCalls.proc 1).state = .RUNNING ∧ (kexit childCalls 1 7).isOk = true) ∧
    ((childExits.proc 0).state = .RUNNING ∧ (childExits.proc 0).parent ≠ some 0) ∧
    ((reap childExits 0 1 8 16).isOk = true ∧ (returned (reap childExits 0 1 8 16)).1 = true) ∧
    ((childExits.proc 1).parent = some 0 ∧ (childExits.proc 1).state = .ZOMBIE ∧
      (childExits.proc 1).pid = 2 ∧ told 8 (childExits.proc 1).xstate = some 7 ∧
      told 16 (childExits.proc 1).countp = some 1) := by
  decide +kernel

lemma run_firstGrows : Steps Step (boot (returned (userinit (freshKernel 24)))) [.quiet, .quiet]
    (boot firstGrows) := by
  obtain ⟨⟨-, -, halive, hok⟩, -⟩ := childRun_facts
  exact .cons (.schedule (j := 0) halive (show ProcState.RUNNING.Alive from trivial))
    (.cons (.elsewhere (sysSbrk_elsewhere (eq_ok_pair hok rfl))) (.nil _))

lemma run_initForks : Steps Step (boot firstGrows) [.quiet, .quiet, .quiet, .fork 0 1 2]
    ((boot initForks).goto 0 .returning) := by
  obtain ⟨-, ⟨hrunning, hok, hpid, hfind⟩, -⟩ := childRun_facts
  have henter : Step (boot firstGrows) .quiet ((boot firstGrows).goto 0 .call) := .enter ⟨hrunning, rfl⟩
  have hat : ((boot firstGrows).goto 0 .call).At 0 .call := ⟨hrunning, by simp [Machine.goto]⟩
  have hfork : kfork firstGrows 0 = .ok (2, initForks) := eq_ok_pair hok hpid
  obtain ⟨l, hrun, hl⟩ := kfork_run hat rfl hfork
  have hrun : Steps Step ((boot firstGrows).goto 0 .call) l ((boot initForks).goto 0 .returning) := by
    simpa [boot, Machine.goto] using hrun
  rcases hl with ⟨j, hj, rfl⟩ | ⟨-, hneg⟩
  · obtain rfl : j = 1 := Option.some.inj (hj.symm.trans hfind)
    exact Steps.cons henter hrun
  · exact absurd hneg (by decide)

lemma boot_goto_user (s : State) (i : Fin nproc) (c : Pc) :
    ((boot s).goto i c).goto i .user = boot s := by
  rw [Machine.goto_goto]
  exact congrArg (Machine.mk s none) (Function.update_eq_self i _)

lemma run_count {s : State} (hi : (s.proc i).state = .RUNNING) :
    Step ((boot s).goto i .returning) (.call i) (boot (counted s i)) := by
  have hstep := Step.count (Machine.at_goto (c := .returning) hi (boot s))
  rw [← boot_goto_user (counted s i) i .returning]
  exact hstep

lemma run_call {s : State} (hi : (s.proc i).state = .RUNNING) :
    Steps Step (boot s) [.quiet, .quiet, .call i] (boot (counted s i)) := by
  have hbody : Step ((boot s).goto i .call) .quiet ((boot s).goto i .returning) := by
    rw [← Machine.goto_goto (boot s) i .call .returning]
    exact .body (Machine.at_goto hi (boot s))
  exact .cons (.enter ⟨hi, rfl⟩) (.cons hbody (.cons (run_count hi) (.nil _)))

lemma run_childCalls : Steps Step ((boot initForks).goto 0 .returning)
    [.call 0, .quiet, .quiet, .quiet, .call 1] (boot childCalls) := by
  obtain ⟨-, -, ⟨hparent, hrunnable, hrunning⟩, -⟩ := childRun_facts
  have halive : ((counted initForks 0).proc 1).state.Alive := by
    rw [hrunnable]
    trivial
  have hschedule : Step (boot (counted initForks 0)) .quiet (boot childRuns) :=
    .schedule (j := 1) halive (show ProcState.RUNNING.Alive from trivial)
  exact .cons (run_count hparent) (.cons hschedule (run_call hrunning))

lemma run_childExits : Steps Step (boot childCalls) [.quiet, .exit 1 7, .quiet] (boot childExits) := by
  obtain ⟨-, -, -, ⟨hrunning, hok⟩, -⟩ := childRun_facts
  have hrun := kexit_run (m := boot childCalls) (Or.inl ⟨hrunning, rfl⟩) rfl (eq_ok hok)
  have hend : (boot childExits).goto 1 .user = boot childExits := by
    rw [← Machine.goto_goto (boot childExits) 1 .user .user, boot_goto_user]
  exact hend ▸ hrun

/-- Init has come to the slot of its child. -/
def childFound : Machine :=
  { boot childExits with waitLock := some 0 }.goto 0 (.scanning 8 16 1 false)

lemma run_childFound : Steps Step (boot childExits) [.quiet, .quiet, .quiet] childFound := by
  obtain ⟨-, -, -, -, ⟨hrunning, hnone⟩, -⟩ := childRun_facts
  have hat : ((boot childExits).goto 0 .call).At 0 .call := Machine.at_goto hrunning (boot childExits)
  have hbegin : Step ((boot childExits).goto 0 .call) .quiet
      ({ boot childExits with waitLock := some 0 }.goto 0 (.scanning 8 16 0 false)) := by
    simpa [Machine.goto] using Step.waitEnter 8 16 hat rfl
  have hskip : Step ({ boot childExits with waitLock := some 0 }.goto 0 (.scanning 8 16 0 false))
      .quiet childFound := by
    have hat : ({ boot childExits with waitLock := some 0 }.goto 0 (.scanning 8 16 0 false)).At 0
        (.scanning 8 16 (0 : Fin nproc) false) :=
      Machine.at_goto hat.1 { boot childExits with waitLock := some 0 }
    simpa [Machine.goto, childFound] using Step.waitSkip hat hnone
  exact .cons (.enter ⟨hat.1, rfl⟩) (.cons hbegin (.cons hskip (.nil _)))

lemma childFound_collect : ∃ m, Step childFound (.collect 0 1 2 (some 7) (some 1)) m := by
  obtain ⟨-, -, -, -, ⟨hrunning, -⟩, ⟨hok, htrue⟩, hparent, hstate, hpid, hstatus, hcount⟩ := childRun_facts
  have hat : childFound.At 0 (.scanning 8 16 (1 : Fin nproc) false) :=
    Machine.at_goto hrunning { boot childExits with waitLock := some 0 }
  have hreap : reap childExits 0 1 8 16 = .ok (true, (returned (reap childExits 0 1 8 16)).2) :=
    eq_ok_pair hok htrue
  have hcollect := Step.waitCollect (m := childFound) hat hparent hstate hreap
  change Step childFound (.collect 0 1 (childExits.proc 1).pid (told 8 (childExits.proc 1).xstate)
    (told 16 (childExits.proc 1).countp)) _ at hcollect
  rw [hpid, hstatus, hcount] at hcollect
  exact ⟨_, hcollect⟩

lemma counted_same (s : State) (i l : Fin nproc) : SameMem (s.proc l) ((counted s i).proc l) := by
  have hsame : SameMem (s.proc i) { s.proc i with countp := toInt32 ((s.proc i).countp + 1) } :=
    ⟨rfl, rfl, rfl, rfl, rfl, Iff.rfl⟩
  exact hsame.setProc l

lemma good_childExits : Good 0 (freshArena 24) 0 childExits ∧
    childExits.trampoline = firstGrows.trampoline := by
  obtain ⟨-, ⟨hfirst, hokf, -, -⟩, ⟨-, hrunnable, -⟩, ⟨hrunning, hoke⟩, -⟩ := childRun_facts
  have hforks : kfork firstGrows 0 = .ok (_, initForks) := eq_ok_pair hokf rfl
  obtain ⟨hgood, htramp, -⟩ := kfork_good good_firstGrows (by simp [hfirst]) hforks
  have hcounted : Good 0 (freshArena 24) 0 (counted initForks 0) :=
    hgood.congr rfl rfl (counted_same initForks 0)
  have hruns : Good 0 (freshArena 24) 0 childRuns :=
    hcounted.congr rfl rfl (SameMem.setProc ⟨rfl, rfl, rfl, rfl, rfl, by simp [hrunnable]⟩)
  have hcalls : Good 0 (freshArena 24) 0 childCalls := hruns.congr rfl rfl (counted_same childRuns 1)
  have hexit : kexit childCalls 1 7 = .ok childExits := eq_ok hoke
  obtain ⟨hk, htramp', hsame⟩ := kexit_same (by simp [hrunning]) hexit
  exact ⟨hcalls.congr hk htramp' hsame, htramp'.trans htramp⟩

/-- Init collects its child, and has the status 7 at address 8 and the count 1 at address 16. -/
theorem wait_delivers_once_child : ∃ m,
    Steps Step (boot (returned (userinit (freshKernel 24)))) childRun m ∧
      Delivers 0 childRun.dropLast 0 1 2 (some 7) (some 1) ∧
      UserByte m.kernel 0 8 7 ∧ UserByte m.kernel 0 16 1 := by
  have hfound := run_firstGrows.append (run_initForks.append (run_childCalls.append
    (run_childExits.append run_childFound)))
  obtain ⟨m, hlast⟩ := childFound_collect
  have hrun := hfound.snoc hlast
  have hfresh : Procinit (freshKernel 24) := ⟨fun _ => rfl, fun _ => rfl⟩
  obtain ⟨⟨hok, hroot, -⟩, -⟩ := childRun_facts
  have hinit := eq_ok hok
  obtain ⟨-, -, hstep⟩ := wait_delivers_once hfresh hinit hroot hfound
  obtain ⟨addr, caddr, kids, hpc, -, -, hwritten⟩ := (hstep _ _ hlast).1 _ _ _ _ _ rfl
  cases hpc
  have hwritten := hwritten 0 (freshArena 24) 0 good_childExits.1 (by
    change childExits.trampoline / pgsize * pgsize ∉ _
    rw [good_childExits.2]
    exact execd_firstExecd.tenants.tramp)
  refine ⟨m, hrun, ?_, ?_, hwritten.count 1 rfl 0 (by omega)⟩
  · exact (wait_delivers_once hfresh hinit hroot hrun).2.1 _ [] 0 1 2 (some 7) (some 1) rfl
  · exact hwritten.status 7 rfl 0 (by omega) fun _ hin => absurd hin.1 (by omega)

end

end FogOS.Kernel
