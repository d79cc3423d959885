import FogOS.Kernel.Smp

/-!
# Code that keeps to the rules

What a CPU knows without looking at the others: the locks that it holds, its interrupts, and whether the state of the
process that it runs has been changed. `Fine` says of what a CPU has still to do that none of the checks fails, that
interrupts are off where they have to be, and that in the end everything is as the caller expects it.
-/

namespace FogOS.Kernel.Smp

/-- What a CPU knows. `taking` is a lock that it has locked without its name on it. `moved` is the state that it has
given to the process of which it holds the lock, while that is not yet, or still, the one that runs. -/
structure View where
  held : Finset Lock
  taking : Option Lock
  noff : Int
  intena : Bool
  intr : Bool
  moved : Option ProcState
  proc : Option (Fin nproc)
  wants : Option Bool

namespace View

def off (v : View) : View := { v with intr := false }

def push (v : View) (old : Bool) : View := { v with intena := if v.noff = 0 then old else v.intena, noff := v.noff + 1 }

def pop (v : View) : View := { v with noff := v.noff - 1, intr := decide (v.noff = 1) && v.intena }

/-- After `acquire`. -/
def acquired (v : View) (lk : Lock) : View := { v.off.push v.intr with held := insert lk v.held }

/-- After `release`. -/
def released (v : View) (lk : Lock) : View := { v.pop with held := v.held.erase lk }

/-- After `push_off` and `pop_off`. -/
def seen (v : View) : View := { v with intena := if v.noff = 0 then v.intr else v.intena }

/-- Interrupts are off while a lock is held. -/
structure Steady (v : View) : Prop where
  nonneg : 0 ≤ v.noff
  quiet : v.noff = 0 → v.held = ∅ ∧ v.moved = none
  off : v.noff ≠ 0 → v.intr = false
  taking : v.taking = none

/-- The interrupts may be on. -/
structure Quiet (who : Option (Fin nproc)) (v : View) : Prop where
  held : v.held = ∅
  noff : v.noff = 0
  moved : v.moved = none
  taking : v.taking = none
  proc : v.proc = who

/-- Between two calls. -/
structure Calm (who : Option (Fin nproc)) (v : View) : Prop where
  plain : ∀ lk ∈ v.held, lk.Plain
  taking : v.taking = none
  noff : v.noff = v.held.card
  off : v.held ≠ ∅ → v.intr = false
  moved : v.moved = none
  proc : v.proc = who
  intr : v.held = ∅ → ∀ b, v.wants = some b → v.intr = b
  intena : v.held ≠ ∅ → ∀ b, v.wants = some b → v.intena = b
  scheduler : who = none → v.held = ∅ ∧ v.wants = none

end View

/-- What a CPU knows at first. -/
def View.idle : View := ⟨∅, none, 0, false, false, none, none, none⟩

/-- The process `i` when the scheduler has switched to it, with any value of `intena`. -/
def resumed (i : Fin nproc) (wants : Option Bool) (e : Bool) : View := ⟨{.proc i}, none, 1, e, false, none, some i, wants⟩

/-- The scheduler when the process `i` has switched to it. -/
def returned (i : Fin nproc) (e : Bool) : View := ⟨{.proc i}, none, 1, e, false, none, some i, none⟩

/-- The process `who`, or the scheduler, can go on with this code. -/
inductive Fine (who : Option (Fin nproc)) : View → List Op → Prop
  | nil {v : View} (h : v.Calm who) : Fine who v []
  | intrGet {v : View} {ops : List Op} (h : Fine who v (.intrOff :: .push v.intr :: ops)) : Fine who v (.intrGet :: ops)
  | intrOff {v : View} {ops : List Op} (h : Fine who v.off ops) : Fine who v (.intrOff :: ops)
  | intrOn {v : View} {ops : List Op} (hquiet : v.Quiet who) (hwho : who = none) (h : Fine who { v with intr := true } ops) :
      Fine who v (.intrOn :: ops)
  | push {v : View} {old : Bool} {ops : List Op} (hintr : v.intr = false) (h : Fine who (v.push old) ops) :
      Fine who v (.push old :: ops)
  | pop {v : View} {ops : List Op} (hintr : v.intr = false) (hnoff : 1 ≤ v.noff)
      (hquiet : v.noff = 1 → v.held = ∅ ∧ v.moved = none ∧ v.taking = none ∧ v.proc = who) (h : Fine who v.pop ops) : Fine who v (.pop :: ops)
  | checkFree {v : View} {lk : Lock} {ops : List Op} (hlk : lk ∉ v.held) (h : Fine who v ops) : Fine who v (.checkFree lk :: ops)
  | swap {v : View} {lk : Lock} {ops : List Op} (htaking : v.taking = none) (hintr : v.intr = false)
      (hmoved : v.moved = none) (h : Fine who { v with taking := some lk } ops) : Fine who v (.swap lk :: ops)
  | mark {v : View} {lk : Lock} {ops : List Op} (htaking : v.taking = some lk) (hmoved : v.moved = none)
      (h : Fine who { v with held := insert lk v.held, taking := none } ops) : Fine who v (.mark lk :: ops)
  | checkHeld {v : View} {lk : Lock} {ops : List Op} (hlk : lk ∈ v.held) (h : Fine who v ops) : Fine who v (.checkHeld lk :: ops)
  | unmark {v : View} {lk : Lock} {ops : List Op} (hlk : lk ∈ v.held) (htaking : v.taking = none) (hintr : v.intr = false)
      (hmoved : ∀ st, v.moved = some st → ∃ i, who = some i ∧ lk ≠ .proc i)
      (h : Fine who { v with held := v.held.erase lk, taking := some lk } ops) : Fine who v (.unmark lk :: ops)
  | unlock {v : View} {lk : Lock} {ops : List Op} (htaking : v.taking = some lk) (hmoved : ∀ st, v.moved = some st → ∃ i, who = some i)
      (h : Fine who { v with taking := none } ops) : Fine who v (.unlock lk :: ops)
  | self {v : View} {ops : List Op} (hproc : v.proc = who) (h : Fine who v ops) : Fine who v (.self who :: ops)
  | setChan {v : View} {i : Fin nproc} {ch : Option Chan} {ops : List Op} (hwho : who = some i) (hlk : .proc i ∈ v.held)
      (hmoved : v.moved = none) (h : Fine who v ops) : Fine who v (.setChan i ch :: ops)
  | setState {v : View} {i : Fin nproc} {st : ProcState} {ops : List Op} (hwho : who = some i) (hlk : .proc i ∈ v.held)
      (hintr : v.intr = false) (hmoved : v.moved = none) (hst : st = .RUNNABLE ∨ st = .SLEEPING ∨ st = .ZOMBIE)
      (h : Fine who { v with moved := some st } ops) : Fine who v (.setState i st :: ops)
  | schedCheck {v : View} {i : Fin nproc} {st : ProcState} {ops : List Op} (hwho : who = some i) (hlk : .proc i ∈ v.held)
      (hnoff : v.noff = 1) (hintr : v.intr = false) (hmoved : v.moved = some st) (hst : st ≠ .RUNNING) (h : Fine who v ops) :
      Fine who v (.schedCheck i :: ops)
  | saveIntena {v : View} {ops : List Op} (h : Fine who v (.swtchOut :: .restore v.intena :: ops)) :
      Fine who v (.saveIntena :: ops)
  | swtchOut {v : View} {i : Fin nproc} {st : ProcState} {ops : List Op} (hwho : who = some i) (hlk : v.held = {.proc i})
      (htaking : v.taking = none) (hnoff : v.noff = 1) (hintr : v.intr = false) (hmoved : v.moved = some st)
      (hst : st = .RUNNABLE ∨ st = .SLEEPING ∨ st = .ZOMBIE)
      (hend : st = .ZOMBIE → ∀ j ch, .wake j ch ∉ ops) (h : st ≠ .ZOMBIE → ∀ e, Fine who (resumed i v.wants e) ops) :
      Fine who v (.swtchOut :: ops)
  | restore {v : View} {b : Bool} {ops : List Op} (h : Fine who { v with intena := b } ops) : Fine who v (.restore b :: ops)
  | wake {v : View} {j : Fin nproc} {ch : Chan} {ops : List Op} (hwho : who ≠ some j) (hlk : .proc j ∈ v.held)
      (hmoved : v.moved = none) (h : Fine who v ops) : Fine who v (.wake j ch :: ops)
  | kill {v : View} {j : Fin nproc} {ops : List Op} (hlk : .proc j ∈ v.held) (hmoved : v.moved = none) (h : Fine who v ops) :
      Fine who v (.kill j :: ops)
  | spawn {v : View} {j : Fin nproc} {ops : List Op} (hlk : .proc j ∈ v.held) (hmoved : v.moved = none) (h : Fine who v ops) :
      Fine who v (.spawn j :: ops)
  | reap {v : View} {j : Fin nproc} {ops : List Op} (hlk : .proc j ∈ v.held) (hmoved : v.moved = none) (h : Fine who v ops) :
      Fine who v (.reap j :: ops)
  | setPriority {v : View} {i : Fin nproc} {priority : Int} {ops : List Op} (hlk : .proc i ∈ v.held) (h : Fine who v ops) :
      Fine who v (.setPriority i priority :: ops)
  | dump {v : View} {j : Fin nproc} {ops : List Op} (h : Fine who v ops) :
      Fine who v (.dump j :: ops)
  | clearFound {v : View} {ops : List Op} (h : Fine who v ops) : Fine who v (.clearFound :: ops)
  | tryRun {v : View} {j : Fin nproc} {current : Int} {ops : List Op} (hwho : who = none) (hlk : v.held = {.proc j})
      (hnoff : v.noff = 1) (hintr : v.intr = false) (hmoved : v.moved = none) (h : Fine who v ops)
      (hrun : Fine who { v with moved := some .RUNNING, proc := some j } (.swtchIn j :: .back :: ops)) :
      Fine who v (.tryRun j current :: ops)
  | swtchIn {v : View} {j : Fin nproc} {ops : List Op} (hwho : who = none) (hlk : v.held = {.proc j}) (htaking : v.taking = none)
      (hnoff : v.noff = 1)
      (hintr : v.intr = false) (hmoved : v.moved = some .RUNNING) (hproc : v.proc = some j)
      (h : ∀ e, Fine who (returned j e) ops) : Fine who v (.swtchIn j :: ops)
  | back {v : View} {ops : List Op} (hwho : who = none) (hmoved : v.moved = none) (h : Fine who { v with proc := none } ops) :
      Fine who v (.back :: ops)
  | idle {v : View} {ops : List Op} (h : Fine who v ops) (hwait : Fine who v (.intrOn :: .wfi :: ops)) : Fine who v (.idle :: ops)
  | wfi {v : View} {ops : List Op} (h : Fine who v ops) : Fine who v (.wfi :: ops)
  | iret {v : View} {ops : List Op} (hquiet : v.Quiet who) (h : Fine who { v with intr := true } ops) : Fine who v (.iret :: ops)
  | setIntr {v : View} {i : Fin nproc} {b : Bool} {ops : List Op} (hwho : who = some i) (hquiet : v.Quiet who)
      (h : Fine who { v with intr := b, wants := some b } ops) : Fine who v (.setIntr i b :: ops)
  | tryLock {v : View} {i : Fin nproc} {L : Nat} {ops : List Op} (hwho : who = some i) (hlk : v.held = {.sleep L})
      (htaking : v.taking = none) (hnoff : v.noff = 1) (hintr : v.intr = false) (hmoved : v.moved = none) (hproc : v.proc = some i) (h : Fine who v ops) :
      Fine who v (.tryLock i L :: ops)
  | setPid {v : View} {i : Fin nproc} {L : Nat} {ops : List Op} (hlk : .sleep L ∈ v.held) (h : Fine who v ops) :
      Fine who v (.setPid i L :: ops)
  | dropLock {v : View} {L : Nat} {ops : List Op} (hlk : .sleep L ∈ v.held) (hmoved : v.moved = none)
      (hwakes : ∀ i, who ≠ some i → .wake i (.sleep L) ∈ ops) (h : Fine who v ops) : Fine who v (.dropLock L :: ops)

namespace View

variable {v : View} {lk : Lock} {who : Option (Fin nproc)}

/-- The interrupts themselves do not matter for it. -/
lemma Quiet.congr {v' : View} (h : v.Quiet who) (hheld : v'.held = v.held) (hnoff : v'.noff = v.noff) (hmoved : v'.moved = v.moved)
    (htaking : v'.taking = v.taking) (hproc : v'.proc = v.proc) : v'.Quiet who :=
  ⟨hheld.trans h.held, hnoff.trans h.noff, hmoved.trans h.moved, htaking.trans h.taking, hproc.trans h.proc⟩

lemma seen_of_ne (h : v.noff ≠ 0) : v.seen = v := by
  simp only [seen, if_neg h]

lemma Steady.pop_push (h : v.Steady) : (v.off.push v.intr).pop = v.seen := by
  by_cases h0 : v.noff = 0
  · simp [pop, push, View.off, View.seen, h0]
  · have hne : v.noff + 1 ≠ 1 := by omega
    simp [pop, push, View.off, View.seen, h0, h.off h0]

lemma Steady.released_acquired (h : v.Steady) (hlk : lk ∉ v.held) : (v.acquired lk).released lk = v.seen := by
  have hpop := h.pop_push
  have hheld : (v.acquired lk).held.erase lk = v.held := Finset.erase_insert hlk
  rw [released, hheld, ← hpop]
  rfl

lemma Steady.acquired (h : v.Steady) (lk : Lock) : (v.acquired lk).Steady := by
  have hnonneg := h.nonneg
  refine ⟨?_, fun h0 => ?_, fun _ => rfl, h.taking⟩
  · change 0 ≤ v.noff + 1
    omega
  · change v.noff + 1 = 0 at h0
    omega

lemma Calm.steady (h : v.Calm who) : v.Steady := by
  have hnoff := h.noff
  refine ⟨by omega, fun h0 => ?_, fun hne => ?_, h.taking⟩
  · have hcard : v.held.card = 0 := by omega
    exact ⟨Finset.card_eq_zero.mp hcard, h.moved⟩
  · apply h.off
    rintro hempty
    rw [hempty] at hnoff
    exact hne hnoff

/-- No lock is held. -/
lemma calm_of_free (hlk : v.held = ∅) (htaking : v.taking = none) (hnoff : v.noff = 0) (hmoved : v.moved = none) (hproc : v.proc = who)
    (hwants : ∀ b, v.wants = some b → v.intr = b) (hwho : who = none → v.wants = none) : v.Calm who := by
  refine ⟨by simp [hlk], htaking, ?_, fun hne => absurd hlk hne, hmoved, hproc, fun _ => hwants, fun hne => absurd hlk hne,
    fun hnone => ⟨hlk, hwho hnone⟩⟩
  rw [hnoff, hlk]
  rfl

lemma calm_idle : idle.Calm none := calm_of_free rfl rfl rfl rfl rfl (fun b hb => by cases hb) fun _ => rfl

lemma Calm.noff_eq (h : v.Calm who) (hlk : v.held = ∅) : v.noff = 0 := by
  rw [h.noff, hlk]
  rfl

end View

/-- `wakeup` comes to every other process. -/
lemma wake_mem_wakeup {who : Option (Fin nproc)} {i : Fin nproc} {ch : Chan} (hwho : who ≠ some i) : .wake i ch ∈ wakeup who ch := by
  rw [wakeup, List.mem_flatMap]
  refine ⟨i, List.mem_finRange i, List.mem_append_right _ ?_⟩
  rw [if_neg hwho]
  simp

namespace Fine

variable {who : Option (Fin nproc)} {v : View} {ops : List Op} {lk : Lock} {i : Fin nproc} {st : ProcState} {ch : Chan}

/-- While no lock is held, `intena` does not matter. -/
lemma intena (h : Fine who v ops) (h0 : v.noff = 0) (e : Bool) : Fine who { v with intena := e } ops := by
  induction h with
  | nil h =>
    refine .nil ⟨h.plain, h.taking, h.noff, h.off, h.moved, h.proc, h.intr, fun hne => ?_, h.scheduler⟩
    exact absurd (h.steady.quiet h0).1 hne
  | intrGet _ ih => exact .intrGet (ih h0)
  | intrOff _ ih => exact .intrOff (ih h0)
  | intrOn hquiet hwho _ ih => exact .intrOn (hquiet.congr rfl rfl rfl rfl rfl) hwho (ih h0)
  | @push v old ops hintr h ih =>
    refine .push hintr ?_
    have heq : View.push { v with intena := e } old = v.push old := by simp [View.push, h0]
    rw [heq]
    exact h
  | pop hintr hnoff => omega
  | checkFree hlk _ ih => exact .checkFree hlk (ih h0)
  | swap htaking hintr hmoved _ ih => exact .swap htaking hintr hmoved (ih h0)
  | mark htaking hmoved _ ih => exact .mark htaking hmoved (ih h0)
  | checkHeld hlk _ ih => exact .checkHeld hlk (ih h0)
  | unmark hlk htaking hintr hmoved _ ih => exact .unmark hlk htaking hintr hmoved (ih h0)
  | unlock htaking hmoved _ ih => exact .unlock htaking hmoved (ih h0)
  | self hproc _ ih => exact .self hproc (ih h0)
  | setChan hwho hlk hmoved _ ih => exact .setChan hwho hlk hmoved (ih h0)
  | setState hwho hlk hintr hmoved hst _ ih => exact .setState hwho hlk hintr hmoved hst (ih h0)
  | schedCheck hwho hlk hnoff => omega
  | saveIntena h _ =>
    cases h with
    | swtchOut hwho hlk htaking hnoff => omega
  | swtchOut hwho hlk htaking hnoff => omega
  | restore h => exact .restore h
  | wake hwho hlk hmoved _ ih => exact .wake hwho hlk hmoved (ih h0)
  | kill hlk hmoved _ ih => exact .kill hlk hmoved (ih h0)
  | spawn hlk hmoved _ ih => exact .spawn hlk hmoved (ih h0)
  | reap hlk hmoved _ ih => exact .reap hlk hmoved (ih h0)
  | setPriority hlk _ ih => exact .setPriority hlk (ih h0)
  | clearFound _ ih => exact .clearFound (ih h0)
  | tryRun hwho hlk hnoff => omega
  | swtchIn hwho hlk htaking hnoff => omega
  | back hwho hmoved _ ih => exact .back hwho hmoved (ih h0)
  | idle _ _ ih ih' => exact .idle (ih h0) (ih' h0)
  | wfi _ ih => exact .wfi (ih h0)
  | dump _ ih => exact .dump (ih h0)
  | iret hquiet _ ih => exact .iret (hquiet.congr rfl rfl rfl rfl rfl) (ih h0)
  | setIntr hwho hquiet _ ih => exact .setIntr hwho (hquiet.congr rfl rfl rfl rfl rfl) (ih h0)
  | tryLock hwho hlk htaking hnoff => omega
  | setPid hlk _ ih => exact .setPid hlk (ih h0)
  | dropLock hlk hmoved hwakes _ ih => exact .dropLock hlk hmoved hwakes (ih h0)

lemma seen (h : Fine who v ops) : Fine who v.seen ops := by
  by_cases h0 : v.noff = 0
  · exact h.intena h0 _
  · rwa [View.seen_of_ne h0]

/-! ### The functions -/

lemma acquire (hs : v.Steady) (hmoved : v.moved = none) (hlk : lk ∉ v.held) (h : Fine who (v.acquired lk) ops) :
    Fine who v (Smp.acquire lk ++ ops) := by
  refine .intrGet (.intrOff (.push rfl (.checkFree hlk (.swap hs.taking rfl hmoved (.mark rfl hmoved ?_)))))
  have heq : { v.off.push v.intr with held := insert lk v.held, taking := none } = v.acquired lk := by
    rw [← hs.taking]
    rfl
  exact heq ▸ h

lemma release (hs : v.Steady) (hlk : lk ∈ v.held) (hnoff : 1 ≤ v.noff)
    (hquiet : v.noff = 1 → v.held.erase lk = ∅ ∧ v.moved = none ∧ v.proc = who)
    (hmoved : ∀ st, v.moved = some st → ∃ i, who = some i ∧ lk ≠ .proc i)
    (h : Fine who (v.released lk) ops) : Fine who v (Smp.release lk ++ ops) := by
  have hintr := hs.off (by omega)
  refine .checkHeld hlk (.unmark hlk hs.taking hintr hmoved (.unlock rfl (fun st hst => ?_) (.pop hintr hnoff (fun h1 => ⟨?_, ?_, rfl, ?_⟩) ?_)))
  · exact (hmoved st hst).imp fun i hi => hi.1
  · exact (hquiet h1).1
  · exact (hquiet h1).2.1
  · exact (hquiet h1).2.2
  · have heq : View.pop { v with held := v.held.erase lk, taking := none } = v.released lk := by
      rw [← hs.taking]
      rfl
    exact heq ▸ h

lemma myproc (hs : v.Steady) (hproc : v.proc = who) (h : Fine who v ops) : Fine who v (Smp.myproc who ++ ops) := by
  have hnonneg := hs.nonneg
  refine .intrGet (.intrOff (.push rfl (.self hproc (.pop rfl ?_ ?_ ?_))))
  · change 1 ≤ v.noff + 1
    omega
  · intro h1
    change v.noff + 1 = 1 at h1
    obtain ⟨hlk, hmoved⟩ := hs.quiet (by omega)
    exact ⟨hlk, hmoved, hs.taking, hproc⟩
  · rw [hs.pop_push]
    exact h.seen

/-- A critical section in which nothing happens that the CPU would notice. -/
lemma locked {body : List Op} (hs : v.Steady) (hlk : lk ∉ v.held) (hproc : v.proc = who) (hmoved : v.moved = none)
    (hbody : ∀ ops, Fine who (v.acquired lk) ops → Fine who (v.acquired lk) (body ++ ops)) (h : Fine who v ops) :
    Fine who v (Smp.acquire lk ++ body ++ Smp.release lk ++ ops) := by
  have hnonneg := hs.nonneg
  rw [List.append_assoc, List.append_assoc]
  apply acquire hs hmoved hlk
  apply hbody
  refine release (hs.acquired _) (Finset.mem_insert_self _ _) ?_ ?_ ?_ ?_
  · change 1 ≤ v.noff + 1
    omega
  · intro h1
    change v.noff + 1 = 1 at h1
    have hheld : (v.acquired lk).held.erase lk = v.held := Finset.erase_insert hlk
    rw [hheld]
    obtain ⟨hempty, hnone⟩ := hs.quiet (by omega)
    exact ⟨hempty, hnone, hproc⟩
  · intro st hst
    change v.moved = some st at hst
    rw [hmoved] at hst
    cases hst
  · rw [hs.released_acquired hlk]
    exact h.seen

lemma wakeups (hs : v.Steady) (hproc : v.proc = who) (hmoved : v.moved = none) (hlk : ∀ j, who ≠ some j → .proc j ∉ v.held)
    (h : Fine who v ops) (l : List (Fin nproc)) :
    Fine who v ((l.flatMap fun j => Smp.myproc who ++ if who = some j then [] else
      Smp.acquire (.proc j) ++ [.wake j ch] ++ Smp.release (.proc j)) ++ ops) := by
  induction l with
  | nil => exact h
  | cons j l ih =>
    rw [List.flatMap_cons, List.append_assoc, List.append_assoc]
    apply myproc hs hproc
    split
    · exact ih
    · next hwho =>
      refine locked hs (hlk j hwho) hproc hmoved (fun ops hops => ?_) ih
      exact .wake hwho (Finset.mem_insert_self _ _) hmoved hops

lemma wakeup (hs : v.Steady) (hproc : v.proc = who) (hmoved : v.moved = none) (hlk : ∀ j, who ≠ some j → .proc j ∉ v.held)
    (h : Fine who v ops) : Fine who v (Smp.wakeup who ch ++ ops) := wakeups hs hproc hmoved hlk h _

/-- The process holds its lock only, and has given up the CPU. -/
lemma sched (hs : v.Steady) (hlk : v.held = {.proc i}) (hnoff : v.noff = 1) (hmoved : v.moved = some st)
    (hst : st = .RUNNABLE ∨ st = .SLEEPING ∨ st = .ZOMBIE) (hproc : v.proc = some i)
    (hend : st = .ZOMBIE → ∀ j ch, .wake j ch ∉ ops) (h : st ≠ .ZOMBIE → Fine (some i) { v with moved := none } ops) :
    Fine (some i) v (Smp.sched i ++ ops) := by
  have hintr := hs.off (by omega)
  have htaking := hs.taking
  have hne : st ≠ .RUNNING := by
    rintro rfl
    simp at hst
  have hmem : Lock.proc i ∈ v.held := by simp [hlk]
  rw [Smp.sched, List.append_assoc]
  apply myproc hs hproc
  refine .schedCheck rfl hmem hnoff hintr hmoved hne (.saveIntena ?_)
  refine .swtchOut rfl hlk htaking hnoff hintr hmoved hst (fun hzombie j ch => ?_) fun hzombie e => .restore ?_
  · simpa using hend hzombie j ch
  have heq : { resumed i v.wants e with intena := v.intena } = { v with moved := none } := by
    rw [resumed, ← hlk, ← htaking, ← hnoff, ← hintr, ← hproc]
  rw [heq]
  exact h hzombie

lemma yield (hs : v.Steady) (hnoff : v.noff = 0) (hproc : v.proc = some i) (h : Fine (some i) v ops) :
    Fine (some i) v (Smp.yield i ++ ops) := by
  obtain ⟨hlk, hmoved⟩ := hs.quiet hnoff
  have hnot : Lock.proc i ∉ v.held := by simp [hlk]
  simp only [Smp.yield, List.append_assoc]
  apply myproc hs hproc
  apply acquire hs hmoved hnot
  have hheld : (v.acquired (.proc i)).held = {.proc i} := by
    change insert _ v.held = _
    rw [hlk]
    rfl
  have hone : (v.acquired (.proc i)).noff = 1 := by
    change v.noff + 1 = 1
    omega
  have hs' : View.Steady { v.acquired (.proc i) with moved := some .RUNNABLE } :=
    ⟨hone.ge.trans' zero_le_one, fun h0 => absurd (hone.symm.trans h0) one_ne_zero, fun _ => rfl, hs.taking⟩
  have hs'' : View.Steady { v.acquired (.proc i) with moved := none } :=
    ⟨hone.ge.trans' zero_le_one, fun h0 => absurd (hone.symm.trans h0) one_ne_zero, fun _ => rfl, hs.taking⟩
  refine .setState rfl (Finset.mem_insert_self _ _) rfl hmoved (Or.inl rfl) ?_
  refine sched hs' hheld hone rfl (Or.inl rfl) hproc (fun hzombie => by cases hzombie) fun _ => ?_
  refine release hs'' (Finset.mem_insert_self _ _) hone.ge (fun _ => ⟨?_, rfl, hproc⟩) (fun st hst => by cases hst) ?_
  · rw [hheld]
    simp
  · have heq : View.released { v.acquired (.proc i) with moved := none } (.proc i) = v.seen := by
      rw [← hs.released_acquired hnot]
      rw [← hmoved]
      rfl
    rw [heq]
    exact h.seen

/-- The condition lock, and only it, is held before and after. -/
lemma sleep (hs : v.Steady) (hlk : v.held = {lk}) (hnot : lk ≠ .proc i) (hnoff : v.noff = 1) (hmoved : v.moved = none)
    (hproc : v.proc = some i) (h : Fine (some i) v ops) : Fine (some i) v (Smp.sleep i ch lk ++ ops) := by
  have hintr := hs.off (by omega)
  have htaking := hs.taking
  have hnew : Lock.proc i ∉ v.held := by
    rw [hlk, Finset.mem_singleton]
    exact hnot.symm
  have htwo : (v.acquired (.proc i)).noff = 2 := by
    change v.noff + 1 = 2
    omega
  simp only [Smp.sleep, List.append_assoc]
  apply myproc hs hproc
  apply acquire hs hmoved hnew
  refine release (hs.acquired _) ?_ (one_le_two.trans htwo.ge) ?_ ?_ ?_
  · apply Finset.mem_insert_of_mem
    simp [hlk]
  · intro h1
    exact absurd (htwo.symm.trans h1) (by decide)
  · intro st hst
    change v.moved = some st at hst
    rw [hmoved] at hst
    cases hst
  obtain ⟨u, hu⟩ : ∃ u, u = (v.acquired (.proc i)).released lk := ⟨_, rfl⟩
  have huheld : u.held = {.proc i} := by
    rw [hu]
    change (insert (Lock.proc i) v.held).erase lk = _
    rw [hlk, Finset.erase_insert_of_ne hnot.symm]
    simp
  have hunoff : u.noff = 1 := by
    rw [hu]
    change v.noff + 1 - 1 = 1
    omega
  have huintr : u.intr = false := by
    rw [hu]
    change (decide (v.noff + 1 = 1) && _) = false
    rw [hnoff]
    rfl
  have huintena : u.intena = v.intena := by
    rw [hu]
    change (if v.noff = 0 then v.intr else v.intena) = v.intena
    rw [if_neg (by omega)]
  have hutaking : u.taking = none := hu ▸ htaking
  have humoved : u.moved = none := hu ▸ hmoved
  have hproc' : u.proc = some i := hu ▸ hproc
  have huwants : u.wants = v.wants := hu ▸ rfl
  rw [← hu]
  have hmem : Lock.proc i ∈ u.held := by simp [huheld]
  have hs' : ∀ moved, View.Steady { u with moved := moved } := by
    intro moved
    exact ⟨hunoff.ge.trans' zero_le_one, fun h0 => absurd (hunoff.symm.trans h0) one_ne_zero, fun _ => huintr, hutaking⟩
  refine .setChan rfl hmem humoved (.setState rfl hmem huintr humoved (Or.inr (Or.inl rfl)) ?_)
  refine sched (hs' _) huheld hunoff rfl (Or.inr (Or.inl rfl)) hproc' (fun hzombie => by cases hzombie) fun _ => ?_
  refine .setChan rfl hmem rfl (release (hs' _) hmem hunoff.ge (fun _ => ⟨?_, rfl, hproc'⟩) (fun st hst => by cases hst) ?_)
  · rw [huheld]
    simp
  have hempty : u.held.erase (.proc i) = ∅ := by
    rw [huheld]
    simp
  refine acquire ⟨?_, fun _ => ⟨hempty, rfl⟩, fun h0 => ?_, hutaking⟩ rfl ?_ ?_
  · change 0 ≤ u.noff - 1
    omega
  · change u.noff - 1 ≠ 0 at h0
    omega
  · change lk ∉ u.held.erase (.proc i)
    rw [hempty]
    simp
  · have heq : (View.released { u with moved := none } (.proc i)).acquired lk = v := by
      simp [View.released, View.acquired, View.pop, View.push, View.off, hempty, hunoff, huintena, hproc', huwants, hutaking, ← hlk, ← hnoff,
        ← hintr, ← hmoved, ← hproc, ← htaking]
    rw [heq]
    exact h

lemma forkret (e : Bool) : Fine (some i) (resumed i none e) (Smp.forkret i) := by
  have hs : (resumed i none e).Steady := ⟨zero_le_one, fun h0 => absurd h0 one_ne_zero, fun _ => rfl, rfl⟩
  have hlk : Lock.proc i ∈ (resumed i none e).held := Finset.mem_singleton_self _
  have hempty : (resumed i none e).held.erase (.proc i) = ∅ := by
    change ({Lock.proc i} : Finset Lock).erase _ = ∅
    simp
  rw [Smp.forkret, ← List.append_nil (Smp.release _)]
  refine myproc hs rfl (release hs hlk le_rfl (fun _ => ⟨hempty, rfl, rfl⟩) (fun st hst => by cases hst) (.nil ?_))
  refine View.calm_of_free hempty rfl rfl rfl rfl ?_ ?_
  · intro b hb
    cases hb
  · intro hnone
    cases hnone

/-- The process does not come back. -/
lemma kexit (hs : v.Steady) (hlk : v.held = {lk}) (hnot : lk ≠ .proc i) (hnoff : v.noff = 1) (hmoved : v.moved = none) (hproc : v.proc = some i) :
    Fine (some i) v (Smp.kexit i lk) := by
  have hnew : Lock.proc i ∉ v.held := by
    rw [hlk, Finset.mem_singleton]
    exact hnot.symm
  have hheld : (v.acquired (.proc i)).held = {.proc i, lk} := by
    change insert _ v.held = _
    rw [hlk]
  have htwo : (v.acquired (.proc i)).noff = 2 := by
    change v.noff + 1 = 2
    omega
  simp only [Smp.kexit, List.append_assoc]
  have hs' : View.Steady { v.acquired (.proc i) with moved := some .ZOMBIE } :=
    ⟨htwo.ge.trans' zero_le_two, fun h0 => absurd (htwo.symm.trans h0) two_ne_zero, fun _ => rfl, hs.taking⟩
  apply acquire hs hmoved hnew
  refine .setState rfl (Finset.mem_insert_self _ _) rfl hmoved (Or.inr (Or.inr rfl)) ?_
  refine release hs' ?_ (one_le_two.trans htwo.ge) ?_ (fun _ _ => ⟨i, rfl, hnot⟩) ?_
  · rw [hheld]
    simp
  · intro h1
    exact absurd (htwo.symm.trans h1) (by decide)
  have hone : (v.acquired (.proc i)).noff - 1 = 1 := by omega
  have hoff : (decide ((v.acquired (.proc i)).noff = 1) && (v.acquired (.proc i)).intena) = false := by
    rw [htwo]
    rfl
  refine sched ⟨hone.ge.trans' zero_le_one, fun h0 => absurd (hone.symm.trans h0) one_ne_zero, fun _ => hoff, hs.taking⟩ ?_ hone rfl
    (Or.inr (Or.inr rfl)) hproc (fun _ j ch => by simp) fun h => absurd rfl h
  · change (v.acquired (.proc i)).held.erase lk = _
    rw [hheld, Finset.erase_insert_of_ne hnot.symm]
    simp

/-- Process by process, the scheduler looks and perhaps switches. -/
lemma visits {l : List (Int × Fin nproc)} (h : v.Calm none) :
    Fine none v (l.flatMap (fun x => Smp.acquire (.proc x.2) ++ [.tryRun x.2 x.1] ++ Smp.release (.proc x.2)) ++ [.idle]) := by
  induction l generalizing v with
  | nil =>
    obtain ⟨hempty, hwants⟩ := h.scheduler rfl
    refine .idle (.nil h) (.intrOn ⟨hempty, h.noff_eq hempty, h.moved, h.taking, h.proc⟩ rfl (.wfi (.nil ?_)))
    refine View.calm_of_free hempty h.taking (h.noff_eq hempty) h.moved h.proc (fun b hb => ?_) fun _ => hwants
    exact absurd (hwants.symm.trans hb) (by simp)
  | cons x l ih =>
    obtain ⟨hempty, hwants⟩ := h.scheduler rfl
    have hnoff := h.noff_eq hempty
    have hnew : Lock.proc x.2 ∉ v.held := by simp [hempty]
    have hheld : (v.acquired (.proc x.2)).held = {.proc x.2} := by
      change insert _ v.held = _
      rw [hempty]
      rfl
    have hone : (v.acquired (.proc x.2)).noff = 1 := by
      change v.noff + 1 = 1
      omega
    rw [List.flatMap_cons, List.append_assoc, List.append_assoc, List.append_assoc]
    refine acquire h.steady h.moved hnew (.tryRun rfl hheld hone rfl h.moved ?_ ?_)
    · refine release (h.steady.acquired _) (Finset.mem_insert_self _ _) hone.ge (fun _ => ⟨?_, h.moved, h.proc⟩) (fun st hst => ?_) ?_
      · rw [hheld]
        simp
      · exact absurd (h.moved.symm.trans hst) (by simp)
      · rw [h.steady.released_acquired hnew]
        exact (ih h).seen
    · refine .swtchIn rfl hheld h.taking hone rfl rfl rfl fun e => .back rfl rfl ?_
      have hgone : ({Lock.proc x.2} : Finset Lock).erase (.proc x.2) = ∅ := by simp
      have hs : View.Steady { returned x.2 e with proc := none } := ⟨zero_le_one, fun h0 => absurd h0 one_ne_zero, fun _ => rfl, rfl⟩
      refine release hs (Finset.mem_singleton_self _) le_rfl (fun _ => ⟨hgone, rfl, rfl⟩) (fun st hst => by cases hst) (ih ?_)
      refine View.calm_of_free hgone rfl rfl rfl rfl ?_ fun _ => rfl
      intro b hb
      cases hb

lemma scheduler (h : v.Calm none) : Fine none v Smp.scheduler := by
  obtain ⟨hempty, hwants⟩ := h.scheduler rfl
  refine .intrOn ⟨hempty, h.noff_eq hempty, h.moved, h.taking, h.proc⟩ rfl (.intrOff (.clearFound (visits ?_)))
  refine View.calm_of_free hempty h.taking (h.noff_eq hempty) h.moved h.proc (fun b hb => ?_) fun _ => hwants
  exact absurd (hwants.symm.trans hb) (by simp)

/-! ### Interrupts -/

lemma clockintr {c : Fin ncpu} (hs : v.Steady) (hlk : v.held = ∅) (hproc : v.proc = who) (hmoved : v.moved = none) (h : Fine who v ops) :
    Fine who v (Smp.clockintr c who ++ ops) := by
  unfold Smp.clockintr
  split
  · refine locked hs (by simp [hlk]) hproc hmoved (fun ops hops => ?_) h
    refine wakeup (hs.acquired _) hproc hmoved (fun j _ => ?_) hops
    change Lock.proc j ∉ insert tickslock v.held
    simp [hlk, tickslock]
  · exact h

lemma procdump (h : Fine who v ops) : Fine who v (Smp.procdump ++ ops) := by
  unfold Smp.procdump
  induction List.finRange nproc with
  | nil => exact h
  | cons j l ih => exact .dump ih

lemma deviceintr (hs : v.Steady) (hlk : v.held = ∅) (hproc : v.proc = who) (hmoved : v.moved = none) (h : Fine who v ops)
    (l : List (Nat × Bool × List Nat)) : Fine who v (Smp.deviceintr who l ++ ops) := by
  induction l with
  | nil => exact h
  | cons x l ih =>
    rw [Smp.deviceintr, List.flatMap_cons, List.append_assoc]
    refine locked hs (by simp [hlk]) hproc hmoved (fun ops hops => ?_) ih
    have hchans : ∀ l : List Nat, Fine who (v.acquired (.other x.1)) (l.flatMap (fun n => Smp.wakeup who (.other n)) ++ ops) := by
      intro l
      induction l with
      | nil => exact hops
      | cons n l ih' =>
        rw [List.flatMap_cons, List.append_assoc]
        refine wakeup (hs.acquired _) hproc hmoved (fun j _ => ?_) ih'
        change Lock.proc j ∉ insert (Lock.other x.1) v.held
        simp [hlk]
    rw [List.append_assoc]
    split
    · exact procdump (hchans x.2.2)
    · exact hchans x.2.2

/-- The code that has been interrupted goes on as if nothing had been. -/
lemma kerneltrap {c : Fin ncpu} {timer : Bool} {l : List (Nat × Bool × List Nat)}
    (hquiet : v.Quiet who) (hintr : v.intr = true)
    (h : Fine who v ops) : Fine who v.off (Smp.kerneltrap c who timer l ++ ops) := by
  obtain ⟨hlk, hnoff, hmoved, htaking, hproc⟩ := hquiet
  have hs : v.off.Steady := ⟨hnoff.ge, fun _ => ⟨hlk, hmoved⟩, fun h0 => absurd hnoff h0, htaking⟩
  have hret : Fine who v.off ([.iret] ++ ops) := by
    refine .iret ⟨hlk, hnoff, hmoved, htaking, hproc⟩ ?_
    have heq : { v.off with intr := true } = v := by
      rw [← hintr]
      rfl
    rw [heq]
    exact h
  rw [Smp.kerneltrap, List.append_assoc]
  split
  · rw [List.append_assoc, List.append_assoc]
    refine clockintr hs hlk hproc hmoved (myproc hs hproc ?_)
    cases who with
    | none => exact hret
    | some i => exact yield hs hnoff hproc hret
  · exact deviceintr hs hlk hproc hmoved hret l

/-! ### Calls -/

lemma calm_acquired (h : v.Calm (some i)) (hlk : lk ∉ v.held) (hplain : lk.Plain) : (v.acquired lk).Calm (some i) := by
  have hheld : (v.acquired lk).held = insert lk v.held := rfl
  have hne : (v.acquired lk).held ≠ ∅ := Finset.insert_ne_empty _ _
  refine ⟨fun lk' hlk' => ?_, h.taking, ?_, fun _ => rfl, h.moved, h.proc, fun hempty => absurd hempty hne, fun _ b hb => ?_, fun hnone => by cases hnone⟩
  · rw [hheld, Finset.mem_insert] at hlk'
    rcases hlk' with rfl | hold
    · exact hplain
    · exact h.plain lk' hold
  · rw [hheld, Finset.card_insert_of_notMem hlk]
    change v.noff + 1 = _
    rw [h.noff]
    norm_num
  · change (if v.noff = 0 then v.intr else v.intena) = b
    have hnoff := h.noff
    split
    · next h0 => exact h.intr (h.steady.quiet h0).1 b hb
    · next h0 =>
      refine h.intena (fun hempty => h0 ?_) b hb
      rw [hnoff, hempty]
      rfl

lemma calm_released (h : v.Calm (some i)) (hlk : lk ∈ v.held) : (v.released lk).Calm (some i) := by
  have hheld : (v.released lk).held = v.held.erase lk := rfl
  have hcard := Finset.card_erase_add_one hlk
  have hnoff := h.noff
  have hne : v.held ≠ ∅ := Finset.ne_empty_of_mem hlk
  have hintr : (v.released lk).intr = (decide (v.noff = 1) && v.intena) := rfl
  refine ⟨fun lk' hlk' => h.plain lk' (Finset.mem_of_mem_erase hlk'), h.taking, ?_, fun hsome => ?_, h.moved, h.proc, fun hempty b hb => ?_,
    fun _ b hb => h.intena hne b hb, fun hnone => by cases hnone⟩
  · rw [hheld]
    change v.noff - 1 = _
    omega
  · rw [hintr]
    have hpos := Finset.card_pos.mpr (Finset.nonempty_iff_ne_empty.mpr hsome)
    rw [hheld] at hpos
    have hmore : v.noff ≠ 1 := by omega
    simp [hmore]
  · rw [hintr, h.intena hne b hb]
    rw [hheld] at hempty
    rw [hempty] at hcard
    have hone : v.noff = 1 := by
      rw [hnoff, ← hcard]
      rfl
    simp [hone]

/-- Calls that callers may make. -/
lemma call (h : v.Calm (some i)) (call : Call) (hallowed : call.Allowed i (· ∈ v.held)) : Fine (some i) v (call.code i) := by
  have hs := h.steady
  have hcard := h.noff
  rw [← List.append_nil (call.code i)]
  cases call with
  | acquire lk => exact acquire hs h.moved hallowed.1 (.nil (calm_acquired h hallowed.1 hallowed.2))
  | release lk =>
    have hcount := Finset.card_erase_add_one hallowed
    refine release hs hallowed (by omega) (fun h1 => ⟨?_, h.moved, h.proc⟩) (fun st hst => ?_)
      (.nil (calm_released h hallowed))
    · apply Finset.card_eq_zero.mp
      omega
    · exact absurd (h.moved.symm.trans hst) (by simp)
  | sleep ch lk =>
    obtain ⟨honly, hnot, -⟩ := hallowed
    have hlk : v.held = {lk} := by
      ext lk'
      exact (honly lk').trans Finset.mem_singleton.symm
    have hone : v.noff = 1 := by
      rw [hcard, hlk]
      rfl
    exact sleep hs hlk hnot hone h.moved h.proc (.nil h)
  | wakeup ch =>
    exact wakeup hs h.proc h.moved (fun j hj => hallowed.1 j fun heq => hj (heq ▸ rfl)) (.nil h)
  | yield =>
    have hlk : v.held = ∅ := Finset.eq_empty_of_forall_notMem hallowed
    exact yield hs (h.noff_eq hlk) h.proc (.nil h)
  | exit lk =>
    obtain ⟨honly, hnot⟩ := hallowed
    have hlk : v.held = {lk} := by
      ext lk'
      exact (honly lk').trans Finset.mem_singleton.symm
    have hone : v.noff = 1 := by
      rw [hcard, hlk]
      rfl
    rw [List.append_nil]
    exact kexit hs hlk hnot hone h.moved h.proc
  | kill j => exact locked hs hallowed h.proc h.moved (fun ops hops => .kill (Finset.mem_insert_self _ _) h.moved hops) (.nil h)
  | fork j => exact locked hs hallowed h.proc h.moved (fun ops hops => .spawn (Finset.mem_insert_self _ _) h.moved hops) (.nil h)
  | reap j => exact locked hs hallowed h.proc h.moved (fun ops hops => .reap (Finset.mem_insert_self _ _) h.moved hops) (.nil h)
  | nice priority => exact locked hs hallowed h.proc h.moved (fun ops hops => .setPriority (Finset.mem_insert_self _ _) hops) (.nil h)
  | intr b =>
    have hlk : v.held = ∅ := Finset.eq_empty_of_forall_notMem hallowed
    refine .setIntr rfl ⟨hlk, h.noff_eq hlk, h.moved, h.taking, h.proc⟩ (.nil ?_)
    refine View.calm_of_free hlk h.taking (h.noff_eq hlk) h.moved h.proc (fun b' hb => Option.some.inj hb) ?_
    intro hnone
    cases hnone
  | acquiresleep L =>
    have hlk : v.held = ∅ := Finset.eq_empty_of_forall_notMem hallowed
    have hheld : (v.acquired (.sleep L)).held = {.sleep L} := by
      change insert _ v.held = _
      rw [hlk]
      rfl
    have hone : (v.acquired (.sleep L)).noff = 1 := by
      change v.noff + 1 = 1
      rw [h.noff_eq hlk]
      rfl
    have hassoc : (Call.acquiresleep L).code i ++ [] =
        Smp.acquire (.sleep L) ++ ([.tryLock i L] ++ Smp.myproc (some i) ++ [.setPid i L]) ++ Smp.release (.sleep L) ++ [] := by
      simp only [Call.code, Smp.acquiresleep, List.append_assoc]
    rw [hassoc]
    refine locked hs (by simp [hlk]) h.proc h.moved (fun ops hops => ?_) (.nil h)
    rw [List.append_assoc, List.append_assoc]
    refine .tryLock rfl hheld h.taking hone rfl h.moved h.proc (myproc (hs.acquired _) h.proc ?_)
    exact .setPid (Finset.mem_insert_self _ _) hops
  | releasesleep L =>
    have hnew : Lock.sleep L ∉ v.held := fun hlk => h.plain _ hlk
    have hassoc : (Call.releasesleep L).code i ++ [] =
        Smp.acquire (.sleep L) ++ ([.dropLock L] ++ Smp.wakeup (some i) (.sleep L)) ++ Smp.release (.sleep L) ++ [] := by
      simp only [Call.code, Smp.releasesleep, List.append_assoc]
    rw [hassoc]
    refine locked hs hnew h.proc h.moved (fun ops hops => ?_) (.nil h)
    rw [List.append_assoc, List.singleton_append]
    refine .dropLock (Finset.mem_insert_self _ _) h.moved (fun j hj => List.mem_append_left _ (wake_mem_wakeup hj))
      (wakeup (hs.acquired _) h.proc h.moved (fun j hj => ?_) hops)
    change Lock.proc j ∉ insert (Lock.sleep L) v.held
    have hother := hallowed j fun heq => hj (heq ▸ rfl)
    simpa using hother

end Fine

end FogOS.Kernel.Smp
