import FogOS.Kernel.Proc

/-!
# Rounds of the scheduler

The outer loop of `scheduler` in `kernel/proc.c`, on one CPU. A round scans the process table four
times, with a threshold that goes down from 3 to 0. What a process does between the two calls of
`swtch` is any change of the table, in which it sets its own priority by `nice` only; a slot that is
used again keeps the priority it had.
-/

namespace FogOS.Kernel.Sched

/-- The CPU: the process table, `c->proc`, and the processes it has switched to so far, each with the
table it then found. -/
structure Cpu where
  table : State
  proc : Option (Fin nproc)
  switched : List (Fin nproc × State)

/-- `p->state == RUNNABLE && p->priority >= current`. -/
def eligible (s : State) (current : Int) (i : Fin nproc) : Bool :=
  (s.proc i).state = .RUNNABLE ∧ current ≤ (s.proc i).priority

/-- `p->state = RUNNING`. -/
def running (s : State) (i : Fin nproc) : State := s.setProc i { s.proc i with state := .RUNNING }

/-- `swtch(&c->context, &p->context)`: the process in `c->proc` runs until it comes back. `run k i` is
what the process in slot `i` does to the table when it is the `k`-th to be run. -/
def swtch (run : Nat → Fin nproc → State → State) (c : Cpu) : Cpu :=
  match c.proc with
  | some i =>
    { c with
      table := run c.switched.length i c.table
      switched := c.switched ++ [(i, c.table)] }
  | none => c

/-- The body of the two `for` loops, for one value of `current` and one slot. -/
def visit (run : Nat → Fin nproc → State → State) (c : Cpu) (v : Int × Fin nproc) : Cpu :=
  if eligible c.table v.1 v.2 then
    { swtch run { c with table := running c.table v.2, proc := some v.2 } with proc := none }
  else
    c

/-- The looks at the slots of a list. -/
def scan (run : Nat → Fin nproc → State → State) (l : List (Int × Fin nproc)) (c : Cpu) : Cpu :=
  l.foldl (visit run) c

/-- The two `for` loops: the slots in order, for each value of `current`. -/
def visits : List (Int × Fin nproc) :=
  [3, 2, 1, 0].flatMap fun current => (List.finRange nproc).map fun i => (current, i)

/-- The CPU after the first `n` looks of a round of the outer loop. -/
def round (run : Nat → Fin nproc → State → State) (n : Nat) (s : State) : Cpu :=
  scan run (visits.take n) ⟨s, none, []⟩

/-- How often the process in slot `i` has been run. -/
def runs (c : Cpu) (i : Fin nproc) : Nat := c.switched.countP fun r => r.1 = i

/-- The process in slot `i` is run: it is marked, switched to with the table so marked, and the table
is then what it has left. -/
structure Dispatches (run : Nat → Fin nproc → State → State) (i : Fin nproc) (c c' : Cpu) : Prop where
  marked : ((running c.table i).proc i).state = .RUNNING
  switched : c'.switched = c.switched ++ [(i, running c.table i)]
  table : c'.table = run c.switched.length i (running c.table i)

/-- The priorities are from 0 to 3. -/
def Ranged (s : State) : Prop := ∀ i, 0 ≤ (s.proc i).priority ∧ (s.proc i).priority ≤ 3

/-- The process in slot `i` changes the table. It may call `nice`; the priorities of other slots stay. -/
structure Returns (i : Fin nproc) (s s' : State) : Prop where
  own : (s'.proc i).priority = (s.proc i).priority ∨
    ∃ t n, (s'.proc i).priority = ((sysNice t i n).proc i).priority
  others : ∀ j, j ≠ i → (s'.proc j).priority = (s.proc j).priority

variable {run : Nat → Fin nproc → State → State} {s s' : State} {c : Cpu} {i : Fin nproc}
  {current : Int}

/-- `nice` clamps. -/
lemma sysNice_priority (t : State) (i : Fin nproc) (n : Int) :
    0 ≤ ((sysNice t i n).proc i).priority ∧ ((sysNice t i n).proc i).priority ≤ 3 := by
  unfold sysNice
  dsimp only
  rw [State.setProc_self]
  dsimp only
  split <;> split <;> omega

lemma Ranged.running (h : Ranged s) (i : Fin nproc) : Ranged (running s i) := by
  intro j
  unfold Sched.running
  by_cases hj : j = i
  · rw [hj, State.setProc_self]
    exact h i
  · rw [State.setProc_of_ne s hj]
    exact h j

/-- Whatever a process does, priorities stay in their range. -/
lemma Returns.ranged (hr : Returns i s s') (h : Ranged s) : Ranged s' := by
  intro j
  by_cases hj : j = i
  · subst hj
    rcases hr.own with hsame | ⟨t, n, hnice⟩
    · rw [hsame]
      exact h j
    · rw [hnice]
      exact sysNice_priority t j n
  · rw [hr.others j hj]
    exact h j

/-! ### One look -/

/-- Who is eligible is run. -/
lemma dispatches_visit (h : eligible c.table current i = true) :
    Dispatches run i c (visit run c (current, i)) := by
  unfold visit
  rw [if_pos h]
  refine ⟨?_, rfl, rfl⟩
  unfold running
  rw [State.setProc_self]

/-- Nothing happens otherwise. -/
lemma visit_of_not_eligible (h : eligible c.table current i = false) :
    visit run c (current, i) = c := by
  unfold visit
  exact if_neg (by simp [h])

lemma Dispatches.runs {c' : Cpu} {j : Fin nproc} (h : Dispatches run j c c') :
    runs c' i = runs c i + if j = i then 1 else 0 := by
  unfold Sched.runs
  rw [h.switched, List.countP_append, List.countP_singleton]
  simp only [decide_eq_true_eq]

variable (run) in
/-- A look runs the process in its slot at most, and it runs it if it is eligible. -/
lemma runs_visit (v : Int × Fin nproc) : runs (visit run c v) i =
    runs c i + if v.2 = i ∧ eligible c.table v.1 v.2 = true then 1 else 0 := by
  obtain ⟨current, j⟩ := v
  by_cases he : eligible c.table current j = true
  · rw [(dispatches_visit he).runs]
    simp only [he, and_true]
  · rw [visit_of_not_eligible (eq_false_of_ne_true he), if_neg (fun h => he h.2), Nat.add_zero]

variable (hrun : ∀ k i s, Returns i (running s i) (run k i (running s i)))

include hrun in
lemma ranged_visit (h : Ranged c.table) (v : Int × Fin nproc) : Ranged (visit run c v).table := by
  obtain ⟨current, j⟩ := v
  by_cases he : eligible c.table current j = true
  · rw [(dispatches_visit he).table]
    exact (hrun _ j c.table).ranged (h.running j)
  · rw [visit_of_not_eligible (eq_false_of_ne_true he)]
    exact h

/-! ### Many looks -/

include hrun in
/-- The priorities are in their range all the time. -/
lemma ranged_scan (l : List (Int × Fin nproc)) (h : Ranged c.table) :
    Ranged (scan run l c).table := by
  induction l generalizing c with
  | nil => exact h
  | cons v l ih => exact ih (ranged_visit hrun h v)

variable (run) in
/-- A process is run at the looks at its slot only. -/
lemma runs_scan_le (l : List (Int × Fin nproc)) :
    runs (scan run l c) i ≤ runs c i + (l.filter fun v => v.2 = i).length := by
  induction l generalizing c with
  | nil => exact le_rfl
  | cons v l ih =>
    have hfirst := runs_visit run (c := c) (i := i) v
    have hrest := ih (c := visit run c v)
    by_cases hv : v.2 = i
    · rw [List.filter_cons_of_pos (by simpa using hv), List.length_cons]
      rw [hfirst] at hrest
      change runs (scan run l (visit run c v)) i ≤ _
      split at hrest <;> omega
    · rw [List.filter_cons_of_neg (by simpa using hv)]
      rw [hfirst, if_neg (fun h => hv h.1)] at hrest
      exact hrest

/-- Nobody is forgotten who has been run. -/
lemma runs_le_scan (l : List (Int × Fin nproc)) : runs c i ≤ runs (scan run l c) i := by
  induction l generalizing c with
  | nil => exact le_rfl
  | cons v l ih =>
    have hfirst := runs_visit run (c := c) (i := i) v
    exact (Nat.le_of_add_right_le hfirst.ge).trans ih

variable (run) in
/-- A process that is runnable with the priority `k` at all looks at its slot is run at those whose
threshold is not above `k`. -/
lemma runs_scan_eq {k : Int} (l : List (Int × Fin nproc))
    (h : ∀ n v, l[n]? = some v → v.2 = i →
      (((scan run (l.take n) c).table).proc i).state = .RUNNABLE ∧
      (((scan run (l.take n) c).table).proc i).priority = k) :
    runs (scan run l c) i = runs c i + (l.filter fun v => v.2 = i).countP fun v => v.1 ≤ k := by
  induction l generalizing c with
  | nil => rfl
  | cons v l ih =>
    have hfirst := runs_visit run (c := c) (i := i) v
    have hrest := ih (c := visit run c v) fun n w hn hw => h (n + 1) w hn hw
    change runs (scan run l (visit run c v)) i = _
    rw [hrest, hfirst]
    by_cases hv : v.2 = i
    · obtain ⟨hstate, hprio⟩ := h 0 v rfl hv
      have hel : eligible c.table v.1 v.2 = decide (v.1 ≤ k) := by
        change (c.table.proc i).state = _ at hstate
        change (c.table.proc i).priority = _ at hprio
        unfold eligible
        rw [hv, hstate, hprio]
        simp
      rw [List.filter_cons_of_pos (by simpa using hv), List.countP_cons, hel]
      simp only [hv, true_and, decide_eq_true_eq]
      omega
    · rw [List.filter_cons_of_neg (by simpa using hv), if_neg (fun h => hv h.1)]
      rfl

/-! ### A round -/

/-- A pass looks at each slot once. -/
lemma filter_pass (current : Int) (i : Fin nproc) :
    ((List.finRange nproc).map fun j => (current, j)).filter (fun v => v.2 = i) = [(current, i)] := by
  have hone : (List.finRange nproc).filter (fun j => decide (j = i)) = [i] := by
    rw [List.filter_eq, List.count_eq_one_of_mem (List.nodup_finRange nproc) (List.mem_finRange i)]
    rfl
  rw [List.filter_map]
  exact congrArg (List.map fun j => (current, j)) hone

/-- A round looks at each slot four times. -/
lemma filter_visits (i : Fin nproc) :
    visits.filter (fun v => v.2 = i) = [(3, i), (2, i), (1, i), (0, i)] := by
  simp only [visits, List.flatMap_cons, List.flatMap_nil, List.filter_append, filter_pass,
    List.append_nil, List.cons_append, List.nil_append]

/-- The last look at a slot. -/
lemma last_visit (i : Fin nproc) : ∃ n : Nat, visits[n]? = some (0, i) := by
  have hmem : ((0 : Int), i) ∈ visits.filter (fun v => v.2 = i) := by
    rw [filter_visits]
    simp
  exact List.mem_iff_getElem?.mp (List.mem_of_mem_filter hmem)

lemma round_succ {n : Nat} {v : Int × Fin nproc} (hv : visits[n]? = some v) :
    round run (n + 1) s = visit run (round run n s) v := by
  unfold round scan
  rw [List.take_add_one, hv, Option.toList_some, List.foldl_append]
  rfl

/-- All looks of a round are the looks before one and those from it on. -/
lemma round_eq_scan (n : Nat) :
    round run visits.length s = scan run (visits.drop n) (round run n s) := by
  unfold round scan
  rw [List.take_length, ← List.foldl_append, List.take_append_drop]

include hrun in
lemma ranged_round (h : Ranged s) (n : Nat) : Ranged (round run n s).table :=
  ranged_scan hrun _ h

include hrun in
/-- In every round each look runs the process in the slot if it is runnable and its priority is not
below the threshold, and does nothing otherwise. So whoever is runnable when the last pass comes to its
slot is run; nobody is run more than four times; and a process that is runnable at all looks at its
slot and keeps the priority `k` is run `k + 1` times. -/
theorem round_fair (h : Ranged s) (i : Fin nproc) :
    (∀ n current j, visits[n]? = some (current, j) →
      if eligible (round run n s).table current j then
        Dispatches run j (round run n s) (round run (n + 1) s)
      else round run (n + 1) s = round run n s) ∧
    (∃ n, visits[n]? = some (0, i) ∧ (((round run n s).table.proc i).state = .RUNNABLE →
      Dispatches run i (round run n s) (round run (n + 1) s) ∧
      runs (round run n s) i < runs (round run visits.length s) i)) ∧
    runs (round run visits.length s) i ≤ 4 ∧
    ∀ k : Nat, (∀ n current, visits[n]? = some (current, i) →
      ((round run n s).table.proc i).state = .RUNNABLE ∧
      ((round run n s).table.proc i).priority = k) →
      runs (round run visits.length s) i = k + 1 := by
  have hlook : ∀ n current j, visits[n]? = some (current, j) →
      if eligible (round run n s).table current j then
        Dispatches run j (round run n s) (round run (n + 1) s)
      else round run (n + 1) s = round run n s := by
    intro n current j hn
    rw [round_succ hn]
    split
    · exact dispatches_visit (by assumption)
    · exact visit_of_not_eligible (eq_false_of_ne_true (by assumption))
  obtain ⟨last, hlast⟩ := last_visit i
  refine ⟨hlook, ⟨last, hlast, fun hrunnable => ?_⟩, ?_, fun k hk => ?_⟩
  · have hel : eligible (round run last s).table 0 i = true :=
      decide_eq_true ⟨hrunnable, (ranged_round hrun h last i).1⟩
    have hdisp := hlook last 0 i hlast
    rw [if_pos hel] at hdisp
    have hkept : runs (round run (last + 1) s) i ≤ runs (round run visits.length s) i := by
      rw [round_eq_scan (last + 1)]
      exact runs_le_scan _
    rw [hdisp.runs, if_pos rfl] at hkept
    exact ⟨hdisp, hkept⟩
  · have hle := runs_scan_le run (c := ⟨s, none, []⟩) (i := i) visits
    rw [filter_visits] at hle
    rw [round, List.take_length]
    exact hle
  · have hthree : k ≤ 3 := by
      have hrange := (ranged_round hrun h last i).2
      rw [(hk last 0 hlast).2] at hrange
      omega
    have heq := runs_scan_eq run (c := ⟨s, none, []⟩) (i := i) (k := k) visits
      fun n v hn hv => by
        obtain ⟨current, j⟩ := v
        subst hv
        exact hk n current hn
    rw [filter_visits] at heq
    rw [round, List.take_length, heq]
    interval_cases k <;> rfl

/-- `yield`, by a process that does nothing else. -/
def yields (_ : Nat) (i : Fin nproc) (s : State) : State :=
  s.setProc i { s.proc i with state := .RUNNABLE }

lemma returns_yields (k : Nat) (i : Fin nproc) (s : State) :
    Returns i (running s i) (yields k i (running s i)) := by
  refine ⟨Or.inl ?_, fun j hj => ?_⟩
  · unfold yields
    rw [State.setProc_self]
  · unfold yields
    rw [State.setProc_of_ne _ hj]

/-- Whoever is runnable stays so, with its priority. -/
lemma scan_yields (l : List (Int × Fin nproc)) (h : (c.table.proc i).state = .RUNNABLE) :
    ((scan yields l c).table.proc i).state = .RUNNABLE ∧
    ((scan yields l c).table.proc i).priority = (c.table.proc i).priority := by
  induction l generalizing c with
  | nil => exact ⟨h, rfl⟩
  | cons v l ih =>
    obtain ⟨current, j⟩ := v
    have hvisit : ((visit yields c (current, j)).table.proc i).state = .RUNNABLE ∧
        ((visit yields c (current, j)).table.proc i).priority = (c.table.proc i).priority := by
      by_cases he : eligible c.table current j = true
      · rw [(dispatches_visit he).table]
        unfold yields running
        by_cases hij : i = j
        · subst hij
          rw [State.setProc_self, State.setProc_self]
          exact ⟨rfl, rfl⟩
        · rw [State.setProc_of_ne _ hij, State.setProc_of_ne _ hij]
          exact ⟨h, rfl⟩
      · rw [visit_of_not_eligible (eq_false_of_ne_true he)]
        exact ⟨h, rfl⟩
    obtain ⟨hstate, hprio⟩ := ih hvisit.1
    exact ⟨hstate, hprio.trans hvisit.2⟩

/-- A table with two processes that are runnable, of the priorities 2 and 0. -/
def twoRunnable : State :=
  let nice := sysNice (sysNice (freshKernel 0) 5 1) 6 19
  (nice.setProc 5 { nice.proc 5 with state := .RUNNABLE }).setProc 6
    { nice.proc 6 with state := .RUNNABLE }

/-- Two processes that keep yielding are run three times and once. -/
theorem round_fair_three : runs (round yields visits.length twoRunnable) 5 = 3 ∧
    runs (round yields visits.length twoRunnable) 6 = 1 := by
  have hranged : Ranged twoRunnable := by
    unfold Ranged
    decide
  obtain ⟨-, -, -, hfive⟩ := round_fair returns_yields hranged 5
  obtain ⟨-, -, -, hsix⟩ := round_fair returns_yields hranged 6
  have hstate : (twoRunnable.proc 5).state = .RUNNABLE ∧ (twoRunnable.proc 6).state = .RUNNABLE := by
    decide
  have hprio : (twoRunnable.proc 5).priority = (2 : Nat) ∧ (twoRunnable.proc 6).priority = (0 : Nat) := by
    decide
  refine ⟨hfive 2 fun n current _ => ?_, hsix 0 fun n current _ => ?_⟩
  · obtain ⟨hrunnable, hsame⟩ := scan_yields (c := ⟨twoRunnable, none, []⟩) (visits.take n) hstate.1
    exact ⟨hrunnable, hsame.trans hprio.1⟩
  · obtain ⟨hrunnable, hsame⟩ := scan_yields (c := ⟨twoRunnable, none, []⟩) (visits.take n) hstate.2
    exact ⟨hrunnable, hsame.trans hprio.2⟩

end FogOS.Kernel.Sched
