import FogOS.Kernel.Switching

/-!
# No panics and no races

What follows for every machine that the CPUs and interrupts can reach: no check fails, the states of processes and the
sleeplocks are changed with the lock held, a process is executed once, and `noff` and `intena` give the interrupts back
as they were.
-/

namespace FogOS.Kernel.Smp

/-- The lock that protects what the access reads and writes. `procdump` reads without one. -/
def Op.guard : Op → Option Lock
  | .setChan i _ | .setState i _ | .schedCheck i | .wake i _ | .kill i | .spawn i | .reap i | .setPriority i _ | .tryRun i _ | .swtchIn i =>
    some (.proc i)
  | .tryLock _ L | .setPid _ L | .dropLock L => some (.sleep L)
  | _ => none

/-- Who is fine has the lock that the access needs. -/
lemma Fine.guard {who : Option (Fin nproc)} {v : View} {op : Op} {ops : List Op} {lk : Lock} (h : Fine who v (op :: ops))
    (hguard : op.guard = some lk) : lk ∈ v.held := by
  cases h <;> simp only [Op.guard, Option.some.injEq, reduceCtorEq] at hguard <;> subst hguard
  all_goals first | assumption | simp [*]

namespace Machine

variable {m m' : Machine} {c c' : Fin ncpu} {i : Fin nproc} {lk : Lock}

/-- The CPU with its name in the lock. -/
lemma Inv.holder_eq {V : Fin ncpu → View} (h : m.Inv V) (hlk : lk ∈ (V c).held) : m.holder lk = some c := (((h.on c).held lk).mp hlk).2

lemma Inv.locked_of_held {V : Fin ncpu → View} (h : m.Inv V) (hlk : lk ∈ (V c).held) : m.locked lk = true := (((h.on c).held lk).mp hlk).1

/-- The next access of the CPU, if it makes one. -/
def next (m : Machine) (c : Fin ncpu) : Option Machine :=
  match m.ops c with
  | [] => none
  | op :: rest =>
    match m.exec c op with
    | .ok (new, m') => some (m'.setTodo (m.ctx c) (new ++ rest))
    | .error _ => none

lemma step_of_next (h : m.next c = some m') : m.Step m' := by
  unfold next at h
  split at h
  · cases h
  · next op rest hops =>
    split at h
    · next new m₁ hexec =>
      cases h
      exact .run hops hexec
    · cases h

/-- The machine after the CPUs have gone on in this order, as far as they can. -/
def after (m : Machine) : List (Fin ncpu) → Machine
  | [] => m
  | c :: l =>
    match m.next c with
    | none => m.after l
    | some m' => m'.after l

lemma steps_after (m : Machine) (l : List (Fin ncpu)) : Relation.ReflTransGen Step m (m.after l) := by
  induction l generalizing m with
  | nil => exact .refl
  | cons c l ih =>
    rw [after]
    split
    · exact ih m
    · next m' hm => exact .head (step_of_next hm) (ih m')

lemma Reachable.run (h : m.Reachable) (hrun : Relation.ReflTransGen Step m m') : m'.Reachable := by
  obtain ⟨init, priority, hrun'⟩ := h
  exact ⟨init, priority, hrun'.trans hrun⟩

lemma Reachable.after (h : m.Reachable) (l : List (Fin ncpu)) : (m.after l).Reachable := h.run (steps_after m l)

lemma Reachable.calls (h : m.Reachable) (call : Call) (hrun : (m.cpu c).running = some i) (hops : m.ops c = [])
    (hallowed : call.Allowed i fun lk => m.holding c lk = true) : (m.setTodo (.inr i) (call.code i)).Reachable :=
  h.step (.call call hrun hops hallowed)

/-- The first CPU has begun a round, with the first process of priority 3. -/
def started : Machine := (boot 0 fun _ => 3).setTodo (.inl 0) scheduler

lemma reachable_started : started.Reachable := by
  have hboot : (boot 0 fun _ => 3).Reachable := ⟨_, _, .refl⟩
  exact hboot.step (.round rfl rfl)

/-! ### What the locks are for -/

/-- Who writes the state, channel or priority of a process or a sleeplock, or reads it other than in
`procdump`, has its spinlock and cannot be interrupted, and nobody else is about to do the same. -/
theorem race_free (h : m.Reachable) {op : Op} {rest : List Op} (hops : m.ops c = op :: rest) (hguard : op.guard = some lk) :
    m.holding c lk = true ∧ (m.cpu c).intr = false ∧
      ∀ c' op' rest', m.ops c' = op' :: rest' → op'.guard = some lk → c' = c := by
  obtain ⟨V, hinv⟩ := h.inv
  have ho := hinv.on c
  have hmem : ∀ {c' op' rest'}, m.ops c' = op' :: rest' → op'.guard = some lk → lk ∈ (V c').held := by
    intro c' op' rest' hops' hguard'
    exact Fine.guard (hops' ▸ hinv.fine c') hguard'
  have hlk := hmem hops hguard
  refine ⟨(ho.holding_iff lk).mpr hlk, ?_, fun c' op' rest' hops' hguard' => ?_⟩
  · by_contra hon
    rw [ho.intr, Bool.not_eq_false] at hon
    rw [(ho.quiet hon).held] at hlk
    simp at hlk
  · have hsame := (hinv.holder_eq (hmem hops' hguard')).symm.trans (hinv.holder_eq hlk)
    exact Option.some.inj hsame

/-- The scheduler looks at the first process. -/
theorem race_free_started : (started.after (List.replicate 9 0)).holding 0 (.proc 0) = true ∧
    ((started.after (List.replicate 9 0)).cpu 0).intr = false ∧
    ∀ c op rest, (started.after (List.replicate 9 0)).ops c = op :: rest → op.guard = some (.proc 0) → c = 0 :=
  race_free (reachable_started.after _) (List.eq_cons_of_mem_head? (x := .tryRun 0 3) (by decide +kernel)) (by rfl)

/-- A process is executed by one CPU at most, and as long as nobody has its lock it is `RUNNING` exactly if it is executed. -/
theorem executed_once (h : m.Reachable) : (∀ c c' i, (m.cpu c).running = some i → (m.cpu c').running = some i → c = c') ∧
    ∀ i, m.locked (.proc i) = false → (m.state i = .RUNNING ↔ ∃ c, (m.cpu c).running = some i) := by
  obtain ⟨V, hinv⟩ := h.inv
  refine ⟨hinv.single, fun i hfree => ⟨fun hst => ?_, ?_⟩⟩
  · by_contra hnot
    have hpark : m.Parked i := fun c hc => hnot ⟨c, hc⟩
    obtain ⟨c, -, -, hlk⟩ := hinv.entering i hst hpark
    have hin : .proc i ∈ (V c).held := by simp [hlk]
    have hlocked := hinv.locked_of_held hin
    rw [hfree] at hlocked
    cases hlocked
  · rintro ⟨c, hc⟩
    obtain ⟨hst, -, -, hmv⟩ := (hinv.on c).thread i hc
    rw [hst]
    by_contra hne
    have hlk := hmv fun hnone => hne (by rw [hnone]; rfl)
    have hlocked := hinv.locked_of_held hlk
    rw [hfree] at hlocked
    cases hlocked

/-- The first process has been switched to. -/
theorem executed_once_forkret :
    (∀ c c' i, ((started.after (List.replicate 11 0)).cpu c).running = some i →
      ((started.after (List.replicate 11 0)).cpu c').running = some i → c = c') ∧
    ∀ i, (started.after (List.replicate 11 0)).locked (.proc i) = false →
      ((started.after (List.replicate 11 0)).state i = .RUNNING ↔ ∃ c, ((started.after (List.replicate 11 0)).cpu c).running = some i) :=
  executed_once (reachable_started.after _)

/-- Between the calls of a process, `noff` is the number of locks that its CPU holds. Interrupts are off while there are
any, and else as the process has set them last. -/
theorem interrupts_nest (h : m.Reachable) (hrun : (m.cpu c).running = some i) (hops : m.ops c = []) :
    ∃ H : Finset Lock, (∀ lk, lk ∈ H ↔ m.holding c lk = true) ∧ (m.cpu c).noff = H.card ∧ (m.cpu c).proc = some i ∧
      (H ≠ ∅ → (m.cpu c).intr = false ∧ ∀ b, m.wants i = some b → (m.cpu c).intena = b) ∧
      (H = ∅ → ∀ b, m.wants i = some b → (m.cpu c).intr = b) := by
  obtain ⟨V, hinv⟩ := h.inv
  have ho := hinv.on c
  have hcalm := hinv.calm hops
  obtain ⟨-, hw, hproc, -⟩ := ho.thread i hrun
  refine ⟨(V c).held, fun lk => (ho.holding_iff lk).symm, ho.noff.trans hcalm.noff, ho.proc.trans hproc, fun hne => ?_, fun hempty b hb => ?_⟩
  · exact ⟨ho.intr.trans (hcalm.off hne), fun b hb => ho.intena.trans (hcalm.intena hne b (hw.trans hb))⟩
  · exact ho.intr.trans (hcalm.intr hempty b (hw.trans hb))

/-- What the process holds, by `noff`. -/
lemma Reachable.none_held (h : m.Reachable) (hops : m.ops c = []) (hnoff : (m.cpu c).noff = 0)
    (lk : Lock) : ¬ m.holding c lk = true := by
  obtain ⟨V, hinv⟩ := h.inv
  rw [(hinv.on c).holding_iff, ((hinv.calm hops).steady.quiet ((hinv.on c).noff.symm.trans hnoff)).1]
  simp

lemma Reachable.one_held (h : m.Reachable) (hops : m.ops c = []) (hnoff : (m.cpu c).noff = 1)
    (hlk : m.holding c lk = true) (lk' : Lock) : m.holding c lk' = true ↔ lk' = lk := by
  obtain ⟨V, hinv⟩ := h.inv
  have ho := hinv.on c
  have hcard := (hinv.calm hops).noff
  rw [← ho.noff, hnoff] at hcard
  have hone : (V c).held.card = 1 := by omega
  obtain ⟨lk₀, hheld⟩ := Finset.card_eq_one.mp hone
  rw [ho.holding_iff, hheld, Finset.mem_singleton] at hlk ⊢
  rw [hlk]

/-- The first process has set interrupts on in its first call. -/
@[irreducible] def enabled : Machine :=
  ((started.after (List.replicate 20 0)).setTodo (.inr 0) (Call.code 0 (.intr true))).after [0]

/-- Then it takes a lock, -/
@[irreducible] def outer : Machine :=
  (enabled.setTodo (.inr 0) (Call.code 0 (.acquire (.other 5)))).after (List.replicate 6 0)

/-- and another one. -/
@[irreducible] def nested : Machine :=
  (outer.setTodo (.inr 0) (Call.code 0 (.acquire (.other 6)))).after (List.replicate 6 0)

lemma nested_facts :
    (((started.after (List.replicate 20 0)).cpu 0).running = some 0 ∧
      (started.after (List.replicate 20 0)).ops 0 = [] ∧
      ((started.after (List.replicate 20 0)).cpu 0).noff = 0) ∧
    ((enabled.cpu 0).running = some 0 ∧ enabled.ops 0 = [] ∧
      ¬ enabled.holding 0 (.other 5) = true) ∧
    ((outer.cpu 0).running = some 0 ∧ outer.ops 0 = [] ∧ ¬ outer.holding 0 (.other 6) = true) ∧
    (nested.cpu 0).running = some 0 ∧ nested.ops 0 = [] ∧ nested.wants 0 = some true ∧
      nested.holding 0 (.other 5) = true ∧ nested.holding 0 (.other 6) = true := by
  decide +kernel

lemma reachable_nested : nested.Reachable := by
  obtain ⟨⟨hrun₁, hops₁, hnoff⟩, ⟨hrun₂, hops₂, hfree₂⟩, ⟨hrun₃, hops₃, hfree₃⟩, -⟩ := nested_facts
  have hfirst := reachable_started.after (List.replicate 20 0)
  have henabled : enabled.Reachable := by
    unfold enabled
    exact (hfirst.calls (.intr true) hrun₁ hops₁ (hfirst.none_held hops₁ hnoff)).after _
  have hlocked : outer.Reachable := by
    unfold outer
    exact (henabled.calls (.acquire (.other 5)) hrun₂ hops₂ ⟨hfree₂, trivial⟩).after _
  unfold nested
  exact (hlocked.calls (.acquire (.other 6)) hrun₃ hops₃ ⟨hfree₃, trivial⟩).after _

/-- The first process holds two locks, with interrupts off, and gets them back on after both. -/
theorem interrupts_nest_forkret : ∃ H : Finset Lock, .other 5 ∈ H ∧ .other 6 ∈ H ∧
    (nested.cpu 0).noff = H.card ∧ (nested.cpu 0).proc = some 0 ∧ (nested.cpu 0).intr = false ∧
      (nested.cpu 0).intena = true := by
  obtain ⟨-, -, -, hrun, hops, hwants, hfive, hsix⟩ := nested_facts
  obtain ⟨H, hmem, hnoff, hproc, hoff, -⟩ := interrupts_nest reachable_nested hrun hops
  have hin : .other 5 ∈ H := (hmem _).mpr hfive
  obtain ⟨hintr, hintena⟩ := hoff (Finset.ne_empty_of_mem hin)
  exact ⟨H, hin, (hmem _).mpr hsix, hnoff, hproc, hintr, hintena true hwants⟩

end Machine

end FogOS.Kernel.Smp
