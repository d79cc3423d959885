import FogOS.Kernel.Races

/-!
# No wakeup is lost

From when `sleep` has let the condition lock go, any `wakeup` on the channel finds the process asleep: its lock keeps
others from looking before it is. So is a process that has found a sleeplock taken not left asleep.
-/

namespace FogOS.Kernel.Smp

/-- A process that is about to end wakes nobody up. -/
lemma Fine.wake_notMem {who : Option (Fin nproc)} {v : View} {ops : List Op} (h : Fine who v ops) (hmoved : v.moved = some .ZOMBIE)
    (j : Fin nproc) (ch : Chan) : .wake j ch ∉ ops := by
  induction h with
  | nil h => simp
  | intrGet _ ih => simpa using ih hmoved
  | intrOff _ ih => simpa using ih hmoved
  | intrOn hquiet => exact absurd (hquiet.moved.symm.trans hmoved) (by simp)
  | push _ _ ih => simpa using ih hmoved
  | pop _ _ _ _ ih => simpa using ih hmoved
  | checkFree _ _ ih => simpa using ih hmoved
  | swap _ _ hnone => exact absurd (hnone.symm.trans hmoved) (by simp)
  | mark _ hnone => exact absurd (hnone.symm.trans hmoved) (by simp)
  | checkHeld _ _ ih => simpa using ih hmoved
  | unmark _ _ _ _ _ ih => simpa using ih hmoved
  | unlock _ _ _ ih => simpa using ih hmoved
  | self _ _ ih => simpa using ih hmoved
  | setChan _ _ hnone => exact absurd (hnone.symm.trans hmoved) (by simp)
  | setState _ _ _ hnone => exact absurd (hnone.symm.trans hmoved) (by simp)
  | schedCheck _ _ _ _ _ _ _ ih => simpa using ih hmoved
  | saveIntena _ ih => simpa using ih hmoved
  | swtchOut _ _ _ _ _ hmv _ hend =>
    obtain rfl := Option.some.inj (hmv.symm.trans hmoved)
    simpa using hend rfl j ch
  | restore _ ih => simpa using ih hmoved
  | wake _ _ hnone => exact absurd (hnone.symm.trans hmoved) (by simp)
  | kill _ hnone => exact absurd (hnone.symm.trans hmoved) (by simp)
  | spawn _ hnone => exact absurd (hnone.symm.trans hmoved) (by simp)
  | reap _ hnone => exact absurd (hnone.symm.trans hmoved) (by simp)
  | setPriority _ _ ih => simpa using ih hmoved
  | clearFound _ ih => simpa using ih hmoved
  | tryRun _ _ _ _ hnone => exact absurd (hnone.symm.trans hmoved) (by simp)
  | swtchIn _ _ _ _ _ hmv => exact absurd (hmv.symm.trans hmoved) (by simp)
  | back _ hnone => exact absurd (hnone.symm.trans hmoved) (by simp)
  | idle _ _ ih => simpa using ih hmoved
  | wfi _ ih => simpa using ih hmoved
  | dump _ ih => simpa using ih hmoved
  | iret hquiet => exact absurd (hquiet.moved.symm.trans hmoved) (by simp)
  | setIntr _ hquiet => exact absurd (hquiet.moved.symm.trans hmoved) (by simp)
  | tryLock _ _ _ _ _ hnone => exact absurd (hnone.symm.trans hmoved) (by simp)
  | setPid _ _ ih => simpa using ih hmoved
  | dropLock _ hnone => exact absurd (hnone.symm.trans hmoved) (by simp)

namespace Machine

variable {m m' : Machine} {V : Fin ncpu → View} {c c' : Fin ncpu} {op : Op} {new rest : List Op} {i j : Fin nproc} {ch : Chan} {L : Nat}

/-- What an access changes, for those that are not looking. -/
structure Changes (m : Machine) (c : Fin ncpu) (op : Op) (new : List Op) (m' : Machine) : Prop where
  cpu : ∀ c', c' ≠ c → m'.cpu c' = m.cpu c'
  running : (m'.cpu c).running = (m.cpu c).running ∨ op = .swtchOut ∨ ∃ j, op = .swtchIn j
  state : ∀ i, m'.state i = m.state i ∨ op.guard = some (.proc i)
  asleep : ∀ i, m.state i = .SLEEPING → m'.state i = .SLEEPING ∨ m'.state i = .RUNNABLE ∨ ∃ st, op = .setState i st
  dead : ∀ i, m'.state i = .ZOMBIE ∨ m'.state i = .UNUSED → m.state i = .ZOMBIE ∨ m.state i = .UNUSED ∨ ∃ st, op = .setState i st
  chan : ∀ i, m'.chan i = m.chan i ∨ ∃ ch, op = .setChan i ch
  slocked : ∀ L, m'.slocked L = m.slocked L ∨ (∃ i, op = .tryLock i L ∧ m'.slocked L = true) ∨ op = .dropLock L
  todo : ∀ x, m'.todo x = m.todo x ∨ ∃ j, x = .inr j ∧ op = .spawn j ∧ m.state j = .UNUSED
  new : ∀ j ch, .wake j ch ∉ new

/-- Nothing of these changes. -/
lemma changes_fields (hcpu : m'.cpu = m.cpu) (hstate : m'.state = m.state) (hchan : m'.chan = m.chan) (hslocked : m'.slocked = m.slocked)
    (htodo : m'.todo = m.todo) (hnew : ∀ j ch, .wake j ch ∉ new) : m.Changes c op new m' := by
  refine ⟨fun _ _ => by rw [hcpu], Or.inl (by rw [hcpu]), fun _ => Or.inl (by rw [hstate]), fun _ hst => Or.inl (by rwa [hstate]),
    fun _ hst => ?_, fun _ => Or.inl (by rw [hchan]), fun _ => Or.inl (by rw [hslocked]), fun _ => Or.inl (by rw [htodo]), hnew⟩
  rw [hstate] at hst
  exact hst.imp_right Or.inl

lemma changes_cpu {C : Cpu} (hrun : C.running = (m.cpu c).running ∨ op = .swtchOut ∨ ∃ j, op = .swtchIn j)
    (hnew : ∀ j ch, .wake j ch ∉ new) : m.Changes c op new (m.setCpu c C) := by
  refine ⟨fun c' hc => Function.update_of_ne hc _ _, ?_, fun _ => Or.inl rfl, fun _ hst => Or.inl hst, fun _ hst => hst.imp_right Or.inl,
    fun _ => Or.inl rfl, fun _ => Or.inl rfl, fun _ => Or.inl rfl, hnew⟩
  have hself : (m.setCpu c C).cpu c = C := Function.update_self _ _ _
  rwa [hself]

/-- The state of the process whose lock the access needs changes. -/
lemma changes_state {st : ProcState} (hguard : op.guard = some (.proc j)) (hstate : m'.state = Function.update m.state j st)
    (hcpu : ∀ c', c' ≠ c → m'.cpu c' = m.cpu c') (hrun : (m'.cpu c).running = (m.cpu c).running) (hchan : m'.chan = m.chan)
    (hslocked : m'.slocked = m.slocked) (htodo : ∀ x, m'.todo x = m.todo x ∨ x = .inr j ∧ op = .spawn j ∧ m.state j = .UNUSED)
    (hnew : ∀ j ch, .wake j ch ∉ new) (hasleep : m.state j = .SLEEPING → st = .RUNNABLE ∨ ∃ st, op = .setState j st)
    (hdead : st = .ZOMBIE ∨ st = .UNUSED → m.state j = .ZOMBIE ∨ ∃ st, op = .setState j st) : m.Changes c op new m' := by
  have hself : m'.state j = st := by rw [hstate, Function.update_self]
  have hother : ∀ {k}, k ≠ j → m'.state k = m.state k := by
    intro k hk
    rw [hstate, Function.update_of_ne hk]
  refine ⟨hcpu, Or.inl hrun, fun k => ?_, fun k hst => ?_, fun k hst => ?_, fun _ => Or.inl (by rw [hchan]), fun _ => Or.inl (by rw [hslocked]),
    fun x => (htodo x).imp_right fun hx => ⟨j, hx⟩, hnew⟩
  · by_cases hk : k = j
    · exact Or.inr (hk ▸ hguard)
    · exact Or.inl (hother hk)
  · by_cases hk : k = j
    · subst hk
      rw [hself]
      exact Or.inr (hasleep hst)
    · exact Or.inl ((hother hk).trans hst)
  · by_cases hk : k = j
    · subst hk
      rw [hself] at hst
      exact (hdead hst).imp_right Or.inr
    · rw [hother hk] at hst
      exact hst.imp_right Or.inl

lemma changes_chan {f : Option Chan} (hop : op = .setChan j f) (hnew : ∀ j ch, .wake j ch ∉ new) :
    m.Changes c op new { m with chan := Function.update m.chan j f } := by
  refine ⟨fun _ _ => rfl, Or.inl rfl, fun _ => Or.inl rfl, fun _ hst => Or.inl hst, fun _ hst => hst.imp_right Or.inl, fun k => ?_,
    fun _ => Or.inl rfl, fun _ => Or.inl rfl, hnew⟩
  by_cases hk : k = j
  · exact Or.inr ⟨f, hk ▸ hop⟩
  · exact Or.inl (Function.update_of_ne hk _ _)

lemma changes_slocked {b : Bool} {f : Nat → Option (Fin nproc)} (hop : (∃ i, op = .tryLock i L ∧ b = true) ∨ op = .dropLock L)
    (hnew : ∀ j ch, .wake j ch ∉ new) : m.Changes c op new { m with slocked := Function.update m.slocked L b, spid := f } := by
  refine ⟨fun _ _ => rfl, Or.inl rfl, fun _ => Or.inl rfl, fun _ hst => Or.inl hst, fun _ hst => hst.imp_right Or.inl, fun _ => Or.inl rfl,
    fun K => ?_, fun _ => Or.inl rfl, hnew⟩
  by_cases hK : K = L
  · subst hK
    refine Or.inr (hop.imp_left ?_)
    rintro ⟨i, htry, rfl⟩
    exact ⟨i, htry, Function.update_self _ _ _⟩
  · exact Or.inl (Function.update_of_ne hK _ _)

lemma wake_notMem_sleep {ch' : Chan} {lk : Lock} : .wake j ch' ∉ Smp.sleep i ch lk ++ [.tryLock i L] := by
  simp [Smp.sleep, Smp.acquire, Smp.release, Smp.sched, Smp.myproc, pushOff, popOff]

lemma changes_of_exec (h : m.exec c op = .ok (new, m')) : m.Changes c op new m' := by
  have hnil : ∀ j ch, .wake j ch ∉ ([] : List Op) := fun j ch => by simp
  unfold exec at h
  cases op with
  | intrGet =>
    cases h
    exact changes_fields rfl rfl rfl rfl rfl fun j ch => by simp
  | intrOff =>
    cases h
    exact changes_cpu (Or.inl rfl) hnil
  | intrOn =>
    cases h
    exact changes_cpu (Or.inl rfl) hnil
  | push old =>
    cases h
    exact changes_cpu (Or.inl rfl) hnil
  | pop =>
    simp only at h
    split at h
    · cases h
    · split at h
      · cases h
      · cases h
        exact changes_cpu (Or.inl rfl) hnil
  | checkFree lk =>
    simp only at h
    split at h
    · cases h
    · cases h
      exact changes_fields rfl rfl rfl rfl rfl hnil
  | swap lk =>
    simp only at h
    split at h
    · cases h
      exact changes_fields rfl rfl rfl rfl rfl fun j ch => by simp
    · cases h
      exact changes_fields rfl rfl rfl rfl rfl hnil
  | mark lk =>
    cases h
    exact changes_fields rfl rfl rfl rfl rfl hnil
  | checkHeld lk =>
    simp only at h
    split at h
    · cases h
    · cases h
      exact changes_fields rfl rfl rfl rfl rfl hnil
  | unmark lk =>
    cases h
    exact changes_fields rfl rfl rfl rfl rfl hnil
  | unlock lk =>
    cases h
    exact changes_fields rfl rfl rfl rfl rfl hnil
  | self who =>
    simp only at h
    split at h
    · cases h
      exact changes_fields rfl rfl rfl rfl rfl hnil
    · cases h
  | setChan i f =>
    cases h
    exact changes_chan rfl hnil
  | setState i st =>
    cases h
    exact changes_state rfl rfl (fun _ _ => rfl) rfl rfl rfl (fun _ => Or.inl rfl) hnil (fun _ => Or.inr ⟨st, rfl⟩) fun _ => Or.inr ⟨st, rfl⟩
  | schedCheck i =>
    simp only at h
    split at h
    · cases h
    · split at h
      · cases h
      · split at h
        · cases h
        · split at h
          · cases h
          · cases h
            exact changes_fields rfl rfl rfl rfl rfl hnil
  | saveIntena =>
    cases h
    exact changes_fields rfl rfl rfl rfl rfl fun j ch => by simp
  | swtchOut =>
    cases h
    exact changes_cpu (Or.inr (Or.inl rfl)) hnil
  | restore b =>
    cases h
    exact changes_cpu (Or.inl rfl) hnil
  | zombieExit => cases h
  | wake j ch =>
    simp only at h
    split at h
    · next hst =>
      cases h
      exact changes_state rfl rfl (fun _ _ => rfl) rfl rfl rfl (fun _ => Or.inl rfl) hnil (fun _ => Or.inl rfl) fun hor => (by simp at hor)
    · cases h
      exact changes_fields rfl rfl rfl rfl rfl hnil
  | kill j =>
    simp only at h
    split at h
    · next hst =>
      cases h
      exact changes_state rfl rfl (fun _ _ => rfl) rfl rfl rfl (fun _ => Or.inl rfl) hnil (fun _ => Or.inl rfl) fun hor => (by simp at hor)
    · cases h
      exact changes_fields rfl rfl rfl rfl rfl hnil
  | spawn j =>
    simp only at h
    split at h
    · next hst =>
      cases h
      refine changes_state rfl rfl (fun _ _ => rfl) rfl rfl rfl (fun x => ?_) hnil (fun _ => Or.inl rfl) fun hor => (by simp at hor)
      by_cases hx : x = .inr j
      · exact Or.inr ⟨hx, rfl, hst⟩
      · exact Or.inl (Function.update_of_ne hx _ _)
    · cases h
      exact changes_fields rfl rfl rfl rfl rfl hnil
  | reap j =>
    simp only at h
    split at h
    · next hst =>
      cases h
      exact changes_state rfl rfl (fun _ _ => rfl) rfl rfl rfl (fun _ => Or.inl rfl) hnil (fun hsl => absurd (hst.symm.trans hsl) (by simp)) fun _ => Or.inl hst
    · cases h
      exact changes_fields rfl rfl rfl rfl rfl hnil
  | setPriority i priority =>
    cases h
    exact changes_fields rfl rfl rfl rfl rfl hnil
  | clearFound =>
    cases h
    exact changes_cpu (Or.inl rfl) hnil
  | tryRun j current =>
    simp only at h
    split at h
    · next hst =>
      cases h
      refine changes_state rfl rfl (fun c' hc => Function.update_of_ne hc _ _) ?_ rfl rfl (fun _ => Or.inl rfl) (fun j ch => by simp)
        (fun hsl => absurd (hst.1.symm.trans hsl) (by simp)) fun hor => (by simp at hor)
      simp only [setCpu, Function.update_self]
    · cases h
      exact changes_fields rfl rfl rfl rfl rfl hnil
  | swtchIn j =>
    cases h
    exact changes_cpu (Or.inr (Or.inr ⟨j, rfl⟩)) hnil
  | back =>
    cases h
    exact changes_cpu (Or.inl rfl) hnil
  | idle =>
    cases h
    refine changes_fields rfl rfl rfl rfl rfl fun j ch => ?_
    split <;> simp
  | wfi =>
    cases h
    exact changes_fields rfl rfl rfl rfl rfl hnil
  | dump j =>
    cases h
    exact changes_fields rfl rfl rfl rfl rfl hnil
  | iret =>
    cases h
    exact changes_cpu (Or.inl rfl) hnil
  | setIntr i b =>
    cases h
    have hcpu : m.Changes c (.setIntr i b) [] (m.setCpu c { m.cpu c with intr := b }) := changes_cpu (Or.inl rfl) hnil
    exact ⟨hcpu.cpu, hcpu.running, hcpu.state, hcpu.asleep, hcpu.dead, hcpu.chan, hcpu.slocked, hcpu.todo, hcpu.new⟩
  | tryLock i L =>
    simp only at h
    split at h
    · cases h
      exact changes_fields rfl rfl rfl rfl rfl fun j ch => wake_notMem_sleep
    · cases h
      exact changes_slocked (Or.inl ⟨i, rfl, rfl⟩) hnil
  | setPid i L =>
    cases h
    exact changes_fields rfl rfl rfl rfl rfl hnil
  | dropLock L =>
    cases h
    exact changes_slocked (Or.inr rfl) hnil

lemma setCpu_self (m : Machine) (c : Fin ncpu) : m.setCpu c (m.cpu c) = m := by
  unfold setCpu
  rw [Function.update_eq_self]

/-- An access, or new code before what the CPU has still to do. -/
lemma step_cases (h : m.Step m') :
    (∃ c op rest new m₁, m.ops c = op :: rest ∧ m.exec c op = .ok (new, m₁) ∧ m' = m₁.setTodo (m.ctx c) (new ++ rest)) ∨
      ∃ c C code, C.running = (m.cpu c).running ∧ m' = (m.setCpu c C).setTodo (m.ctx c) (code ++ m.ops c) ∧
        (m.ops c = [] ∨ (m.cpu c).intr = true) := by
  cases h with
  | run hops hexec => exact Or.inl ⟨_, _, _, _, _, hops, hexec, rfl⟩
  | @round c hrun hops =>
    refine Or.inr ⟨c, m.cpu c, scheduler, rfl, ?_, Or.inl hops⟩
    rw [setCpu_self, ctx_of_none hrun, hops, List.append_nil]
  | @call c i call hrun hops hallowed =>
    refine Or.inr ⟨c, m.cpu c, call.code i, rfl, ?_, Or.inl hops⟩
    rw [setCpu_self, ctx_of_some hrun, hops, List.append_nil]
  | @interrupt c timer l hintr => exact Or.inr ⟨c, { m.cpu c with intr := false }, _, rfl, rfl, Or.inr hintr⟩

/-- Interrupts are off while a lock is held or taken. -/
lemma Inv.intr_of_held (h : m.Inv V) {lk : Lock} (hlk : lk ∈ (V c).held ∨ (V c).taking = some lk) : (m.cpu c).intr ≠ true := by
  intro hon
  have hquiet := (h.on c).quiet ((h.on c).intr.symm.trans hon)
  rw [hquiet.held, hquiet.taking] at hlk
  simp at hlk

/-- What another CPU executes has nothing to do with it. -/
lemma Inv.ops_of_other (h : m.Inv V) (hops : m.ops c = op :: rest) (hexec : m.exec c op = .ok (new, m')) (hc : c' ≠ c) {l : List Op} :
    (m'.setTodo (m.ctx c) l).ops c' = m.ops c' := by
  have hch := changes_of_exec hexec
  have hctx : m'.ctx c' = m.ctx c' := ctx_of_running (congrArg Cpu.running (hch.cpu c' hc))
  change Function.update m'.todo (m.ctx c) l (m'.ctx c') = m.todo (m.ctx c')
  rw [hctx, Function.update_of_ne (ctx_ne h hc)]
  rcases hch.todo (m.ctx c') with hsame | ⟨j, hj, rfl, hst⟩
  · exact hsame
  · have hf := h.fine c
    rw [hops] at hf
    cases hf with
    | spawn hlk hmoved hfine =>
      exact absurd hj.symm (inr_ne_ctx (h.parked_of_held hlk hmoved (by rw [hst]; simp)))

lemma ops_of_self {l : List Op} (hrun : (m'.cpu c).running = (m.cpu c).running) : (m'.setTodo (m.ctx c) l).ops c = l := by
  change Function.update m'.todo (m.ctx c) l (m'.ctx c) = l
  rw [ctx_of_running hrun, Function.update_self]

/-- New code for one CPU is no new code for another. -/
lemma Inv.ops_of_code (h : m.Inv V) {C : Cpu} (hc : c' ≠ c) {l : List Op} :
    ((m.setCpu c C).setTodo (m.ctx c) l).ops c' = m.ops c' := by
  have hctx : (m.setCpu c C).ctx c' = m.ctx c' := ctx_of_running (congrArg Cpu.running (Function.update_of_ne hc _ _))
  change Function.update m.todo (m.ctx c) l ((m.setCpu c C).ctx c') = m.todo (m.ctx c')
  rw [hctx, Function.update_of_ne (ctx_ne h hc)]

lemma exec_pop (h : m.exec c .pop = .ok (new, m')) : new = [] ∧ m'.chan = m.chan ∧ (m'.cpu c).running = (m.cpu c).running := by
  simp only [exec] at h
  split at h
  · cases h
  · split at h
    · cases h
    · cases h
      exact ⟨rfl, rfl, by simp [setCpu]⟩

/-- The process has let the condition lock go inside `sleep`, and has not been woken up. -/
def Dozes (m : Machine) (i : Fin nproc) (ch : Chan) : Prop :=
  (m.state i = .SLEEPING ∧ m.chan i = some ch) ∨ ∃ c rest, (m.cpu c).running = some i ∧
    (m.ops c = .pop :: .setChan i (some ch) :: .setState i .SLEEPING :: rest ∨
      m.ops c = .setChan i (some ch) :: .setState i .SLEEPING :: rest ∨ m.ops c = .setState i .SLEEPING :: rest ∧ m.chan i = some ch)

/-- As long as it is not asleep, the process has its lock. -/
lemma Inv.dozing_held (h : m.Inv V) (hops : m.ops c = .pop :: .setChan i (some ch) :: .setState i .SLEEPING :: rest ∨
    m.ops c = .setChan i (some ch) :: .setState i .SLEEPING :: rest ∨ m.ops c = .setState i .SLEEPING :: rest ∧ m.chan i = some ch) :
    .proc i ∈ (V c).held := by
  have hf := h.fine c
  rcases hops with hops | hops | ⟨hops, -⟩
  · rw [hops] at hf
    cases hf with
    | pop _ _ _ hfine => exact hfine.guard rfl
  · rw [hops] at hf
    exact hf.guard rfl
  · rw [hops] at hf
    exact hf.guard rfl

/-- Nobody changes the channel of a process that is executed or sleeps but itself. -/
lemma Inv.running_of_setChan (h : m.Inv V) {f : Option Chan} (hops : m.ops c = .setChan i f :: rest) :
    (m.cpu c).running = some i ∧ m.state i = .RUNNING := by
  have hf := h.fine c
  rw [hops] at hf
  cases hf with
  | setChan hwho hlk hmoved hfine =>
    refine ⟨hwho, ?_⟩
    rw [((h.on c).thread i hwho).1, hmoved]
    rfl

lemma Inv.running_of_setState (h : m.Inv V) {st : ProcState} (hops : m.ops c = .setState i st :: rest) :
    (m.cpu c).running = some i ∧ m.state i = .RUNNING := by
  have hf := h.fine c
  rw [hops] at hf
  cases hf with
  | setState hwho hlk hintr hmoved hst hfine =>
    refine ⟨hwho, ?_⟩
    rw [((h.on c).thread i hwho).1, hmoved]
    rfl

/-- It dozes on, or is woken up. -/
lemma Dozes.step (hd : m.Dozes i ch) (h : m.Inv V) (hstep : m.Step m') : m'.Dozes i ch ∨ m.state i = .SLEEPING ∧ m'.state i = .RUNNABLE := by
  rcases step_cases hstep with ⟨c, op, rest, new, m₁, hops, hexec, rfl⟩ | ⟨c, C, code, hC, rfl, hwhy⟩
  · have hch := changes_of_exec hexec
    have hchan : ∀ c₀, (m.state i = .SLEEPING ∨ (m.cpu c₀).running = some i ∧ c₀ ≠ c) → m₁.chan i = m.chan i := by
      intro c₀ hwhy
      rcases hch.chan i with hsame | ⟨f, rfl⟩
      · exact hsame
      · obtain ⟨hrun, hst⟩ := h.running_of_setChan hops
        rcases hwhy with hsl | ⟨hrun₀, hc⟩
        · rw [hst] at hsl
          cases hsl
        · exact absurd (h.single c₀ c i hrun₀ hrun) hc
    rcases hd with ⟨hst, hcn⟩ | ⟨c₀, rest₀, hrun₀, hops₀⟩
    · rcases hch.asleep i hst with hsl | hwoken | ⟨st, rfl⟩
      · exact Or.inl (Or.inl ⟨hsl, (hchan c (Or.inl hst)).trans hcn⟩)
      · exact Or.inr ⟨hst, hwoken⟩
      · have hrunning := (h.running_of_setState hops).2
        rw [hst] at hrunning
        cases hrunning
    · refine Or.inl ?_
      by_cases hc : c₀ = c
      · subst hc
        rw [hops] at hops₀
        rcases hops₀ with heq | heq | ⟨heq, hcn⟩
        · cases heq
          obtain ⟨rfl, -, hrun⟩ := exec_pop hexec
          exact Or.inr ⟨c₀, rest₀, hrun.trans hrun₀, Or.inr (Or.inl (ops_of_self hrun))⟩
        · cases heq
          cases hexec
          refine Or.inr ⟨c₀, rest₀, hrun₀, Or.inr (Or.inr ⟨ops_of_self rfl, ?_⟩)⟩
          exact Function.update_self _ _ _
        · cases heq
          cases hexec
          exact Or.inl ⟨Function.update_self _ _ _, hcn⟩
      · have hops' : (m₁.setTodo (m.ctx c) (new ++ rest)).ops c₀ = m.ops c₀ := h.ops_of_other hops hexec hc
        refine Or.inr ⟨c₀, rest₀, ?_, ?_⟩
        · change (m₁.cpu c₀).running = some i
          rw [hch.cpu c₀ hc]
          exact hrun₀
        · rw [hops']
          change _ ∨ _ ∨ _ ∧ m₁.chan i = some ch
          rw [hchan c₀ (Or.inr ⟨hrun₀, hc⟩)]
          exact hops₀
  · refine Or.inl ?_
    rcases hd with hasleep | ⟨c₀, rest₀, hrun₀, hops₀⟩
    · exact Or.inl hasleep
    · have hheld := h.dozing_held hops₀
      have hc : c₀ ≠ c := by
        rintro rfl
        rcases hwhy with hnil | hon
        · rw [hnil] at hops₀
          simp at hops₀
        · exact h.intr_of_held (Or.inl hheld) hon
      refine Or.inr ⟨c₀, rest₀, ?_, ?_⟩
      · change (Function.update m.cpu c C c₀).running = some i
        rw [Function.update_of_ne hc]
        exact hrun₀
      · rw [h.ops_of_code hc]
        exact hops₀

/-! ### Who wakes up others -/

/-- No process that has come to its end will wake up anybody. -/
def Buried (m : Machine) : Prop := ∀ j, m.state j = .ZOMBIE ∨ m.state j = .UNUSED → ∀ k ch, .wake k ch ∉ m.todo (.inr j)

lemma Inv.running_of_noff (h : m.Inv V) (hrun : (m.cpu c).running = some i) (hmoved : (V c).moved = none) : m.state i = .RUNNING := by
  rw [((h.on c).thread i hrun).1, hmoved]
  rfl

lemma ctx_eq_inr (h : m.ctx c = .inr i) : (m.cpu c).running = some i := by
  unfold ctx at h
  cases hrun : (m.cpu c).running with
  | none =>
    rw [hrun] at h
    cases h
  | some j =>
    rw [hrun] at h
    cases h
    rfl

lemma Buried.step (hb : m.Buried) (h : m.Inv V) (hstep : m.Step m') : m'.Buried := by
  intro j hst k ch
  rcases step_cases hstep with ⟨c, op, rest, new, m₁, hops, hexec, rfl⟩ | ⟨c, C, code, hC, rfl, hwhy⟩
  · have hch := changes_of_exec hexec
    change m₁.state j = .ZOMBIE ∨ m₁.state j = .UNUSED at hst
    change .wake k ch ∉ Function.update m₁.todo (m.ctx c) (new ++ rest) (.inr j)
    by_cases hx : Sum.inr j = m.ctx c
    · have htodo : m.todo (m.ctx c) = op :: rest := hops
      have hold : .wake k ch ∉ rest := by
        rcases hch.dead j hst with hz | hu | ⟨st, rfl⟩
        · have hnot := hb j (Or.inl hz) k ch
          rw [hx] at hnot
          exact fun hin => hnot (htodo ▸ List.mem_cons_of_mem _ hin)
        · have hnot := hb j (Or.inr hu) k ch
          rw [hx] at hnot
          exact fun hin => hnot (htodo ▸ List.mem_cons_of_mem _ hin)
        · have hf := h.fine c
          rw [hops] at hf
          cases hexec
          have hnow : (m.setState j st).state j = st := Function.update_self _ _ _
          rw [hnow] at hst
          cases hf with
          | setState _ _ _ _ hor hfine =>
            obtain rfl : st = .ZOMBIE := by
              rcases hor with rfl | rfl | rfl <;> simp at hst ⊢
            exact hfine.wake_notMem rfl k ch
      rw [hx, Function.update_self, List.mem_append, not_or]
      exact ⟨hch.new k ch, hold⟩
    · rw [Function.update_of_ne hx]
      have hold : m.state j = .ZOMBIE ∨ m.state j = .UNUSED := by
        rcases hch.dead j hst with hz | hu | ⟨st, rfl⟩
        · exact Or.inl hz
        · exact Or.inr hu
        · exact absurd (ctx_of_some (h.running_of_setState hops).1).symm hx
      rcases hch.todo (.inr j) with hsame | ⟨j', hj', rfl, hunused⟩
      · rw [hsame]
        exact hb j hold k ch
      · cases hj'
        rw [exec, if_pos hunused] at hexec
        cases hexec
        have hnow : (m.setState j .RUNNABLE).state j = .RUNNABLE := Function.update_self _ _ _
        change (m.setState j .RUNNABLE).state j = _ ∨ (m.setState j .RUNNABLE).state j = _ at hst
        rw [hnow] at hst
        simp at hst
  · change m.state j = .ZOMBIE ∨ m.state j = .UNUSED at hst
    change .wake k ch ∉ Function.update m.todo (m.ctx c) (code ++ m.ops c) (.inr j)
    have hx : Sum.inr j ≠ m.ctx c := by
      intro hx
      have hmoved : (V c).moved = none := by
        rcases hwhy with hnil | hon
        · exact (h.calm hnil).moved
        · exact ((h.on c).quiet ((h.on c).intr.symm.trans hon)).moved
      rw [h.running_of_noff (ctx_eq_inr hx.symm) hmoved] at hst
      simp at hst
    rw [Function.update_of_ne hx]
    exact hb j hst k ch

lemma buried_boot (init : Fin nproc) (priority : Fin nproc → Int) : (boot init priority).Buried := by
  intro j hst k ch
  by_cases hj : j = init
  · have hrunnable : (boot init priority).state j = .RUNNABLE := by simp [boot, hj]
    rw [hrunnable] at hst
    simp at hst
  · simp [boot, hj]

/-- The process or scheduler `x` has still to look whether the process `i` sleeps on the channel. -/
def Pending (m : Machine) (x : Ctx) (i : Fin nproc) (ch : Chan) (tail : List Op) : Prop := ∃ l, m.todo x = l ++ .wake i ch :: tail

/-- Who looks at a process that dozes wakes it up. -/
lemma Inv.woken (h : m.Inv V) (hd : m.Dozes i ch) (hops : m.ops c = .wake i ch :: rest) (hexec : m.exec c (.wake i ch) = .ok (new, m')) :
    m.state i = .SLEEPING ∧ m'.state i = .RUNNABLE := by
  have hf := h.fine c
  rw [hops] at hf
  cases hf with
  | wake hwho hlk hmoved hfine =>
    have hasleep : m.state i = .SLEEPING ∧ m.chan i = some ch := by
      rcases hd with hasleep | ⟨c₀, rest₀, hrun₀, hops₀⟩
      · exact hasleep
      · have hsame := (h.holder_eq (h.dozing_held hops₀)).symm.trans (h.holder_eq hlk)
        cases hsame
        exact absurd hrun₀ hwho
    rw [exec, if_pos hasleep] at hexec
    cases hexec
    exact ⟨hasleep.1, Function.update_self _ _ _⟩

lemma Pending.step {x : Ctx} {tail : List Op} (hp : m.Pending x i ch tail) (hd : m.Dozes i ch) (hb : m.Buried) (h : m.Inv V) (hstep : m.Step m') :
    m'.Pending x i ch tail ∨ m.state i = .SLEEPING ∧ m'.state i = .RUNNABLE := by
  obtain ⟨l, hl⟩ := hp
  rcases step_cases hstep with ⟨c, op, rest, new, m₁, hops, hexec, rfl⟩ | ⟨c, C, code, hC, rfl, hwhy⟩
  · by_cases hx : x = m.ctx c
    · subst hx
      have heq : op :: rest = l ++ .wake i ch :: tail := hops.symm.trans hl
      cases l with
      | nil =>
        cases heq
        obtain ⟨hst, hst'⟩ := h.woken hd hops hexec
        exact Or.inr ⟨hst, hst'⟩
      | cons a l =>
        obtain ⟨rfl, rfl⟩ := List.cons.inj heq
        refine Or.inl ⟨new ++ l, ?_⟩
        change Function.update _ _ _ _ = _
        rw [Function.update_self, List.append_assoc]
        rfl
    · refine Or.inl ⟨l, ?_⟩
      change Function.update m₁.todo (m.ctx c) (new ++ rest) x = _
      rw [Function.update_of_ne hx]
      rcases (changes_of_exec hexec).todo x with hsame | ⟨j, rfl, rfl, hst⟩
      · rw [hsame, hl]
      · refine absurd ?_ (hb j (Or.inr hst) i ch)
        rw [hl]
        simp
  · refine Or.inl ?_
    by_cases hx : x = m.ctx c
    · subst hx
      refine ⟨code ++ l, ?_⟩
      change Function.update m.todo (m.ctx c) (code ++ m.ops c) (m.ctx c) = _
      rw [Function.update_self, List.append_assoc, ← hl]
      rfl
    · refine ⟨l, ?_⟩
      change Function.update m.todo (m.ctx c) (code ++ m.ops c) x = _
      rw [Function.update_of_ne hx, hl]

lemma Reachable.buried (h : m.Reachable) : m.Buried := by
  obtain ⟨init, priority, hrun⟩ := h
  induction hrun with
  | refl => exact buried_boot init priority
  | tail hrun hstep ih =>
    have hreach : Reachable _ := ⟨init, priority, hrun⟩
    obtain ⟨V, hinv⟩ := hreach.inv
    exact ih.step hinv hstep

/-- In the run, the process is woken up. -/
def Woken (m m' : Machine) (i : Fin nproc) : Prop := ∃ m₁ m₂, Relation.ReflTransGen Step m m₁ ∧ m₁.Step m₂ ∧
  Relation.ReflTransGen Step m₂ m' ∧ m₁.state i = .SLEEPING ∧ m₂.state i = .RUNNABLE

lemma Woken.tail (h : m.Woken m' i) {m'' : Machine} (hstep : m'.Step m'') : m.Woken m'' i := by
  obtain ⟨m₁, m₂, hrun, hwake, hrest, hst⟩ := h
  exact ⟨m₁, m₂, hrun, hwake, hrest.tail hstep, hst⟩

lemma dozes_pending {x : Ctx} {tail : List Op} (h : m.Reachable) (hd : m.Dozes i ch) (hp : m.Pending x i ch tail)
    (hrun : Relation.ReflTransGen Step m m') : m'.Dozes i ch ∧ m'.Pending x i ch tail ∨ m.Woken m' i := by
  induction hrun with
  | refl => exact Or.inl ⟨hd, hp⟩
  | @tail m₁ m₂ hrun hstep ih =>
    rcases ih with ⟨hd', hp'⟩ | hwoken
    · have hreach := h.run hrun
      obtain ⟨V, hinv⟩ := hreach.inv
      have hwake : m₁.state i = .SLEEPING ∧ m₂.state i = .RUNNABLE → m.Woken m₂ i := fun hst => ⟨m₁, m₂, hrun, hstep, .refl, hst⟩
      rcases hd'.step hinv hstep with hd'' | hst
      · rcases hp'.step hd' hreach.buried hinv hstep with hp'' | hst
        · exact Or.inl ⟨hd'', hp''⟩
        · exact Or.inr (hwake hst)
      · exact Or.inr (hwake hst)
    · exact Or.inr (hwoken.tail hstep)

/-- The process has just let the condition lock go. Who has still to look at it for this channel, as `wakeup` does, and
has come past that: then somebody has woken the process up. -/
theorem no_lost_wakeup (h : m.Reachable) (hrun : (m.cpu c).running = some i)
    (hops : m.ops c = .pop :: .setChan i (some ch) :: .setState i .SLEEPING :: rest) {x : Ctx} {l tail : List Op}
    (htodo : m.todo x = l ++ tail) (hwake : .wake i ch ∈ l) (hsteps : Relation.ReflTransGen Step m m') (hdone : m'.todo x = tail) :
    m.Woken m' i := by
  obtain ⟨l₁, l₂, rfl⟩ := List.append_of_mem hwake
  have hp : m.Pending x i ch (l₂ ++ tail) := ⟨l₁, by rw [htodo, List.append_assoc]; rfl⟩
  have hd : m.Dozes i ch := Or.inr ⟨c, rest, hrun, Or.inl hops⟩
  rcases dozes_pending h hd hp hsteps with ⟨-, l', hl'⟩ | hwoken
  · have hlen := congrArg List.length (hdone.symm.trans hl')
    simp only [List.length_append, List.length_cons] at hlen
    omega
  · exact hwoken

/-- The first process comes to its first call on the second CPU. -/
@[irreducible] def elsewhere : Machine := ((boot 0 fun _ => 3).setTodo (.inl 1) scheduler).after (List.replicate 20 1)

lemma elsewhere_facts :
    ((elsewhere.cpu 0).running = none ∧ elsewhere.ops 0 = [] ∧
      (((elsewhere.setTodo (.inl 0) scheduler).after [0]).cpu 0).intr = true) ∧
    (elsewhere.ops 1 = [] ∧ (elsewhere.cpu 1).noff = 0 ∧ (elsewhere.cpu 1).running = some 0) := by
  decide +kernel

lemma reachable_elsewhere : elsewhere.Reachable := by
  have hboot : (boot 0 fun _ => 3).Reachable := ⟨_, _, .refl⟩
  unfold elsewhere
  exact (hboot.step (.round (c := 1) rfl rfl)).after (List.replicate 20 1)

/-- Meanwhile on the first CPU there is an interrupt of the timer. -/
@[irreducible] def ticked : Machine :=
  let m := (elsewhere.setTodo (.inl 0) scheduler).after [0]
  (m.setCpu 0 { m.cpu 0 with intr := false }).setTodo (m.ctx 0) (kerneltrap 0 (m.cpu 0).running true [] ++ m.ops 0)

lemma reachable_ticked : ticked.Reachable := by
  obtain ⟨⟨hnone, hops, hintr⟩, -⟩ := elsewhere_facts
  have hround := (reachable_elsewhere.step (.round hnone hops)).after [0]
  unfold ticked
  exact hround.step (.interrupt true [] hintr)

/-- The process takes `tickslock`. -/
@[irreducible] def locking : Machine := (ticked.setTodo (.inr 0) (Call.code 0 (.acquire tickslock))).after (List.replicate 6 1)

/-- The process takes `tickslock`, calls `sleep`, and has let `tickslock` go. -/
@[irreducible] def pausing : Machine :=
  (((ticked.setTodo (.inr 0) (Call.code 0 (.acquire tickslock))).after (List.replicate 6 1)).setTodo (.inr 0)
    (Call.code 0 (.sleep ticks tickslock))).after (List.replicate 14 1)

lemma pausing_facts :
    ((ticked.cpu 1).running = some 0 ∧ ticked.ops 1 = [] ∧ ¬ ticked.holding 1 tickslock = true) ∧
    ((locking.cpu 1).running = some 0 ∧ locking.ops 1 = [] ∧ (locking.cpu 1).noff = 1 ∧ locking.holding 1 tickslock = true) ∧
    ((pausing.cpu 1).running = some 0 ∧ (pausing.ops 1).take 3 = [.pop, .setChan 0 (some ticks), .setState 0 .SLEEPING]) ∧
    .wake 0 ticks ∈ (pausing.todo (.inl 0)).take 12 ∧
    (pausing.after (List.replicate 15 1 ++ List.replicate 18 0)).todo (.inl 0) = (pausing.todo (.inl 0)).drop 12 := by
  decide +kernel

lemma reachable_pausing : pausing.Reachable := by
  obtain ⟨⟨hrun, hops, hfree⟩, ⟨hrun', hops', hnoff, hheld⟩, -⟩ := pausing_facts
  have hlocking : locking.Reachable := by
    unfold locking
    exact (reachable_ticked.calls (.acquire tickslock) hrun hops ⟨hfree, trivial⟩).after _
  have hone := hlocking.one_held hops' hnoff hheld
  have hsleep := (hlocking.calls (.sleep ticks tickslock) hrun' hops' ⟨hone, by simp [tickslock], trivial⟩).after (List.replicate 14 1)
  unfold pausing
  unfold locking at hsleep
  exact hsleep

/-- The interrupt wakes the process up. -/
theorem no_lost_wakeup_pause : pausing.Woken (pausing.after (List.replicate 15 1 ++ List.replicate 18 0)) 0 := by
  obtain ⟨-, -, ⟨hrun, htake⟩, hwake, hdone⟩ := pausing_facts
  have hops := (List.take_append_drop 3 (pausing.ops 1)).symm
  rw [htake] at hops
  exact no_lost_wakeup reachable_pausing hrun hops (List.take_append_drop 12 (pausing.todo (.inl 0))).symm hwake (steps_after _ _) hdone

/-! ### Sleeplocks -/

end Machine

/-- What is done before the spinlock of the sleeplock is let go. -/
def Op.Early (i : Fin nproc) (L : Nat) : Op → Prop
  | .intrGet | .intrOff | .push _ | .self _ | .pop => True
  | .checkFree lk | .swap lk | .mark lk => lk = .proc i
  | .checkHeld lk | .unmark lk => lk = .sleep L
  | _ => False

/-- Until then it is held. -/
lemma Fine.held_of_early {who : Option (Fin nproc)} {v : View} {l ops : List Op} {i : Fin nproc} {L : Nat} (hl : ∀ op ∈ l, op.Early i L)
    (h : Fine who v (l ++ .unlock (.sleep L) :: ops)) : .sleep L ∈ v.held ∨ v.taking = some (.sleep L) := by
  induction l generalizing v with
  | nil =>
    cases h with
    | unlock htaking => exact Or.inr htaking
  | cons op l ih =>
    have hop := hl op List.mem_cons_self
    have hrest : ∀ op ∈ l, op.Early i L := fun op hin => hl op (List.mem_cons_of_mem _ hin)
    cases h with
    | intrGet hfine =>
      cases hfine with
      | intrOff hfine =>
        cases hfine with
        | push _ hfine => exact (ih hrest hfine :)
    | intrOff hfine => exact (ih hrest hfine :)
    | push _ hfine => exact (ih hrest hfine :)
    | pop _ _ _ hfine => exact (ih hrest hfine :)
    | checkFree _ hfine => exact ih hrest hfine
    | swap _ _ _ hfine =>
      obtain rfl : _ = Lock.proc i := hop
      rcases ih hrest hfine with hheld | htaking
      · exact Or.inl hheld
      · cases htaking
    | mark htaking _ hfine =>
      obtain rfl : _ = Lock.proc i := hop
      rcases ih hrest hfine with hheld | htaking
      · exact Or.inl ((Finset.mem_insert.mp hheld).resolve_left (by simp))
      · cases htaking
    | checkHeld _ hfine => exact ih hrest hfine
    | unmark hlk =>
      obtain rfl : _ = Lock.sleep L := hop
      exact Or.inl hlk
    | self _ hfine => exact ih hrest hfine
    | _ => exact hop.elim

namespace Machine

variable {m m' : Machine} {V : Fin ncpu → View} {c c' : Fin ncpu} {op : Op} {new rest : List Op} {i j : Fin nproc} {ch : Chan} {L : Nat}

/-- The process has found the sleeplock taken, and has still its spinlock. -/
def Lulled (m : Machine) (i : Fin nproc) (L : Nat) : Prop := ∃ c l rest, (m.cpu c).running = some i ∧
  m.ops c = l ++ .unlock (.sleep L) :: .pop :: .setChan i (some (.sleep L)) :: .setState i .SLEEPING :: rest ∧ ∀ op ∈ l, op.Early i L

/-- No other CPU uses the sleeplock. -/
lemma Inv.alone (h : m.Inv V) {lk : Lock} (hlk : lk ∈ (V c).held ∨ (V c).taking = some lk) (hlk' : lk ∈ (V c').held) : c' = c := by
  have hmine := h.holder_eq hlk'
  rcases hlk with hheld | htaking
  · exact Option.some.inj (hmine.symm.trans (h.holder_eq hheld))
  · rw [((h.on c).taking lk htaking).2] at hmine
    cases hmine

lemma Inv.held_of_dropLock (h : m.Inv V) (hops : m.ops c = .dropLock L :: rest) :
    .sleep L ∈ (V c).held ∧ (V c).moved = none ∧ ∀ i, (m.cpu c).running ≠ some i → .wake i (.sleep L) ∈ rest := by
  have hf := h.fine c
  rw [hops] at hf
  cases hf with
  | dropLock hlk hmoved hwakes hfine => exact ⟨hlk, hmoved, hwakes⟩

lemma early_new (hop : op.Early i L) (hexec : m.exec c op = .ok (new, m')) : ∀ op' ∈ new, op'.Early i L := by
  have hnil : ∀ op' ∈ ([] : List Op), op'.Early i L := fun op' hin => by cases hin
  cases op with
  | intrGet =>
    cases hexec
    intro op' hin
    simp only [List.mem_cons, List.not_mem_nil, or_false] at hin
    rcases hin with rfl | rfl <;> trivial
  | intrOff =>
    cases hexec
    exact hnil
  | push old =>
    cases hexec
    exact hnil
  | pop =>
    obtain ⟨rfl, -⟩ := exec_pop hexec
    exact hnil
  | checkFree lk =>
    simp only [exec] at hexec
    split at hexec
    · cases hexec
    · cases hexec
      exact hnil
  | swap lk =>
    simp only [exec] at hexec
    split at hexec
    · cases hexec
      intro op' hin
      obtain rfl := List.mem_singleton.mp hin
      exact hop
    · cases hexec
      exact hnil
  | mark lk =>
    cases hexec
    exact hnil
  | checkHeld lk =>
    simp only [exec] at hexec
    split at hexec
    · cases hexec
    · cases hexec
      exact hnil
  | unmark lk =>
    cases hexec
    exact hnil
  | self who =>
    simp only [exec] at hexec
    split at hexec
    · cases hexec
      exact hnil
    · cases hexec
  | _ => exact hop.elim

/-- The code before goes on, access by access. -/
lemma early_step {l tail : List Op} (hl : ∀ op ∈ l, op.Early i L) (hops : op :: rest = l ++ .unlock (.sleep L) :: tail)
    (hexec : m.exec c op = .ok (new, m')) : (m'.cpu c).running = (m.cpu c).running ∧
      ((∃ l', new ++ rest = l' ++ .unlock (.sleep L) :: tail ∧ ∀ op ∈ l', op.Early i L) ∨ new ++ rest = tail) := by
  cases l with
  | nil =>
    cases hops
    cases hexec
    exact ⟨rfl, Or.inr rfl⟩
  | cons a l =>
    obtain ⟨rfl, rfl⟩ := List.cons.inj hops
    have hop := hl op List.mem_cons_self
    have hrest : ∀ op ∈ l, op.Early i L := fun op hin => hl op (List.mem_cons_of_mem _ hin)
    have hrun : (m'.cpu c).running = (m.cpu c).running := by
      rcases (changes_of_exec hexec).running with hsame | rfl | ⟨j, rfl⟩
      · exact hsame
      · exact hop.elim
      · exact hop.elim
    have hnew := early_new hop hexec
    refine ⟨hrun, Or.inl ⟨new ++ l, by rw [List.append_assoc]; rfl, fun op' hin => ?_⟩⟩
    rcases List.mem_append.mp hin with hin | hin
    · exact hnew op' hin
    · exact hrest op' hin

lemma Lulled.step (hl : m.Lulled i L) (h : m.Inv V) (hstep : m.Step m') : m'.Lulled i L ∨ m'.Dozes i (.sleep L) := by
  obtain ⟨c₀, l, tail, hrun, hops₀, hearly⟩ := hl
  have hf := h.fine c₀
  rw [hops₀] at hf
  have hmine := hf.held_of_early hearly
  rcases step_cases hstep with ⟨c, op, rest, new, m₁, hops, hexec, rfl⟩ | ⟨c, C, code, hC, rfl, hwhy⟩
  · by_cases hc : c₀ = c
    · subst hc
      obtain ⟨hrun', hor⟩ := early_step hearly (hops.symm.trans hops₀) hexec
      have hself : (m₁.setTodo (m.ctx c₀) (new ++ rest)).ops c₀ = new ++ rest := ops_of_self hrun'
      rcases hor with ⟨l', heq, hl'⟩ | heq
      · exact Or.inl ⟨c₀, l', tail, hrun'.trans hrun, hself.trans heq, hl'⟩
      · exact Or.inr (Or.inr ⟨c₀, tail, hrun'.trans hrun, Or.inl (hself.trans heq)⟩)
    · refine Or.inl ⟨c₀, l, tail, ?_, (h.ops_of_other hops hexec hc).trans hops₀, hearly⟩
      change (m₁.cpu c₀).running = some i
      rw [(changes_of_exec hexec).cpu c₀ hc]
      exact hrun
  · have hc : c₀ ≠ c := by
      rintro rfl
      rcases hwhy with hnil | hon
      · rw [hnil] at hops₀
        simp at hops₀
      · exact h.intr_of_held hmine hon
    refine Or.inl ⟨c₀, l, tail, ?_, (h.ops_of_code hc).trans hops₀, hearly⟩
    change (Function.update m.cpu c C c₀).running = some i
    rw [Function.update_of_ne hc]
    exact hrun

/-- A sleeplock becomes free when it is released only, and then who releases it is going to look at all others. -/
lemma released (hstep : m.Step m') (hlocked : m.slocked L = true) (hfree : m'.slocked L = false) :
    ∃ c rest, m.ops c = .dropLock L :: rest ∧ m'.todo (m.ctx c) = rest := by
  rcases step_cases hstep with ⟨c, op, rest, new, m₁, hops, hexec, rfl⟩ | ⟨c, C, code, hC, rfl, hwhy⟩
  · rcases (changes_of_exec hexec).slocked L with hsame | ⟨-, -, htrue⟩ | rfl
    · rw [hlocked] at hsame
      exact absurd (hsame.symm.trans hfree) (by simp)
    · exact absurd (htrue.symm.trans hfree) (by simp)
    · cases hexec
      exact ⟨c, rest, hops, Function.update_self _ _ _⟩
  · exact absurd (hlocked.symm.trans hfree) (by simp)

/-- The process has found the sleeplock taken, and is not forgotten: the sleeplock is taken still, or who has released it is
going to look at the process. -/
def Minded (m : Machine) (i : Fin nproc) (L : Nat) : Prop := m.Lulled i L ∧ m.slocked L = true ∨
  m.Dozes i (.sleep L) ∧ (m.slocked L = true ∨ ∃ x tail, m.Pending x i (.sleep L) tail)

lemma Minded.step (hm : m.Minded i L) (hb : m.Buried) (h : m.Inv V) (hstep : m.Step m') :
    m'.Minded i L ∨ m.state i = .SLEEPING ∧ m'.state i = .RUNNABLE := by
  rcases hm with ⟨hl, hlocked⟩ | ⟨hd, hor⟩
  · refine Or.inl ?_
    have hlocked' : m'.slocked L = true := by
      by_contra hfree
      obtain ⟨c, rest, hops, -⟩ := released hstep hlocked (by simpa using hfree)
      obtain ⟨c₀, l, tail, hrun, hops₀, hearly⟩ := hl
      have hf := h.fine c₀
      rw [hops₀] at hf
      obtain rfl := h.alone (hf.held_of_early hearly) (h.held_of_dropLock hops).1
      rw [hops] at hops₀
      cases l with
      | nil => cases hops₀
      | cons op l =>
        obtain ⟨rfl, -⟩ := List.cons.inj hops₀
        exact hearly _ List.mem_cons_self
    rcases hl.step h hstep with hl' | hd
    · exact Or.inl ⟨hl', hlocked'⟩
    · exact Or.inr ⟨hd, Or.inl hlocked'⟩
  · rcases hd.step h hstep with hd' | hwoken
    · rcases hor with hlocked | ⟨x, tail, hp⟩
      · by_cases hlocked' : m'.slocked L = true
        · exact Or.inl (Or.inr ⟨hd', Or.inl hlocked'⟩)
        · obtain ⟨c, rest, hops, htodo⟩ := released hstep hlocked (by simpa using hlocked')
          obtain ⟨hlk, hmoved, hwakes⟩ := h.held_of_dropLock hops
          have hother : (m.cpu c).running ≠ some i := by
            intro hrun
            rcases hd with ⟨hst, -⟩ | ⟨c₀, rest₀, hrun₀, hops₀⟩
            · rw [h.running_of_noff hrun hmoved] at hst
              cases hst
            · obtain rfl := h.single c₀ c i hrun₀ hrun
              rw [hops] at hops₀
              simp at hops₀
          obtain ⟨l₁, l₂, hsplit⟩ := List.append_of_mem (hwakes i hother)
          exact Or.inl (Or.inr ⟨hd', Or.inr ⟨m.ctx c, l₂, l₁, htodo.trans hsplit⟩⟩)
      · exact (hp.step hd hb h hstep).imp_left fun hp' => Or.inr ⟨hd', Or.inr ⟨x, tail, hp'⟩⟩
    · exact Or.inr hwoken

/-- The process has found the sleeplock taken. Whenever it is free after that, the process has been woken up, or who has
released the sleeplock is going to look at the process. -/
theorem sleeplock_wakes (h : m.Reachable) (hrun : (m.cpu c).running = some i)
    (hops : m.ops c = Smp.sleep i (.sleep L) (.sleep L) ++ rest) (hlocked : m.slocked L = true)
    (hsteps : Relation.ReflTransGen Step m m') (hfree : m'.slocked L = false) :
    (∃ x tail, m'.Pending x i (.sleep L) tail) ∨ m.Woken m' i := by
  have hstart : m.Minded i L := by
    refine Or.inl ⟨⟨c, Smp.myproc (some i) ++ Smp.acquire (.proc i) ++ [.checkHeld (.sleep L), .unmark (.sleep L)], _, hrun, hops, ?_⟩, hlocked⟩
    simp [Smp.myproc, Smp.acquire, pushOff, popOff, Op.Early]
  have hall : m'.Minded i L ∨ m.Woken m' i := by
    clear hfree
    induction hsteps with
    | refl => exact Or.inl hstart
    | @tail m₁ m₂ hsteps hstep ih =>
      rcases ih with hm | hwoken
      · have hreach := h.run hsteps
        obtain ⟨V, hinv⟩ := hreach.inv
        rcases hm.step hreach.buried hinv hstep with hm' | hst
        · exact Or.inl hm'
        · exact Or.inr ⟨m₁, m₂, hsteps, hstep, .refl, hst⟩
      · exact Or.inr (hwoken.tail hstep)
  refine hall.imp_left ?_
  rintro (⟨-, htaken⟩ | ⟨-, htaken | hp⟩)
  · rw [hfree] at htaken
    cases htaken
  · rw [hfree] at htaken
    cases htaken
  · exact hp

/-- The first process has made a second one. -/
@[irreducible] def forked : Machine :=
  (elsewhere.setTodo (.inr 0) (Call.code 0 (.fork 1))).after (List.replicate 11 1)

lemma reachable_forked : forked.Reachable := by
  obtain ⟨-, hops, hnoff, hrun⟩ := elsewhere_facts
  have hfree := reachable_elsewhere.none_held hops hnoff
  unfold forked
  exact (reachable_elsewhere.calls (.fork 1) hrun hops (hfree _)).after _

/-- It has taken a sleeplock. -/
@[irreducible] def taking : Machine := (forked.setTodo (.inr 0) (Call.code 0 (.acquiresleep 0))).after (List.replicate 17 1)

/-- It has taken a sleeplock, and the first CPU executes the second one. -/
@[irreducible] def taken : Machine :=
  (((forked.setTodo (.inr 0) (Call.code 0 (.acquiresleep 0))).after (List.replicate 17 1)).setTodo (.inl 0) scheduler).after
    (List.replicate 31 0)

/-- The second process finds the sleeplock taken. -/
@[irreducible] def contended : Machine := (taken.setTodo (.inr 1) (Call.code 1 (.acquiresleep 0))).after (List.replicate 7 0)

/-- It lets the spinlock go, and the first process releases the sleeplock. -/
@[irreducible] def given : Machine :=
  ((contended.after (List.replicate 14 0)).setTodo (.inr 0) (Call.code 0 (.releasesleep 0))).after (List.replicate 7 1)

lemma given_facts :
    (forked.ops 1 = [] ∧ (forked.cpu 1).noff = 0 ∧ (forked.cpu 1).running = some 0) ∧
    ((taking.cpu 0).running = none ∧ taking.ops 0 = []) ∧
    (taken.ops 0 = [] ∧ (taken.cpu 0).noff = 0 ∧ (taken.cpu 0).running = some 1) ∧
    ((contended.cpu 0).running = some 1 ∧ (contended.ops 0).take 27 = Smp.sleep 1 (.sleep 0) (.sleep 0) ∧ contended.slocked 0 = true) ∧
    ((contended.after (List.replicate 14 0)).ops 1 = [] ∧ ((contended.after (List.replicate 14 0)).cpu 1).noff = 0 ∧
      ((contended.after (List.replicate 14 0)).cpu 1).running = some 0) ∧
    given.slocked 0 = false := by
  decide +kernel

lemma reachable_taken : taken.Reachable := by
  obtain ⟨⟨hops, hnoff, hrun⟩, ⟨hnone, hidle⟩, -⟩ := given_facts
  have hfree := reachable_forked.none_held hops hnoff
  have htaking : taking.Reachable := by
    unfold taking
    exact (reachable_forked.calls (.acquiresleep 0) hrun hops hfree).after _
  have hround := (htaking.step (.round hnone hidle)).after (List.replicate 31 0)
  unfold taken
  unfold taking at hround
  exact hround

lemma reachable_contended : contended.Reachable := by
  obtain ⟨-, -, ⟨hops, hnoff, hrun⟩, -⟩ := given_facts
  have hfree := reachable_taken.none_held hops hnoff
  unfold contended
  exact (reachable_taken.calls (.acquiresleep 0) hrun hops hfree).after _

lemma steps_given : Relation.ReflTransGen Step contended given := by
  obtain ⟨-, -, -, -, ⟨hops, hnoff, hrun⟩, -⟩ := given_facts
  have hfree := (reachable_contended.after (List.replicate 14 0)).none_held hops hnoff
  unfold given
  exact ((steps_after contended (List.replicate 14 0)).tail (.call (.releasesleep 0) hrun hops fun j _ => hfree _)).trans
    (steps_after _ _)

theorem sleeplock_wakes_given : (∃ x tail, given.Pending x 1 (.sleep 0) tail) ∨ contended.Woken given 1 := by
  obtain ⟨-, -, -, ⟨hrun, htake, hlocked⟩, -, hfree⟩ := given_facts
  have hops := (List.take_append_drop 27 (contended.ops 0)).symm
  rw [htake] at hops
  exact sleeplock_wakes reachable_contended hrun hops hlocked steps_given hfree

end Machine

end FogOS.Kernel.Smp
