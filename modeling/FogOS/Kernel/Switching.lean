import FogOS.Kernel.Locking

/-!
# Locks and switching are safe

What every CPU knows, together, and what is left of processes and schedulers that do not run at the moment. It holds
after every access of any CPU and after every interrupt, so that none of the checks in `spinlock.c` and `sched` ever
fails.
-/

namespace FogOS.Kernel.Smp

namespace Machine

/-- No CPU executes the process. -/
def Parked (m : Machine) (i : Fin nproc) : Prop := ∀ c, (m.cpu c).running ≠ some i

/-- What the CPU knows is so. -/
structure On (m : Machine) (c : Fin ncpu) (v : View) : Prop where
  held : ∀ lk, lk ∈ v.held ↔ m.locked lk = true ∧ m.holder lk = some c
  taking : ∀ lk, v.taking = some lk → m.locked lk = true ∧ m.holder lk = none
  noff : (m.cpu c).noff = v.noff
  intena : (m.cpu c).intena = v.intena
  intr : (m.cpu c).intr = v.intr
  proc : (m.cpu c).proc = v.proc
  quiet : v.intr = true → v.Quiet (m.cpu c).running
  thread : ∀ i, (m.cpu c).running = some i → m.state i = v.moved.getD .RUNNING ∧ v.wants = m.wants i ∧ v.proc = some i ∧
    (v.moved ≠ none → .proc i ∈ v.held)
  sched : (m.cpu c).running = none → v.wants = none ∧ (v.moved = none ∨
    ∃ j, v.moved = some .RUNNING ∧ v.held = {.proc j} ∧ v.proc = some j ∧ m.state j = .RUNNING ∧ m.Parked j)

/-- What the CPUs know, each for itself, and that all can go on. -/
structure Inv (m : Machine) (V : Fin ncpu → View) : Prop where
  on : ∀ c, m.On c (V c)
  fine : ∀ c, Fine (m.cpu c).running (V c) (m.ops c)
  apart : ∀ c c' lk, (V c).taking = some lk → (V c').taking = some lk → c = c'
  single : ∀ c c' i, (m.cpu c).running = some i → (m.cpu c').running = some i → c = c'
  freed : ∀ lk, m.locked lk = false → m.holder lk = none
  parked : ∀ i, m.Parked i → m.state i = .RUNNABLE ∨ m.state i = .SLEEPING ∨ m.state i = .RUNNING →
    ∀ e, Fine (some i) (resumed i (m.wants i) e) (m.todo (.inr i))
  scheds : ∀ c i, (m.cpu c).running = some i → ∀ e, Fine none (returned i e) (m.todo (.inl c))
  entering : ∀ j, m.state j = .RUNNING → m.Parked j →
    ∃ c, (m.cpu c).running = none ∧ (V c).moved = some .RUNNING ∧ (V c).held = {.proc j}

variable {m m' : Machine} {V : Fin ncpu → View} {c c' : Fin ncpu} {v : View} {l : List Op} {i j : Fin nproc} {lk : Lock}

lemma ctx_ne (h : m.Inv V) (hne : c' ≠ c) : m.ctx c' ≠ m.ctx c := by
  intro heq
  unfold ctx at heq
  cases hc : (m.cpu c).running with
  | none =>
    cases hc' : (m.cpu c').running with
    | none =>
      rw [hc, hc'] at heq
      exact hne (Sum.inl.inj heq)
    | some i =>
      rw [hc, hc'] at heq
      cases heq
  | some i =>
    cases hc' : (m.cpu c').running with
    | none =>
      rw [hc, hc'] at heq
      cases heq
    | some j =>
      rw [hc, hc'] at heq
      cases heq
      exact hne (h.single c' c i hc' hc)

lemma ctx_of_running (h : (m'.cpu c).running = (m.cpu c).running) : m'.ctx c = m.ctx c := by
  unfold ctx
  rw [h]

lemma inl_ne_ctx (h : (m.cpu c').running ≠ none) : Sum.inl c' ≠ m.ctx c := by
  intro heq
  unfold ctx at heq
  cases hc : (m.cpu c).running with
  | none =>
    rw [hc] at heq
    cases heq
    exact h hc
  | some i =>
    rw [hc] at heq
    cases heq

lemma inr_ne_ctx (h : m.Parked i) : Sum.inr i ≠ m.ctx c := by
  intro heq
  unfold ctx at heq
  cases hc : (m.cpu c).running with
  | none =>
    rw [hc] at heq
    cases heq
  | some j =>
    rw [hc] at heq
    cases heq
    exact h c hc

/-- A step of the CPU `c` that keeps who runs on it. It changes locks that are free or its own, and the states of the
process that it executes and of processes that are not executed and of which it holds the lock. -/
lemma Inv.local (h : m.Inv V) (hcpu : ∀ c', c' ≠ c → m'.cpu c' = m.cpu c') (hrun : (m'.cpu c).running = (m.cpu c).running)
    (hlocks : ∀ lk, m'.locked lk = m.locked lk ∧ m'.holder lk = m.holder lk ∨
      (m.locked lk = false ∨ lk ∈ (V c).held ∨ (V c).taking = some lk) ∧ (m'.locked lk = false → m'.holder lk = none) ∧
        (m'.holder lk = none ∨ m'.holder lk = some c))
    (hstate : ∀ j, m'.state j = m.state j ∨ (m.cpu c).running = some j ∨ .proc j ∈ (V c).held ∧ m.Parked j)
    (hwants : ∀ j, m'.wants j = m.wants j ∨ (m.cpu c).running = some j ∨ m.Parked j)
    (htodo : ∀ x, m'.todo x = Function.update m.todo (m.ctx c) l x ∨ ∃ j, x = .inr j ∧ m.Parked j)
    (hparked : ∀ i, m.Parked i → m'.state i = .RUNNABLE ∨ m'.state i = .SLEEPING ∨ m'.state i = .RUNNING →
      ∀ e, Fine (some i) (resumed i (m'.wants i) e) (m'.todo (.inr i)))
    (hon : m'.On c v) (hfine : Fine (m.cpu c).running v l)
    (htaking : ∀ lk, v.taking = some lk → (V c).taking = some lk ∨ m.locked lk = false ∨ lk ∈ (V c).held)
    (henter : ∀ j, m'.state j = .RUNNING → m.Parked j → m.state j = .RUNNING ∨
      (m.cpu c).running = none ∧ v.moved = some .RUNNING ∧ v.held = {.proc j})
    (hmoved : (m.cpu c).running = none → (V c).moved = some .RUNNING → v.moved = some .RUNNING ∧ v.held = (V c).held) :
    m'.Inv (Function.update V c v) := by
  have hrunning : ∀ c', (m'.cpu c').running = (m.cpu c').running := by
    intro c'
    by_cases hc : c' = c
    · rw [hc, hrun]
    · rw [hcpu c' hc]
  have hpark : ∀ {i}, m'.Parked i → m.Parked i := fun hi c' => hrunning c' ▸ hi c'
  have hpark' : ∀ {i}, m.Parked i → m'.Parked i := fun hi c' => (hrunning c').symm ▸ hi c'
  have hheld : ∀ {c₁ lk}, lk ∈ (V c₁).held → m.locked lk = true ∧ m.holder lk = some c₁ := fun hlk => ((h.on _).held _).mp hlk
  have hctx : ∀ c', m'.ctx c' = m.ctx c' := fun c' => ctx_of_running (hrunning c')
  have hother : ∀ {c'}, c' ≠ c → Function.update V c v c' = V c' := fun hc => Function.update_of_ne hc _ _
  have hself : Function.update V c v c = v := Function.update_self _ _ _
  -- what another CPU knows
  have hlock : ∀ {c'}, c' ≠ c → ∀ lk, (m'.locked lk = true ∧ m'.holder lk = some c') ↔ (m.locked lk = true ∧ m.holder lk = some c') := by
    intro c' hc lk
    rcases hlocks lk with ⟨hlocked, hholder⟩ | ⟨hmine, -, hnew⟩
    · rw [hlocked, hholder]
    · have hold : ¬ (m.locked lk = true ∧ m.holder lk = some c') := by
        rintro ⟨hl, hh⟩
        rcases hmine with hfree | hheldc | htake
        · rw [hfree] at hl
          cases hl
        · rw [(hheld hheldc).2] at hh
          exact hc (Option.some.inj hh).symm
        · rw [((h.on c).taking lk htake).2] at hh
          cases hh
      refine iff_of_false ?_ hold
      rintro ⟨-, hh⟩
      rcases hnew with hnone | hsome
      · rw [hnone] at hh
        cases hh
      · rw [hsome] at hh
        exact hc (Option.some.inj hh).symm
  have hon' : ∀ c', c' ≠ c → m'.On c' (V c') := by
    intro c' hc
    have ho := h.on c'
    refine ⟨fun lk => (ho.held lk).trans (hlock hc lk).symm, fun lk htake => ?_, ?_, ?_, ?_, ?_, fun hon => hrunning c' ▸ ho.quiet hon, fun i hi => ?_, fun hnone => ?_⟩
    · obtain ⟨hl, hh⟩ := ho.taking lk htake
      rcases hlocks lk with ⟨hlocked, hholder⟩ | ⟨hmine, -, -⟩
      · rw [hlocked, hholder]
        exact ⟨hl, hh⟩
      · rcases hmine with hfree | hheldc | htake'
        · rw [hfree] at hl
          cases hl
        · rw [(hheld hheldc).2] at hh
          cases hh
        · exact absurd (h.apart c' c lk htake htake') hc
    · rw [hcpu c' hc, ho.noff]
    · rw [hcpu c' hc, ho.intena]
    · rw [hcpu c' hc, ho.intr]
    · rw [hcpu c' hc, ho.proc]
    · rw [hrunning] at hi
      obtain ⟨hst, hw, hproc, hmv⟩ := ho.thread i hi
      have hne : (m.cpu c).running ≠ some i := fun heq => hc (h.single c' c i hi heq)
      have hnot : ¬ m.Parked i := fun hp => hp c' hi
      refine ⟨?_, ?_, hproc, hmv⟩
      · rcases hstate i with hsame | hown | ⟨-, hp⟩
        · rw [hsame, hst]
        · exact absurd hown hne
        · exact absurd hp hnot
      · rcases hwants i with hsame | hown | hp
        · rw [hsame, hw]
        · exact absurd hown hne
        · exact absurd hp hnot
    · rw [hrunning] at hnone
      obtain ⟨hw, hor⟩ := ho.sched hnone
      refine ⟨hw, hor.imp_right ?_⟩
      rintro ⟨j, hmv, hlk, hproc, hst, hp⟩
      refine ⟨j, hmv, hlk, hproc, ?_, hpark' hp⟩
      rcases hstate j with hsame | hown | ⟨hlkc, -⟩
      · rw [hsame, hst]
      · exact absurd hown (hp c)
      · have hmine := (hheld hlkc).2
        have hin : .proc j ∈ (V c').held := by
          rw [hlk]
          exact Finset.mem_singleton_self _
        have hyours := (hheld hin).2
        rw [hmine] at hyours
        exact absurd (Option.some.inj hyours).symm hc
  refine ⟨fun c' => ?_, fun c' => ?_, fun c₁ c₂ lk h₁ h₂ => ?_, fun c₁ c₂ i h₁ h₂ => ?_, fun lk hlk => ?_, fun i hi => ?_,
    fun c' i hi e => ?_, fun j hst hp => ?_⟩
  · by_cases hc : c' = c
    · rw [hc, hself]
      exact hon
    · rw [hother hc]
      exact hon' c' hc
  · unfold ops
    rw [hctx, hrunning]
    by_cases hc : c' = c
    · rw [hc, hself]
      rcases htodo (m.ctx c) with hl | ⟨j, hj, hp⟩
      · rw [hl, Function.update_self]
        exact hfine
      · exact absurd hj.symm (inr_ne_ctx hp)
    · rw [hother hc]
      rcases htodo (m.ctx c') with hl | ⟨j, hj, hp⟩
      · rw [hl, Function.update_of_ne (ctx_ne h hc)]
        exact h.fine c'
      · exact absurd hj.symm (inr_ne_ctx hp)
  · -- two CPUs that take a lock
    have hapart : ∀ {c'}, c' ≠ c → v.taking = some lk → (V c').taking ≠ some lk := by
      intro c' hc htake htake'
      obtain ⟨hl, hh⟩ := (h.on c').taking lk htake'
      rcases htaking lk htake with hold | hfree | hheldc
      · exact hc (h.apart c' c lk htake' hold)
      · rw [hfree] at hl
        cases hl
      · rw [(hheld hheldc).2] at hh
        cases hh
    by_cases hc₁ : c₁ = c
    · by_cases hc₂ : c₂ = c
      · rw [hc₁, hc₂]
      · rw [hc₁, hself] at h₁
        rw [hother hc₂] at h₂
        exact absurd h₂ (hapart hc₂ h₁)
    · rw [hother hc₁] at h₁
      by_cases hc₂ : c₂ = c
      · rw [hc₂, hself] at h₂
        exact absurd h₁ (hapart hc₁ h₂)
      · rw [hother hc₂] at h₂
        exact h.apart c₁ c₂ lk h₁ h₂
  · rw [hrunning] at h₁ h₂
    exact h.single c₁ c₂ i h₁ h₂
  · rcases hlocks lk with ⟨hlocked, hholder⟩ | ⟨-, hfree, -⟩
    · rw [hholder]
      exact h.freed lk (hlocked ▸ hlk)
    · exact hfree hlk
  · exact hparked i (hpark hi)
  · rw [hrunning] at hi
    have hne : (m.cpu c').running ≠ none := by
      rw [hi]
      simp
    rcases htodo (.inl c') with hl | ⟨j, hj, -⟩
    · rw [hl, Function.update_of_ne (inl_ne_ctx hne)]
      exact h.scheds c' i hi e
    · cases hj
  · rcases henter j hst (hpark hp) with hold | ⟨hnone, hmv, hlk⟩
    · obtain ⟨c', hnone, hmv, hlk⟩ := h.entering j hold (hpark hp)
      refine ⟨c', by rw [hrunning, hnone], ?_⟩
      by_cases hc : c' = c
      · subst hc
        obtain ⟨hmv', hlk'⟩ := hmoved hnone hmv
        rw [hself]
        exact ⟨hmv', hlk'.trans hlk⟩
      · rw [hother hc]
        exact ⟨hmv, hlk⟩
    · refine ⟨c, by rw [hrunning, hnone], ?_⟩
      rw [hself]
      exact ⟨hmv, hlk⟩

/-- A step of the CPU `c` in which no lock, no state and no process is involved. -/
lemma Inv.quietly (h : m.Inv V) (hcpu : ∀ c', c' ≠ c → m'.cpu c' = m.cpu c') (hrun : (m'.cpu c).running = (m.cpu c).running)
    (hlocked : m'.locked = m.locked) (hholder : m'.holder = m.holder) (hstate : m'.state = m.state) (hwants : m'.wants = m.wants)
    (htodo : m'.todo = Function.update m.todo (m.ctx c) l) (hnoff : (m'.cpu c).noff = v.noff) (hintena : (m'.cpu c).intena = v.intena)
    (hintr : (m'.cpu c).intr = v.intr) (hproc : (m'.cpu c).proc = v.proc) (hheld : v.held = (V c).held)
    (htaking : v.taking = (V c).taking) (hmoved : v.moved = (V c).moved) (hw : v.wants = (V c).wants)
    (hp : v.proc = (V c).proc ∨ (m.cpu c).running = none ∧ v.moved = none) (hquiet : v.intr = true → v.Quiet (m.cpu c).running)
    (hfine : Fine (m.cpu c).running v l) : m'.Inv (Function.update V c v) := by
  have ho := h.on c
  have hpark : ∀ {i}, m.Parked i → m'.Parked i := by
    intro i hi c'
    by_cases hc : c' = c
    · rw [hc, hrun]
      exact hi c
    · rw [hcpu c' hc]
      exact hi c'
  refine h.local (l := l) hcpu hrun (fun lk => Or.inl ⟨by rw [hlocked], by rw [hholder]⟩) (fun j => Or.inl (by rw [hstate]))
    (fun j => Or.inl (by rw [hwants])) (fun x => Or.inl (by rw [htodo])) (fun i hi hst e => ?_) ?_ hfine
    (fun lk hlk => Or.inl (htaking ▸ hlk)) (fun j hst _ => Or.inl (by rwa [hstate] at hst)) fun _ hmv => ⟨hmoved.trans hmv, hheld⟩
  · rw [hwants, htodo, Function.update_of_ne (inr_ne_ctx hi)]
    rw [hstate] at hst
    exact h.parked i hi hst e
  · refine ⟨fun lk => ?_, fun lk hlk => ?_, hnoff, hintena, hintr, hproc, fun hon => hrun ▸ hquiet hon, fun i hi => ?_, fun hnone => ?_⟩
    · rw [hheld, hlocked, hholder]
      exact ho.held lk
    · rw [hlocked, hholder]
      exact ho.taking lk (htaking ▸ hlk)
    · rw [hrun] at hi
      obtain ⟨hst, hwi, hpi, hmv⟩ := ho.thread i hi
      refine ⟨?_, ?_, ?_, ?_⟩
      · rw [hstate, hmoved, hst]
      · rw [hw, hwants, hwi]
      · rcases hp with heq | ⟨hnone, -⟩
        · rw [heq, hpi]
        · rw [hi] at hnone
          cases hnone
      · rw [hmoved, hheld]
        exact hmv
    · rw [hrun] at hnone
      obtain ⟨hwn, hor⟩ := ho.sched hnone
      refine ⟨hw.trans hwn, ?_⟩
      rcases hor with hmv | ⟨j, hmv, hlk, hpj, hst, hpk⟩
      · exact Or.inl (hmoved.trans hmv)
      · rcases hp with heq | ⟨-, hmv'⟩
        · exact Or.inr ⟨j, hmoved.trans hmv, hheld.trans hlk, heq.trans hpj, by rw [hstate, hst], hpark hpk⟩
        · exact Or.inl hmv'

lemma setTodo_todo (m : Machine) (x : Ctx) (l : List Op) : (m.setTodo x l).todo = Function.update m.todo x l := rfl

/-- What the CPU has still to do is all that changes. -/
lemma Inv.goesOn (h : m.Inv V) (hfine : Fine (m.cpu c).running (V c) l) : ∃ V', (m.setTodo (m.ctx c) l).Inv V' := by
  have ho := h.on c
  exact ⟨_, h.quietly (c := c) (v := V c) (l := l) (fun _ _ => rfl) rfl rfl rfl rfl rfl rfl ho.noff ho.intena ho.intr ho.proc rfl rfl rfl rfl
    (Or.inl rfl) ho.quiet hfine⟩

/-- What no CPU looks at changes. -/
lemma Inv.ofFields (h : m.Inv V) (hcpu : m'.cpu = m.cpu) (hlocked : m'.locked = m.locked) (hholder : m'.holder = m.holder)
    (hstate : m'.state = m.state) (hwants : m'.wants = m.wants) (htodo : m'.todo = m.todo) (hfine : Fine (m.cpu c).running (V c) l) :
    ∃ V', (m'.setTodo (m.ctx c) l).Inv V' := by
  have ho := h.on c
  have hcpu' : ∀ c', (m'.setTodo (m.ctx c) l).cpu c' = m.cpu c' := fun c' => congrFun hcpu c'
  refine ⟨_, h.quietly (c := c) (v := V c) (l := l) (fun c' _ => hcpu' c') ?_ hlocked hholder hstate hwants ?_ ?_ ?_ ?_ ?_ rfl rfl rfl rfl
    (Or.inl rfl) ho.quiet hfine⟩
  · rw [hcpu']
  · rw [setTodo_todo, htodo]
  · rw [hcpu', ho.noff]
  · rw [hcpu', ho.intena]
  · rw [hcpu', ho.intr]
  · rw [hcpu', ho.proc]

/-- Fields of the CPU change. -/
lemma Inv.ofCpu (h : m.Inv V) {C : Cpu} (hrun : C.running = (m.cpu c).running) (hnoff : C.noff = v.noff) (hintena : C.intena = v.intena)
    (hintr : C.intr = v.intr) (hproc : C.proc = v.proc) (hheld : v.held = (V c).held) (htaking : v.taking = (V c).taking)
    (hmoved : v.moved = (V c).moved) (hw : v.wants = (V c).wants) (hp : v.proc = (V c).proc ∨ (m.cpu c).running = none ∧ v.moved = none)
    (hquiet : v.intr = true → v.Quiet (m.cpu c).running) (hfine : Fine (m.cpu c).running v l) :
    ∃ V', ((m.setCpu c C).setTodo (m.ctx c) l).Inv V' := by
  have hself : ((m.setCpu c C).setTodo (m.ctx c) l).cpu c = C := Function.update_self ..
  refine ⟨_, h.quietly (c := c) (v := v) (l := l) (fun c' hc => Function.update_of_ne hc _ _) ?_ rfl rfl rfl rfl rfl ?_ ?_ ?_ ?_ hheld
    htaking hmoved hw hp hquiet hfine⟩
  · rw [hself, hrun]
  · rw [hself, hnoff]
  · rw [hself, hintena]
  · rw [hself, hintr]
  · rw [hself, hproc]

/-- The CPU does something to the lock `lk`, which is free or its own. -/
lemma Inv.relock (h : m.Inv V) (lk : Lock) (locked : Bool) (holder : Option (Fin ncpu)) (H : Finset Lock) (T : Option Lock)
    (hmine : m.locked lk = false ∨ lk ∈ (V c).held ∨ (V c).taking = some lk) (hfree : locked = false → holder = none)
    (hholder : holder = none ∨ holder = some c) (hlk : lk ∈ H ↔ locked = true ∧ holder = some c)
    (hH : ∀ lk', lk' ≠ lk → (lk' ∈ H ↔ lk' ∈ (V c).held)) (hT : ∀ lk', T = some lk' → lk' = lk ∧ locked = true ∧ holder = none)
    (hnew : T = some lk → (V c).taking = some lk ∨ m.locked lk = false ∨ lk ∈ (V c).held) (hintr : (V c).intr = false)
    (hmoved : ∀ st, (V c).moved = some st → ∃ i, (m.cpu c).running = some i ∧ (lk ≠ .proc i ∨ lk ∈ H))
    (hfine : Fine (m.cpu c).running { V c with held := H, taking := T } l) :
    ∃ V', ({ m with locked := Function.update m.locked lk locked, holder := Function.update m.holder lk holder }.setTodo
      (m.ctx c) l).Inv V' := by
  have ho := h.on c
  have hself : ∀ {α : Type} (f : Lock → α) (x : α), Function.update f lk x lk = x := fun f x => Function.update_self _ _ _
  have hother : ∀ {α : Type} (f : Lock → α) (x : α) {lk'}, lk' ≠ lk → Function.update f lk x lk' = f lk' :=
    fun f x _ hne => Function.update_of_ne hne _ _
  refine ⟨_, h.local (c := c) (v := { V c with held := H, taking := T }) (l := l) (fun _ _ => rfl) rfl (fun lk' => ?_) (fun _ => Or.inl rfl)
    (fun _ => Or.inl rfl) (fun _ => Or.inl rfl) (fun i hi hst e => ?_) ?_ hfine (fun lk' hlk' => ?_) (fun _ hst _ => Or.inl hst)
    fun hnone hmv => ?_⟩
  · by_cases hne : lk' = lk
    · subst hne
      refine Or.inr ⟨hmine, ?_, ?_⟩
      · change Function.update m.locked lk' locked lk' = false → Function.update m.holder lk' holder lk' = none
        rw [hself, hself]
        exact hfree
      · change Function.update m.holder lk' holder lk' = none ∨ Function.update m.holder lk' holder lk' = some c
        rw [hself]
        exact hholder
    · exact Or.inl ⟨hother _ _ hne, hother _ _ hne⟩
  · rw [setTodo_todo, Function.update_of_ne (inr_ne_ctx hi)]
    exact h.parked i hi hst e
  · refine ⟨fun lk' => ?_, fun lk' hlk' => ?_, ho.noff, ho.intena, ho.intr, ho.proc, fun hon => ?_, fun i hi => ?_, fun hnone => ?_⟩
    · change lk' ∈ H ↔ Function.update m.locked lk locked lk' = true ∧ Function.update m.holder lk holder lk' = some c
      by_cases hne : lk' = lk
      · rw [hne, hself, hself]
        exact hlk
      · rw [hother _ _ hne, hother _ _ hne]
        exact (hH lk' hne).trans (ho.held lk')
    · obtain ⟨rfl, hl, hh⟩ := hT lk' hlk'
      change Function.update m.locked lk' locked lk' = true ∧ Function.update m.holder lk' holder lk' = none
      rw [hself, hself]
      exact ⟨hl, hh⟩
    · exact absurd (hintr.symm.trans hon) (by simp)
    · obtain ⟨hst, hw, hproc, hmv⟩ := ho.thread i hi
      refine ⟨hst, hw, hproc, fun hne => ?_⟩
      obtain ⟨st, hst'⟩ := Option.ne_none_iff_exists'.mp hne
      obtain ⟨i', hi', hor⟩ := hmoved st hst'
      obtain rfl : i = i' := Option.some.inj (hi.symm.trans hi')
      by_cases heq : Lock.proc i = lk
      · exact heq ▸ hor.resolve_left fun hne' => hne' heq.symm
      · exact (hH _ heq).mpr (hmv hne)
    · obtain ⟨hw, hor⟩ := ho.sched hnone
      refine ⟨hw, Or.inl ?_⟩
      rcases hor with hmv | ⟨j, hmv, -⟩
      · exact hmv
      · obtain ⟨i, hi, -⟩ := hmoved _ hmv
        exact absurd (hnone.symm.trans hi) (by simp)
  · obtain ⟨rfl, -⟩ := hT lk' hlk'
    exact hnew hlk'
  · obtain ⟨i, hi, -⟩ := hmoved _ hmv
    exact absurd (hnone.symm.trans hi) (by simp)

/-- Only the CPU that holds the lock is named in it. -/
lemma update_holder (m : Machine) (lk : Lock) : Function.update m.holder lk (m.holder lk) = m.holder := Function.update_eq_self _ _

lemma update_locked (m : Machine) (lk : Lock) : Function.update m.locked lk (m.locked lk) = m.locked := Function.update_eq_self _ _

lemma Inv.swap (h : m.Inv V) (hlocked : m.locked lk = false) (hintr : (V c).intr = false)
    (hmoved : (V c).moved = none) (hfine : Fine (m.cpu c).running { V c with taking := some lk } l) :
    ∃ V', ({ m with locked := Function.update m.locked lk true }.setTodo (m.ctx c) l).Inv V' := by
  have hfree := h.freed lk hlocked
  have hnot : lk ∉ (V c).held := by
    intro hlk
    rw [((h.on c).held lk).mp hlk |>.1] at hlocked
    cases hlocked
  have hstep := h.relock (c := c) lk true none ((V c).held) (some lk) (l := l) (Or.inl hlocked)
    (fun _ => rfl) (Or.inl rfl) (iff_of_false hnot (by simp)) (fun _ _ => Iff.rfl) (fun lk' hlk' => ⟨(Option.some.inj hlk').symm, rfl, rfl⟩)
    (fun _ => Or.inr (Or.inl hlocked)) hintr (fun st hst => absurd (hmoved.symm.trans hst) (by simp)) hfine
  rw [← hfree, update_holder] at hstep
  exact hstep

lemma Inv.mark (h : m.Inv V) (htaking : (V c).taking = some lk) (hintr : (V c).intr = false) (hmoved : (V c).moved = none)
    (hfine : Fine (m.cpu c).running { V c with held := insert lk (V c).held, taking := none } l) :
    ∃ V', ({ m with holder := Function.update m.holder lk (some c) }.setTodo (m.ctx c) l).Inv V' := by
  obtain ⟨hlocked, -⟩ := (h.on c).taking lk htaking
  have hstep := h.relock (c := c) lk true (some c) (insert lk (V c).held) none (l := l)
    (Or.inr (Or.inr htaking)) (fun hl => by cases hl) (Or.inr rfl) (iff_of_true (Finset.mem_insert_self _ _) ⟨rfl, rfl⟩)
    (fun lk' hne => by simp [hne]) (fun lk' hlk' => by cases hlk') (fun hnone => by cases hnone) hintr
    (fun st hst => absurd (hmoved.symm.trans hst) (by simp)) hfine
  rw [← hlocked, update_locked] at hstep
  exact hstep

lemma Inv.unmark (h : m.Inv V) (hlk : lk ∈ (V c).held) (hintr : (V c).intr = false)
    (hmoved : ∀ st, (V c).moved = some st → ∃ i, (m.cpu c).running = some i ∧ lk ≠ .proc i)
    (hfine : Fine (m.cpu c).running { V c with held := (V c).held.erase lk, taking := some lk } l) :
    ∃ V', ({ m with holder := Function.update m.holder lk none }.setTodo (m.ctx c) l).Inv V' := by
  obtain ⟨hlocked, -⟩ := ((h.on c).held lk).mp hlk
  have hstep := h.relock (c := c) lk true none ((V c).held.erase lk) (some lk) (l := l)
    (Or.inr (Or.inl hlk)) (fun _ => rfl) (Or.inl rfl) (iff_of_false (Finset.notMem_erase _ _) (by simp)) (fun lk' hne => by simp [hne])
    (fun lk' hlk' => ⟨(Option.some.inj hlk').symm, rfl, rfl⟩) (fun _ => Or.inr (Or.inr hlk)) hintr
    (fun st hst => (hmoved st hst).imp fun i hi => ⟨hi.1, Or.inl hi.2⟩) hfine
  rw [← hlocked, update_locked] at hstep
  exact hstep

lemma Inv.unlock (h : m.Inv V) (htaking : (V c).taking = some lk) (hintr : (V c).intr = false)
    (hmoved : ∀ st, (V c).moved = some st → ∃ i, (m.cpu c).running = some i)
    (hfine : Fine (m.cpu c).running { V c with taking := none } l) :
    ∃ V', ({ m with locked := Function.update m.locked lk false }.setTodo (m.ctx c) l).Inv V' := by
  obtain ⟨-, hholder⟩ := (h.on c).taking lk htaking
  have hnot : lk ∉ (V c).held := by
    intro hlk
    rw [((h.on c).held lk).mp hlk |>.2] at hholder
    cases hholder
  have hstep := h.relock (c := c) lk false none ((V c).held) none (l := l)
    (Or.inr (Or.inr htaking)) (fun _ => rfl) (Or.inl rfl) (iff_of_false hnot (by simp)) (fun _ _ => Iff.rfl) (fun lk' hlk' => by cases hlk')
    (fun hnone => by cases hnone) hintr (fun st hst => ?_) hfine
  · rw [← hholder, update_holder] at hstep
    exact hstep
  · obtain ⟨i, hi⟩ := hmoved st hst
    refine ⟨i, hi, Or.inl ?_⟩
    rintro rfl
    exact hnot (((h.on c).thread i hi).2.2.2 (by simp [hst]))

/-! ### States -/

/-- The state of a process that is executed is known to who has its lock. -/
lemma Inv.parked_of_held (h : m.Inv V) (hlk : .proc j ∈ (V c).held) (hmoved : (V c).moved = none) (hst : m.state j ≠ .RUNNING) :
    m.Parked j := by
  intro c' hj
  obtain ⟨hst', -, -, hmv⟩ := (h.on c').thread j hj
  cases hmv' : (V c').moved with
  | none =>
    rw [hmv'] at hst'
    exact hst hst'
  | some st =>
    have hmine := (((h.on c).held _).mp hlk).2
    have hyours := (((h.on c').held _).mp (hmv (by simp [hmv']))).2
    rw [hmine] at hyours
    cases hyours
    rw [hmoved] at hmv'
    cases hmv'

lemma Inv.setState (h : m.Inv V) {st : ProcState} (hrun : (m.cpu c).running = some i) (hlk : .proc i ∈ (V c).held)
    (hintr : (V c).intr = false) (hfine : Fine (m.cpu c).running { V c with moved := some st } l) :
    ∃ V', ((m.setState i st).setTodo (m.ctx c) l).Inv V' := by
  have ho := h.on c
  have hself : (m.setState i st).state i = st := Function.update_self _ _ _
  have hother : ∀ {j}, j ≠ i → (m.setState i st).state j = m.state j := fun hj => Function.update_of_ne hj _ _
  have hne : ∀ {j}, m.Parked j → j ≠ i := by
    rintro j hj rfl
    exact hj c hrun
  refine ⟨_, h.local (c := c) (v := { V c with moved := some st }) (l := l) (fun _ _ => rfl) rfl (fun _ => Or.inl ⟨rfl, rfl⟩) (fun j => ?_)
    (fun _ => Or.inl rfl) (fun _ => Or.inl rfl) (fun j hj hst e => ?_) ?_ hfine (fun lk' hlk' => Or.inl hlk') (fun j hst hj => Or.inl ?_)
    fun hnone => absurd (hnone.symm.trans hrun) (by simp)⟩
  · by_cases hj : j = i
    · exact Or.inr (Or.inl (hj ▸ hrun))
    · exact Or.inl (hother hj)
  · rw [setTodo_todo, Function.update_of_ne (inr_ne_ctx hj)]
    exact h.parked j hj (hother (hne hj) ▸ hst) e
  · refine ⟨ho.held, ho.taking, ho.noff, ho.intena, ho.intr, ho.proc, fun hon => ?_, fun j hj => ?_, fun hnone => ?_⟩
    · exact absurd (hintr.symm.trans hon) (by simp)
    · obtain rfl : i = j := Option.some.inj (hrun.symm.trans hj)
      exact ⟨hself, (ho.thread i hrun).2.1, (ho.thread i hrun).2.2.1, fun _ => hlk⟩
    · exact absurd (hnone.symm.trans hrun) (by simp)
  · exact (hother (hne hj)).symm.trans hst

/-- The state of a process that no CPU executes. -/
lemma Inv.setOther (h : m.Inv V) {st : ProcState} (hlk : .proc j ∈ (V c).held) (hmoved : (V c).moved = none) (hpark : m.Parked j)
    {m' : Machine} (hstate : m'.state = Function.update m.state j st) (hcpu : m'.cpu = m.cpu) (hlocked : m'.locked = m.locked)
    (hholder : m'.holder = m.holder) (hwants : ∀ k, k ≠ j → m'.wants k = m.wants k) (htodo : ∀ x, x ≠ .inr j → m'.todo x = m.todo x)
    (hst : st ≠ .RUNNING)
    (hready : st = .RUNNABLE ∨ st = .SLEEPING → ∀ e, Fine (some j) (resumed j (m'.wants j) e) (m'.todo (.inr j)))
    (hfine : Fine (m.cpu c).running (V c) l) : ∃ V', (m'.setTodo (m.ctx c) l).Inv V' := by
  have ho := h.on c
  have hself : m'.state j = st := by rw [hstate, Function.update_self]
  have hother : ∀ {k}, k ≠ j → m'.state k = m.state k := by
    intro k hk
    rw [hstate, Function.update_of_ne hk]
  have hne : ∀ {c' k}, (m.cpu c').running = some k → k ≠ j := by
    rintro c' k hk rfl
    exact hpark c' hk
  have hpark' : ∀ {k}, m.Parked k → (m'.setTodo (m.ctx c) l).Parked k := by
    intro k hk c'
    change (m'.cpu c').running ≠ some k
    rw [hcpu]
    exact hk c'
  refine ⟨_, h.local (c := c) (v := V c) (l := l) (fun c' _ => ?_) ?_ (fun lk => Or.inl ?_) (fun k => ?_) (fun k => ?_) (fun x => ?_)
    (fun k hk hkst e => ?_) ?_ hfine (fun lk' hlk' => Or.inl hlk') (fun k hkst hk => Or.inl ?_) fun _ hmv => ⟨hmv, rfl⟩⟩
  · change m'.cpu c' = m.cpu c'
    rw [hcpu]
  · change (m'.cpu c).running = (m.cpu c).running
    rw [hcpu]
  · change m'.locked lk = m.locked lk ∧ m'.holder lk = m.holder lk
    rw [hlocked, hholder]
    exact ⟨rfl, rfl⟩
  · change m'.state k = m.state k ∨ _
    by_cases hk : k = j
    · subst hk
      exact Or.inr (Or.inr ⟨hlk, hpark⟩)
    · exact Or.inl (hother hk)
  · change m'.wants k = m.wants k ∨ _
    by_cases hk : k = j
    · subst hk
      exact Or.inr (Or.inr hpark)
    · exact Or.inl (hwants k hk)
  · by_cases hx : x = .inr j
    · exact Or.inr ⟨j, hx, hpark⟩
    · refine Or.inl ?_
      change Function.update m'.todo (m.ctx c) l x = _
      by_cases hc : x = m.ctx c
      · rw [hc, Function.update_self, Function.update_self]
      · rw [Function.update_of_ne hc, Function.update_of_ne hc, htodo x hx]
  · change m'.state k = _ ∨ m'.state k = _ ∨ m'.state k = _ at hkst
    rw [setTodo_todo, Function.update_of_ne (inr_ne_ctx hk)]
    change Fine (some k) (resumed k (m'.wants k) e) (m'.todo (.inr k))
    by_cases hkj : k = j
    · subst hkj
      rw [hself] at hkst
      exact hready (hkst.imp_right fun hor => hor.resolve_right hst) e
    · rw [hother hkj] at hkst
      rw [hwants k hkj, htodo _ fun heq => hkj (Sum.inr.inj heq)]
      exact h.parked k hk hkst e
  · refine ⟨fun lk => ?_, fun lk htake => ?_, ?_, ?_, ?_, ?_, fun hon => ?_, fun k hk => ?_, fun hnone => ⟨?_, Or.inl hmoved⟩⟩
    · change lk ∈ (V c).held ↔ m'.locked lk = true ∧ m'.holder lk = some c
      rw [hlocked, hholder]
      exact ho.held lk
    · change m'.locked lk = true ∧ m'.holder lk = none
      rw [hlocked, hholder]
      exact ho.taking lk htake
    · change (m'.cpu c).noff = _
      rw [hcpu, ho.noff]
    · change (m'.cpu c).intena = _
      rw [hcpu, ho.intena]
    · change (m'.cpu c).intr = _
      rw [hcpu, ho.intr]
    · change (m'.cpu c).proc = _
      rw [hcpu, ho.proc]
    · change View.Quiet (m'.cpu c).running _
      rw [hcpu]
      exact ho.quiet hon
    · change (m'.cpu c).running = some k at hk
      rw [hcpu] at hk
      obtain ⟨hkst, hkw, hkp, hkm⟩ := ho.thread k hk
      refine ⟨(hother (hne hk)).trans hkst, hkw.trans (hwants k (hne hk)).symm, hkp, hkm⟩
    · change (m'.cpu c).running = none at hnone
      rw [hcpu] at hnone
      exact (ho.sched hnone).1
  · change m'.state k = _ at hkst
    by_cases hkj : k = j
    · subst hkj
      exact absurd (hself.symm.trans hkst) hst
    · exact (hother hkj).symm.trans hkst

/-- The scheduler has found a process to run. -/
lemma Inv.choose (h : m.Inv V) (hrun : (m.cpu c).running = none) (hlk : (V c).held = {.proc j}) (hintr : (V c).intr = false)
    (hmoved : (V c).moved = none) (hst : m.state j = .RUNNABLE)
    (hfine : Fine none { V c with moved := some .RUNNING, proc := some j } l) :
    ∃ V', (((m.setState j .RUNNING).setCpu c { m.cpu c with proc := some j }).setTodo (m.ctx c) l).Inv V' := by
  have ho := h.on c
  have hmem : Lock.proc j ∈ (V c).held := by simp [hlk]
  have hpark : m.Parked j := h.parked_of_held hmem hmoved (by rw [hst]; simp)
  obtain ⟨m', hm'⟩ : ∃ m', m' = ((m.setState j .RUNNING).setCpu c { m.cpu c with proc := some j }).setTodo (m.ctx c) l := ⟨_, rfl⟩
  rw [← hm']
  have hstate : m'.state = Function.update m.state j .RUNNING := hm' ▸ rfl
  have hcpu : m'.cpu = Function.update m.cpu c { m.cpu c with proc := some j } := hm' ▸ rfl
  have hcpuc : m'.cpu c = { m.cpu c with proc := some j } := by rw [hcpu, Function.update_self]
  have hrunning : ∀ c', (m'.cpu c').running = (m.cpu c').running := by
    intro c'
    by_cases hc : c' = c
    · rw [hc, hcpuc]
    · rw [hcpu, Function.update_of_ne hc]
  have hother : ∀ {k}, k ≠ j → m'.state k = m.state k := by
    intro k hk
    rw [hstate, Function.update_of_ne hk]
  have hself : m'.state j = .RUNNING := by rw [hstate, Function.update_self]
  have htodo : m'.todo = Function.update m.todo (m.ctx c) l := hm' ▸ rfl
  have hwants : m'.wants = m.wants := hm' ▸ rfl
  have hlocked : m'.locked = m.locked := hm' ▸ rfl
  have hholder : m'.holder = m.holder := hm' ▸ rfl
  have hpark' : m'.Parked j := fun c' => hrunning c' ▸ hpark c'
  refine ⟨_, h.local (c := c) (v := { V c with moved := some .RUNNING, proc := some j }) (l := l) (fun c' hc => ?_) (hrunning c)
    (fun lk => Or.inl ⟨by rw [hlocked], by rw [hholder]⟩) (fun k => ?_) (fun k => Or.inl (by rw [hwants])) (fun x => Or.inl (by rw [htodo]))
    (fun k hk hkst e => ?_) ?_ (hrun ▸ hfine) (fun lk htake => Or.inl htake) (fun k hkst hk => ?_) fun _ hmv => ?_⟩
  · rw [hcpu, Function.update_of_ne hc]
  · by_cases hk : k = j
    · subst hk
      exact Or.inr (Or.inr ⟨hmem, hpark⟩)
    · exact Or.inl (hother hk)
  · rw [hwants, htodo, Function.update_of_ne (inr_ne_ctx hk)]
    by_cases hkj : k = j
    · subst hkj
      exact h.parked k hk (Or.inl hst) e
    · exact h.parked k hk (hother hkj ▸ hkst) e
  · refine ⟨fun lk => ?_, fun lk htake => ?_, ?_, ?_, ?_, ?_, fun hon => ?_, fun k hk => ?_, fun hnone => ⟨?_, Or.inr ⟨j, rfl, hlk, rfl, hself, hpark'⟩⟩⟩
    · rw [hlocked, hholder]
      exact ho.held lk
    · rw [hlocked, hholder]
      exact ho.taking lk htake
    · rw [hcpuc]
      exact ho.noff
    · rw [hcpuc]
      exact ho.intena
    · rw [hcpuc]
      exact ho.intr
    · rw [hcpuc]
    · exact absurd (hintr.symm.trans hon) (by simp)
    · rw [hrunning, hrun] at hk
      cases hk
    · exact (ho.sched hrun).1
  · by_cases hkj : k = j
    · subst hkj
      exact Or.inr ⟨hrun, rfl, hlk⟩
    · exact Or.inl ((hother hkj).symm.trans hkst)
  · exact absurd (hmoved.symm.trans hmv) (by simp)

/-! ### Switching -/

/-- Another one runs on the CPU `c`, with what the CPU held before. -/
lemma Inv.switch (h : m.Inv V) {r : Option (Fin nproc)} (hm' : m' = (m.setCpu c { m.cpu c with running := r }).setTodo (m.ctx c) l)
    (hr : ∀ k, r = some k → m.Parked k ∧ .proc k ∈ (V c).held) (hheld : v.held = (V c).held) (htaking : v.taking = none)
    (hnoff : v.noff = (V c).noff) (hintena : v.intena = (V c).intena) (hintr : v.intr = false) (hintr' : (V c).intr = false)
    (hproc : v.proc = (V c).proc)
    (hthread : ∀ k, r = some k → m.state k = v.moved.getD .RUNNING ∧ v.wants = m.wants k ∧ v.proc = some k ∧ (v.moved ≠ none → .proc k ∈ v.held))
    (hsched : r = none → v.wants = none ∧ v.moved = none) (hfine : Fine r v (m'.ops c))
    (hparked : ∀ k, m'.Parked k → m.state k = .RUNNABLE ∨ m.state k = .SLEEPING ∨ m.state k = .RUNNING →
      ∀ e, Fine (some k) (resumed k (m.wants k) e) (m'.todo (.inr k)))
    (hscheds : ∀ k, r = some k → ∀ e, Fine none (returned k e) (m'.todo (.inl c)))
    (henter : ∀ k, m.state k = .RUNNING → m'.Parked k →
      ∃ c', c' ≠ c ∧ (m.cpu c').running = none ∧ (V c').moved = some .RUNNING ∧ (V c').held = {.proc k}) :
    m'.Inv (Function.update V c v) := by
  have ho := h.on c
  have hcpu : m'.cpu = Function.update m.cpu c { m.cpu c with running := r } := hm' ▸ rfl
  have htodo : m'.todo = Function.update m.todo (m.ctx c) l := hm' ▸ rfl
  have hstate : m'.state = m.state := hm' ▸ rfl
  have hwants : m'.wants = m.wants := hm' ▸ rfl
  have hlocked : m'.locked = m.locked := hm' ▸ rfl
  have hholder : m'.holder = m.holder := hm' ▸ rfl
  have hcpuc : m'.cpu c = { m.cpu c with running := r } := by rw [hcpu, Function.update_self]
  have hrun : (m'.cpu c).running = r := by rw [hcpuc]
  have hcpu' : ∀ {c'}, c' ≠ c → m'.cpu c' = m.cpu c' := by
    intro c' hc
    rw [hcpu, Function.update_of_ne hc]
  have hops : ∀ {c'}, c' ≠ c → m'.ops c' = m.ops c' := by
    intro c' hc
    unfold ops
    rw [htodo, ctx_of_running (congrArg Cpu.running (hcpu' hc)), Function.update_of_ne (ctx_ne h hc)]
  have hother : ∀ {c'}, c' ≠ c → Function.update V c v c' = V c' := fun hc => Function.update_of_ne hc _ _
  have hself : Function.update V c v c = v := Function.update_self _ _ _
  refine ⟨fun c' => ?_, fun c' => ?_, fun c₁ c₂ lk h₁ h₂ => ?_, fun c₁ c₂ k h₁ h₂ => ?_, fun lk hlk' => ?_, fun k hk hkst e => ?_,
    fun c' k hk e => ?_, fun k hkst hk => ?_⟩
  · by_cases hc : c' = c
    · subst hc
      rw [hself]
      refine ⟨fun lk => ?_, fun lk htake => ?_, ?_, ?_, ?_, ?_, fun hon => ?_, fun k hk => ?_, fun hnone => ?_⟩
      · rw [hlocked, hholder, hheld]
        exact ho.held lk
      · rw [htaking] at htake
        cases htake
      · rw [hcpuc, hnoff]
        exact ho.noff
      · rw [hcpuc, hintena]
        exact ho.intena
      · rw [hcpuc, hintr]
        exact ho.intr.trans hintr'
      · rw [hcpuc, hproc]
        exact ho.proc
      · rw [hintr] at hon
        cases hon
      · rw [hstate, hwants]
        exact hthread k (hrun.symm.trans hk)
      · obtain ⟨hw, hmv⟩ := hsched (hrun.symm.trans hnone)
        exact ⟨hw, Or.inl hmv⟩
    · have ho' := h.on c'
      rw [hother hc]
      refine ⟨fun lk => ?_, fun lk htake => ?_, ?_, ?_, ?_, ?_, fun hon => ?_, fun k hk => ?_, fun hk => ?_⟩
      · rw [hlocked, hholder]
        exact ho'.held lk
      · rw [hlocked, hholder]
        exact ho'.taking lk htake
      · rw [hcpu' hc, ho'.noff]
      · rw [hcpu' hc, ho'.intena]
      · rw [hcpu' hc, ho'.intr]
      · rw [hcpu' hc, ho'.proc]
      · rw [hcpu' hc]
        exact ho'.quiet hon
      · rw [hstate, hwants]
        exact ho'.thread k (hcpu' hc ▸ hk)
      · rw [hcpu' hc] at hk
        obtain ⟨hw, hor⟩ := ho'.sched hk
        refine ⟨hw, hor.imp_right ?_⟩
        rintro ⟨j, hmv, hlkj, hpj, hstj, hpk⟩
        refine ⟨j, hmv, hlkj, hpj, hstate ▸ hstj, fun c₁ hc₁ => ?_⟩
        by_cases hcc : c₁ = c
        · rw [hcc, hrun] at hc₁
          have hmine := ((ho.held _).mp (hr j hc₁).2).2
          have hyours := ((ho'.held (.proc j)).mp (by rw [hlkj]; exact Finset.mem_singleton_self _)).2
          rw [hmine] at hyours
          exact hc (Option.some.inj hyours).symm
        · exact hpk c₁ ((congrArg Cpu.running (hcpu' hcc)).symm.trans hc₁)
  · by_cases hc : c' = c
    · subst hc
      rw [hself, hrun]
      exact hfine
    · rw [hother hc, hops hc, hcpu' hc]
      exact h.fine c'
  · by_cases hc₁ : c₁ = c
    · rw [hc₁, hself, htaking] at h₁
      cases h₁
    · by_cases hc₂ : c₂ = c
      · rw [hc₂, hself, htaking] at h₂
        cases h₂
      · rw [hother hc₁] at h₁
        rw [hother hc₂] at h₂
        exact h.apart c₁ c₂ lk h₁ h₂
  · by_cases hc₁ : c₁ = c
    · by_cases hc₂ : c₂ = c
      · rw [hc₁, hc₂]
      · rw [hc₁, hrun] at h₁
        rw [hcpu' hc₂] at h₂
        exact absurd h₂ ((hr k h₁).1 c₂)
    · rw [hcpu' hc₁] at h₁
      by_cases hc₂ : c₂ = c
      · rw [hc₂, hrun] at h₂
        exact absurd h₁ ((hr k h₂).1 c₁)
      · rw [hcpu' hc₂] at h₂
        exact h.single c₁ c₂ k h₁ h₂
  · rw [hholder]
    exact h.freed lk (hlocked ▸ hlk')
  · rw [hstate] at hkst
    rw [hwants]
    exact hparked k hk hkst e
  · by_cases hc : c' = c
    · subst hc
      exact hscheds k (hrun.symm.trans hk) e
    · rw [hcpu' hc] at hk
      rw [htodo, Function.update_of_ne (inl_ne_ctx (by rw [hk]; simp))]
      exact h.scheds c' k hk e
  · rw [hstate] at hkst
    obtain ⟨c', hc, hnone, hmv, hlk⟩ := henter k hkst hk
    exact ⟨c', by rw [hcpu' hc, hnone], by rw [hother hc, hmv], by rw [hother hc, hlk]⟩

lemma ctx_of_some (h : (m.cpu c).running = some i) : m.ctx c = .inr i := by
  unfold ctx
  rw [h]
  rfl

lemma ctx_of_none (h : (m.cpu c).running = none) : m.ctx c = .inl c := by
  unfold ctx
  rw [h]
  rfl

/-- A process switches to the scheduler. -/
lemma Inv.swtchOut (h : m.Inv V) {st : ProcState} (hrun : (m.cpu c).running = some i) (hlk : (V c).held = {.proc i})
    (hnoff : (V c).noff = 1) (hintr : (V c).intr = false) (hmoved : (V c).moved = some st)
    (hst : st = .RUNNABLE ∨ st = .SLEEPING ∨ st = .ZOMBIE)
    (hfine : st ≠ .ZOMBIE → ∀ e, Fine (some i) (resumed i (V c).wants e) l) :
    ∃ V', ((m.setCpu c { m.cpu c with running := none }).setTodo (m.ctx c) l).Inv V' := by
  obtain ⟨hsti, hwi, hpi, -⟩ := (h.on c).thread i hrun
  rw [hmoved] at hsti
  change m.state i = st at hsti
  obtain ⟨m', hm'⟩ : ∃ m', m' = (m.setCpu c { m.cpu c with running := none }).setTodo (m.ctx c) l := ⟨_, rfl⟩
  have htodo : m'.todo = Function.update m.todo (m.ctx c) l := hm' ▸ rfl
  have hcpu : m'.cpu = Function.update m.cpu c { m.cpu c with running := none } := hm' ▸ rfl
  have hctx := ctx_of_some hrun
  have hpark : ∀ {k}, k ≠ i → m'.Parked k → m.Parked k := by
    intro k hki hk c' hk'
    by_cases hc : c' = c
    · rw [hc, hrun] at hk'
      exact hki (Option.some.inj hk').symm
    · refine hk c' ?_
      rw [hcpu, Function.update_of_ne hc, hk']
  rw [← hm']
  refine ⟨_, h.switch (v := returned i (V c).intena) hm' (fun k hk => (by cases hk)) hlk.symm rfl hnoff.symm rfl rfl hintr hpi.symm
    (fun k hk => (by cases hk)) (fun _ => ⟨rfl, rfl⟩) ?_ (fun k hk hkst e => ?_) (fun k hk => (by cases hk)) fun k hkst hk => ?_⟩
  · have hops : m'.ops c = m.todo (.inl c) := by
      unfold ops
      rw [ctx_of_none (by rw [hcpu, Function.update_self]), htodo, hctx]
      exact Function.update_of_ne Sum.inl_ne_inr _ _
    rw [hops]
    exact h.scheds c i hrun _
  · rw [htodo, hctx]
    by_cases hki : k = i
    · subst hki
      rw [Function.update_self, ← hwi]
      refine hfine ?_ e
      rintro rfl
      rw [hsti] at hkst
      simp at hkst
    · rw [Function.update_of_ne fun heq => hki (Sum.inr.inj heq)]
      exact h.parked k (hpark hki hk) hkst e
  · have hki : k ≠ i := by
      rintro rfl
      rw [hsti] at hkst
      subst hkst
      simp at hst
    obtain ⟨c', hnone, hmv, hlk'⟩ := h.entering k hkst (hpark hki hk)
    refine ⟨c', ?_, hnone, hmv, hlk'⟩
    rintro rfl
    rw [hrun] at hnone
    cases hnone

/-- The scheduler switches to the process that it has chosen. -/
lemma Inv.swtchIn (h : m.Inv V) (hrun : (m.cpu c).running = none) (hlk : (V c).held = {.proc j}) (hnoff : (V c).noff = 1)
    (hintr : (V c).intr = false) (hmoved : (V c).moved = some .RUNNING) (hproc : (V c).proc = some j)
    (hfine : ∀ e, Fine none (returned j e) l) :
    ∃ V', ((m.setCpu c { m.cpu c with running := some j }).setTodo (m.ctx c) l).Inv V' := by
  obtain ⟨-, hor⟩ := (h.on c).sched hrun
  obtain ⟨j', -, hlk', -, hst, hpark⟩ := hor.resolve_left (by simp [hmoved])
  obtain rfl : j = j' := by
    have heq := hlk.symm.trans hlk'
    simpa using heq
  obtain ⟨m', hm'⟩ : ∃ m', m' = (m.setCpu c { m.cpu c with running := some j }).setTodo (m.ctx c) l := ⟨_, rfl⟩
  have htodo : m'.todo = Function.update m.todo (m.ctx c) l := hm' ▸ rfl
  have hcpu : m'.cpu = Function.update m.cpu c { m.cpu c with running := some j } := hm' ▸ rfl
  have hctx := ctx_of_none hrun
  have hne : ∀ {k}, m'.Parked k → k ≠ j := by
    rintro k hk rfl
    refine hk c ?_
    rw [hcpu, Function.update_self]
  have hpark' : ∀ {k}, m'.Parked k → m.Parked k := by
    intro k hk c' hk'
    by_cases hc : c' = c
    · rw [hc, hrun] at hk'
      cases hk'
    · refine hk c' ?_
      rw [hcpu, Function.update_of_ne hc, hk']
  rw [← hm']
  refine ⟨_, h.switch (v := resumed j (m.wants j) (V c).intena) hm' (fun k hk => ?_) hlk.symm rfl hnoff.symm rfl rfl hintr hproc.symm
    (fun k hk => ?_) (fun hnone => (by cases hnone)) ?_ (fun k hk hkst e => ?_) (fun k hk e => ?_) fun k hkst hk => ?_⟩
  · cases hk
    exact ⟨hpark, by simp [hlk]⟩
  · cases hk
    exact ⟨hst, rfl, rfl, fun hne => absurd rfl hne⟩
  · have hops : m'.ops c = m.todo (.inr j) := by
      unfold ops
      rw [ctx_of_some (by rw [hcpu, Function.update_self]), htodo, hctx]
      exact Function.update_of_ne Sum.inr_ne_inl _ _
    rw [hops]
    exact h.parked j hpark (Or.inr (Or.inr hst)) _
  · rw [htodo, hctx, Function.update_of_ne Sum.inr_ne_inl]
    exact h.parked k (hpark' hk) hkst e
  · cases hk
    rw [htodo, hctx, Function.update_self]
    exact hfine e
  · obtain ⟨c', hnone, hmv, hheld⟩ := h.entering k hkst (hpark' hk)
    refine ⟨c', ?_, hnone, hmv, hheld⟩
    rintro rfl
    exact hne hk (Lock.proc.inj (Finset.singleton_injective (hheld.symm.trans hlk)))

/-- A process sets the interrupts. -/
lemma Inv.setIntr (h : m.Inv V) {b : Bool} (hrun : (m.cpu c).running = some i) (hquiet : (V c).Quiet (some i))
    (hfine : Fine (some i) { V c with intr := b, wants := some b } l) :
    ∃ V', ({ m.setCpu c { m.cpu c with intr := b } with wants := Function.update m.wants i (some b) }.setTodo (m.ctx c) l).Inv V' := by
  have ho := h.on c
  obtain ⟨m', hm'⟩ : ∃ m', m' = { m.setCpu c { m.cpu c with intr := b } with wants := Function.update m.wants i (some b) }.setTodo
    (m.ctx c) l := ⟨_, rfl⟩
  have htodo : m'.todo = Function.update m.todo (m.ctx c) l := hm' ▸ rfl
  have hcpu : m'.cpu = Function.update m.cpu c { m.cpu c with intr := b } := hm' ▸ rfl
  have hstate : m'.state = m.state := hm' ▸ rfl
  have hwants : m'.wants = Function.update m.wants i (some b) := hm' ▸ rfl
  have hlocked : m'.locked = m.locked := hm' ▸ rfl
  have hholder : m'.holder = m.holder := hm' ▸ rfl
  have hcpuc : m'.cpu c = { m.cpu c with intr := b } := by rw [hcpu, Function.update_self]
  have hother : ∀ {k}, k ≠ i → m'.wants k = m.wants k := by
    intro k hk
    rw [hwants, Function.update_of_ne hk]
  have hne : ∀ {k}, m.Parked k → k ≠ i := by
    rintro k hk rfl
    exact hk c hrun
  rw [← hm']
  refine ⟨_, h.local (c := c) (v := { V c with intr := b, wants := some b }) (l := l) (fun c' hc => ?_) (by rw [hcpuc])
    (fun lk => Or.inl ⟨by rw [hlocked], by rw [hholder]⟩) (fun k => Or.inl (by rw [hstate])) (fun k => ?_) (fun x => Or.inl (by rw [htodo]))
    (fun k hk hkst e => ?_) ?_ (hrun ▸ hfine) (fun lk htake => Or.inl htake) (fun k hkst hk => Or.inl (by rwa [hstate] at hkst))
    fun hnone => absurd (hnone.symm.trans hrun) (by simp)⟩
  · rw [hcpu, Function.update_of_ne hc]
  · by_cases hk : k = i
    · exact Or.inr (Or.inl (hk ▸ hrun))
    · exact Or.inl (hother hk)
  · rw [hstate] at hkst
    rw [hother (hne hk), htodo, Function.update_of_ne (inr_ne_ctx hk)]
    exact h.parked k hk hkst e
  · refine ⟨fun lk => ?_, fun lk htake => ?_, ?_, ?_, ?_, ?_, fun _ => ?_, fun k hk => ?_, fun hnone => ?_⟩
    · rw [hlocked, hholder]
      exact ho.held lk
    · rw [hlocked, hholder]
      exact ho.taking lk htake
    · rw [hcpuc]
      exact ho.noff
    · rw [hcpuc]
      exact ho.intena
    · rw [hcpuc]
    · rw [hcpuc]
      exact ho.proc
    · rw [hcpuc]
      change View.Quiet (m.cpu c).running _
      rw [hrun]
      exact hquiet.congr rfl rfl rfl rfl rfl
    · rw [hcpuc] at hk
      change (m.cpu c).running = some k at hk
      obtain rfl : i = k := Option.some.inj (hrun.symm.trans hk)
      obtain ⟨hst, -, hp, hmv⟩ := ho.thread i hrun
      exact ⟨hstate ▸ hst, by rw [hwants, Function.update_self], hp, hmv⟩
    · rw [hcpuc] at hnone
      exact absurd (hnone.symm.trans hrun) (by simp)

/-- Who sleeps, with its lock held by the CPU, can be woken up. -/
lemma Inv.ready (h : m.Inv V) (hlk : .proc j ∈ (V c).held) (hmoved : (V c).moved = none) (hst : m.state j = .SLEEPING)
    (hfine : Fine (m.cpu c).running (V c) l) : ∃ V', ((m.setState j .RUNNABLE).setTodo (m.ctx c) l).Inv V' := by
  have hpark := h.parked_of_held hlk hmoved (by simp [hst])
  refine h.setOther hlk hmoved hpark rfl rfl rfl rfl (fun _ _ => rfl) (fun _ _ => rfl) (by simp) (fun _ e => ?_) hfine
  exact h.parked j hpark (Or.inr (Or.inl hst)) e

/-! ### Every access -/

/-- The access does not fail, and the invariant holds after it. -/
lemma Inv.run (h : m.Inv V) {op : Op} {rest : List Op} (hops : m.ops c = op :: rest) :
    ∃ new m', m.exec c op = .ok (new, m') ∧ ∃ V', (m'.setTodo (m.ctx c) (new ++ rest)).Inv V' := by
  have ho := h.on c
  have hf := h.fine c
  rw [hops] at hf
  have hheld : ∀ lk, m.holding c lk = decide (lk ∈ (V c).held) := by
    intro lk
    have hiff := ho.held lk
    unfold holding
    cases hl : m.locked lk
    · rw [hl] at hiff
      simp [hiff]
    · rw [hl] at hiff
      simp [hiff]
  have hoff : ∀ {lk}, (V c).taking = some lk → (V c).intr = false := by
    intro lk htaking
    by_contra hon
    rw [(ho.quiet (by simpa using hon)).taking] at htaking
    cases htaking
  cases hf with
  | intrGet hfine =>
    rw [← ho.intr] at hfine
    exact ⟨_, _, rfl, h.goesOn hfine⟩
  | intrOff hfine =>
    refine ⟨_, _, rfl, h.ofCpu (v := (V c).off) rfl ho.noff ho.intena rfl ho.proc rfl rfl rfl rfl (Or.inl rfl) (fun hon => ?_) hfine⟩
    cases hon
  | intrOn hquiet hwho hfine =>
    exact ⟨_, _, rfl, h.ofCpu (v := { V c with intr := true }) rfl ho.noff ho.intena rfl ho.proc rfl rfl rfl rfl (Or.inl rfl)
      (fun _ => hquiet.congr rfl rfl rfl rfl rfl) hfine⟩
  | push hintr hfine =>
    refine ⟨_, _, rfl, h.ofCpu (v := (V c).push _) rfl ?_ ?_ ho.intr ho.proc rfl rfl rfl rfl (Or.inl rfl) (fun hon => ?_) hfine⟩
    · change (m.cpu c).noff + 1 = (V c).noff + 1
      rw [ho.noff]
    · change (if (m.cpu c).noff = 0 then _ else (m.cpu c).intena) = if (V c).noff = 0 then _ else (V c).intena
      rw [ho.noff, ho.intena]
    · exact absurd (hintr.symm.trans hon) (by simp)
  | pop hintr hnoff hquiet hfine =>
    have hoff' := ho.intr.trans hintr
    have hpos : ¬ (m.cpu c).noff < 1 := by
      rw [ho.noff]
      omega
    refine ⟨[], m.setCpu c { m.cpu c with noff := (m.cpu c).noff - 1, intr := decide ((m.cpu c).noff = 1) && (m.cpu c).intena }, ?_,
      h.ofCpu (v := (V c).pop) rfl ?_ ho.intena ?_ ho.proc rfl rfl rfl rfl (Or.inl rfl) (fun hon => ?_) hfine⟩
    · rw [exec, if_neg (by simp [hoff']), if_neg hpos]
      rfl
    · change (m.cpu c).noff - 1 = (V c).noff - 1
      rw [ho.noff]
    · change (decide ((m.cpu c).noff = 1) && (m.cpu c).intena) = (decide ((V c).noff = 1) && (V c).intena)
      rw [ho.noff, ho.intena]
    · change (decide ((V c).noff = 1) && (V c).intena) = true at hon
      rw [Bool.and_eq_true, decide_eq_true_iff] at hon
      obtain ⟨hlk, hmoved, htaking, hproc⟩ := hquiet hon.1
      refine ⟨hlk, ?_, hmoved, htaking, hproc⟩
      change (V c).noff - 1 = 0
      omega
  | checkFree hlk hfine =>
    refine ⟨[], m, ?_, h.goesOn hfine⟩
    rw [exec, if_neg (by simp [hheld, hlk])]
    rfl
  | @swap _ lk _ htaking hintr hmoved hfine =>
    cases hl : m.locked lk with
    | true =>
      refine ⟨[.swap lk], m, ?_, h.goesOn (.swap htaking hintr hmoved hfine)⟩
      rw [exec, if_pos hl]
      rfl
    | false =>
      refine ⟨[], { m with locked := Function.update m.locked lk true }, ?_, h.swap hl hintr hmoved hfine⟩
      rw [exec, if_neg (by simp [hl])]
      rfl
  | mark htaking hmoved hfine => exact ⟨_, _, rfl, h.mark htaking (hoff htaking) hmoved hfine⟩
  | checkHeld hlk hfine =>
    refine ⟨[], m, ?_, h.goesOn hfine⟩
    rw [exec, if_neg (by simp [hheld, hlk])]
    rfl
  | unmark hlk htaking hintr hmoved hfine => exact ⟨_, _, rfl, h.unmark hlk hintr hmoved hfine⟩
  | unlock htaking hmoved hfine => exact ⟨_, _, rfl, h.unlock htaking (hoff htaking) hmoved hfine⟩
  | self hproc hfine =>
    refine ⟨[], m, ?_, h.goesOn hfine⟩
    rw [exec, if_pos (ho.proc.trans hproc)]
    rfl
  | setChan hwho hlk hmoved hfine => exact ⟨_, _, rfl, h.ofFields rfl rfl rfl rfl rfl rfl hfine⟩
  | setState hwho hlk hintr hmoved hst hfine => exact ⟨_, _, rfl, h.setState hwho hlk hintr hfine⟩
  | schedCheck hwho hlk hnoff hintr hmoved hst hfine =>
    obtain ⟨hsti, -⟩ := ho.thread _ hwho
    refine ⟨[], m, ?_, h.goesOn hfine⟩
    rw [exec, if_neg (by simp [hheld, hlk]), if_neg (by simp [ho.noff, hnoff]), if_neg (by simpa [hsti, hmoved] using hst),
      if_neg (by simp [ho.intr, hintr])]
    rfl
  | saveIntena hfine =>
    rw [← ho.intena] at hfine
    exact ⟨_, _, rfl, h.goesOn hfine⟩
  | swtchOut hwho hlk htaking hnoff hintr hmoved hst hend hfine => exact ⟨_, _, rfl, h.swtchOut hwho hlk hnoff hintr hmoved hst fun hz e => hwho ▸ hfine hz e⟩
  | @restore _ b _ hfine =>
    exact ⟨_, _, rfl, h.ofCpu (v := { V c with intena := b }) rfl ho.noff rfl ho.intr ho.proc rfl rfl rfl rfl (Or.inl rfl)
      (fun hon => (ho.quiet hon).congr rfl rfl rfl rfl rfl) hfine⟩
  | @wake _ j ch _ hwho hlk hmoved hfine =>
    by_cases hst : m.state j = .SLEEPING ∧ m.chan j = some ch
    · refine ⟨[], m.setState j .RUNNABLE, ?_, h.ready hlk hmoved hst.1 hfine⟩
      rw [exec, if_pos hst]
      rfl
    · refine ⟨[], m, ?_, h.goesOn hfine⟩
      rw [exec, if_neg hst]
      rfl
  | @kill _ j _ hlk hmoved hfine =>
    by_cases hst : m.state j = .SLEEPING
    · refine ⟨[], m.setState j .RUNNABLE, ?_, h.ready hlk hmoved hst hfine⟩
      rw [exec, if_pos hst]
      rfl
    · refine ⟨[], m, ?_, h.goesOn hfine⟩
      rw [exec, if_neg hst]
      rfl
  | @spawn _ j _ hlk hmoved hfine =>
    by_cases hst : m.state j = .UNUSED
    · have hpark := h.parked_of_held hlk hmoved (by simp [hst])
      refine ⟨[], { (m.setState j .RUNNABLE).setTodo (.inr j) (forkret j) with wants := Function.update m.wants j none }, ?_,
        h.setOther hlk hmoved hpark rfl rfl rfl rfl (fun k hk => Function.update_of_ne hk _ _) (fun x hx => Function.update_of_ne hx _ _)
          (by simp) (fun _ e => ?_) hfine⟩
      · rw [exec, if_pos hst]
        rfl
      · change Fine (some j) (resumed j (Function.update m.wants j none j) e) (Function.update m.todo (.inr j) (forkret j) (.inr j))
        rw [Function.update_self, Function.update_self]
        exact Fine.forkret e
    · refine ⟨[], m, ?_, h.goesOn hfine⟩
      rw [exec, if_neg hst]
      rfl
  | @reap _ j _ hlk hmoved hfine =>
    by_cases hst : m.state j = .ZOMBIE
    · have hpark := h.parked_of_held hlk hmoved (by simp [hst])
      refine ⟨[], m.setState j .UNUSED, ?_, h.setOther hlk hmoved hpark rfl rfl rfl rfl (fun _ _ => rfl) (fun _ _ => rfl) (by simp)
        (fun hor => (by simp at hor)) hfine⟩
      rw [exec, if_pos hst]
      rfl
    · refine ⟨[], m, ?_, h.goesOn hfine⟩
      rw [exec, if_neg hst]
      rfl
  | setPriority hlk hfine => exact ⟨_, _, rfl, h.ofFields rfl rfl rfl rfl rfl rfl hfine⟩
  | clearFound hfine =>
    exact ⟨_, _, rfl, h.ofCpu (v := V c) rfl ho.noff ho.intena ho.intr ho.proc rfl rfl rfl rfl (Or.inl rfl) ho.quiet hfine⟩
  | @tryRun _ j current _ hwho hlk hnoff hintr hmoved hfine hrun =>
    by_cases hst : m.state j = .RUNNABLE ∧ current ≤ m.priority j
    · refine ⟨[.swtchIn j, .back], (m.setState j .RUNNING).setCpu c { m.cpu c with proc := some j }, ?_,
        h.choose hwho hlk hintr hmoved hst.1 (hwho ▸ hrun)⟩
      rw [exec, if_pos hst]
      rfl
    · refine ⟨[], m, ?_, h.goesOn hfine⟩
      rw [exec, if_neg hst]
      rfl
  | swtchIn hwho hlk htaking hnoff hintr hmoved hproc hfine =>
    exact ⟨_, _, rfl, h.swtchIn hwho hlk hnoff hintr hmoved hproc fun e => hwho ▸ hfine e⟩
  | back hwho hmoved hfine =>
    exact ⟨_, _, rfl, h.ofCpu (v := { V c with proc := none }) rfl ho.noff ho.intena ho.intr rfl rfl rfl rfl rfl (Or.inr ⟨hwho, hmoved⟩)
      (fun hon => ⟨(ho.quiet hon).held, (ho.quiet hon).noff, hmoved, (ho.quiet hon).taking, hwho.symm⟩) hfine⟩
  | idle hfine hwait =>
    refine ⟨_, _, rfl, h.goesOn ?_⟩
    split
    · exact hfine
    · exact hwait
  | wfi hfine => exact ⟨_, _, rfl, h.goesOn hfine⟩
  | dump hfine => exact ⟨_, _, rfl, h.goesOn hfine⟩
  | iret hquiet hfine =>
    exact ⟨_, _, rfl, h.ofCpu (v := { V c with intr := true }) rfl ho.noff ho.intena rfl ho.proc rfl rfl rfl rfl (Or.inl rfl)
      (fun _ => hquiet.congr rfl rfl rfl rfl rfl) hfine⟩
  | setIntr hwho hquiet hfine => exact ⟨_, _, rfl, h.setIntr hwho (hwho ▸ hquiet) (hwho ▸ hfine)⟩
  | @tryLock _ i L _ hwho hlk htaking hnoff hintr hmoved hproc hfine =>
    cases hl : m.slocked L with
    | true =>
      refine ⟨Smp.sleep i (.sleep L) (.sleep L) ++ [.tryLock i L], m, ?_, h.goesOn ?_⟩
      · rw [exec, if_pos hl]
        rfl
      · rw [List.append_assoc, hwho]
        have hs : (V c).Steady := ⟨hnoff.ge.trans' zero_le_one, fun h0 => absurd (hnoff.symm.trans h0) one_ne_zero, fun _ => hintr, htaking⟩
        exact Fine.sleep hs hlk (by simp) hnoff hmoved hproc (.tryLock rfl hlk htaking hnoff hintr hmoved hproc (hwho ▸ hfine))
    | false =>
      refine ⟨[], { m with slocked := Function.update m.slocked L true }, ?_, h.ofFields rfl rfl rfl rfl rfl rfl hfine⟩
      rw [exec, if_neg (by simp [hl])]
      rfl
  | setPid hlk hfine => exact ⟨_, _, rfl, h.ofFields rfl rfl rfl rfl rfl rfl hfine⟩
  | dropLock hlk hmoved hwakes hfine => exact ⟨_, _, rfl, h.ofFields rfl rfl rfl rfl rfl rfl hfine⟩

/-- What the CPU holds is what it knows to hold. -/
lemma On.holding_iff (h : m.On c v) (lk : Lock) : m.holding c lk = true ↔ lk ∈ v.held := by
  rw [holding, Bool.and_eq_true, decide_eq_true_iff]
  exact (h.held lk).symm

/-- Between two calls. -/
lemma Inv.calm (h : m.Inv V) (hops : m.ops c = []) : (V c).Calm (m.cpu c).running := by
  have hf := h.fine c
  rw [hops] at hf
  cases hf with
  | nil hcalm => exact hcalm

lemma Inv.step (h : m.Inv V) (hstep : m.Step m') : ∃ V', m'.Inv V' := by
  cases hstep with
  | @run m₁ c op rest new hops hexec =>
    obtain ⟨new', m₂, hexec', hinv⟩ := h.run hops
    rw [hexec] at hexec'
    cases hexec'
    exact hinv
  | @round c hrun hops =>
    have hcalm := h.calm hops
    rw [hrun] at hcalm
    rw [← ctx_of_none hrun]
    exact h.goesOn (hrun ▸ Fine.scheduler hcalm)
  | @call c i call hrun hops hallowed =>
    have hcalm := h.calm hops
    rw [hrun] at hcalm
    have hheld : (fun lk => m.holding c lk = true) = (· ∈ (V c).held) := by
      funext lk
      exact propext ((h.on c).holding_iff lk)
    rw [hheld] at hallowed
    rw [← ctx_of_some hrun]
    exact h.goesOn (hrun ▸ Fine.call hcalm call hallowed)
  | @interrupt c timer l hintr =>
    have ho := h.on c
    have hon := ho.intr.symm.trans hintr
    refine h.ofCpu (v := (V c).off) rfl ho.noff ho.intena rfl ho.proc rfl rfl rfl rfl (Or.inl rfl) (fun hoff => ?_)
      (Fine.kerneltrap (ho.quiet hon) hon (h.fine c))
    cases hoff

lemma inv_boot (init : Fin nproc) (priority : Fin nproc → Int) : (boot init priority).Inv fun _ => View.idle := by
  refine ⟨fun c => ?_, fun c => .nil View.calm_idle, fun c c' lk h => (by cases h), fun c c' i h => (by cases h), fun _ _ => rfl,
    fun i _ hst e => ?_, fun c i h => (by cases h), fun j hst => ?_⟩
  · exact ⟨fun lk => by simp [View.idle, boot], fun lk h => (by cases h), rfl, rfl, rfl, rfl, fun h => (by cases h), fun i h => (by cases h),
      fun _ => ⟨rfl, Or.inl rfl⟩⟩
  · by_cases hi : i = init
    · subst hi
      change Fine (some i) (resumed i none e) (Function.update (fun _ => []) (Sum.inr i) (Smp.forkret i) (Sum.inr i))
      rw [Function.update_self]
      exact Fine.forkret e
    · have hunused : (boot init priority).state i = .UNUSED := by simp [boot, hi]
      rw [hunused] at hst
      simp at hst
  · by_cases hj : j = init
    · have hrunnable : (boot init priority).state j = .RUNNABLE := by simp [boot, hj]
      rw [hrunnable] at hst
      cases hst
    · have hunused : (boot init priority).state j = .UNUSED := by simp [boot, hj]
      rw [hunused] at hst
      cases hst

/-- The machine has been booted, and the CPUs and interrupts have brought it here. -/
def Reachable (m : Machine) : Prop := ∃ init priority, Relation.ReflTransGen Step (boot init priority) m

lemma Reachable.inv (h : m.Reachable) : ∃ V, m.Inv V := by
  obtain ⟨init, priority, hrun⟩ := h
  induction hrun with
  | refl => exact ⟨_, inv_boot init priority⟩
  | tail _ hstep ih =>
    obtain ⟨V, hinv⟩ := ih
    exact hinv.step hstep

lemma Reachable.step (h : m.Reachable) (hstep : m.Step m') : m'.Reachable := by
  obtain ⟨init, priority, hrun⟩ := h
  exact ⟨init, priority, hrun.tail hstep⟩

end Machine

end FogOS.Kernel.Smp
