import FogOS.Umalloc.Contract

/-!
# Programs that move the break themselves

Between two blocks of the allocator there may be memory that the program got from its own `sbrk`
calls. The merges follow `next_block` and `prev_block` without comparing addresses, and the trim
lowers the break by the size of the tail wherever the tail ends. This module says when that is
harmless.
-/

namespace FogOS.Umalloc

namespace State

/-- The bytes that a merge takes over from the block `x`. -/
def freeBytes (s : State) (x : Nat) : Nat := if x ≠ 0 ∧ s.isFree x then s.getSize x else 0

/-- The block ends where its successor in the block list starts, if that one is free. -/
def MeetsNext (s : State) (block : Nat) : Prop :=
  s.nextBlock block ≠ 0 → s.isFree (s.nextBlock block) = true →
    block + s.getSize block = s.nextBlock block

/-- The block starts where its predecessor in the block list ends, if that one is free. -/
def MeetsPrev (s : State) (block : Nat) : Prop :=
  s.prevBlock block ≠ 0 → s.isFree (s.prevBlock block) = true →
    s.prevBlock block + s.getSize (s.prevBlock block) = block

/-- The tail ends at the break, if `free(block)` makes it a free block of at least 4096 bytes, or if
it is one already. -/
def MeetsBreak (s : State) (block : Nat) : Prop :=
  (s.tail = block ∨ s.tail = s.nextBlock block ∧ s.isFree s.tail = true →
    4096 ≤ s.freeBytes (s.prevBlock block) + s.getSize block + s.freeBytes (s.nextBlock block) →
    s.tail + s.getSize s.tail = s.brk) ∧
  (s.tail ≠ block → s.isFree s.tail = true → 4096 ≤ s.getSize s.tail →
    s.tail + s.getSize s.tail = s.brk)

/-- `free(block)` merges and trims without a gap. -/
def Contiguous (s : State) (block : Nat) : Prop :=
  s.MeetsNext block ∧ s.MeetsPrev block ∧ s.MeetsBreak block

instance (s : State) (block : Nat) : Decidable (s.MeetsNext block) :=
  inferInstanceAs (Decidable (_ → _ → _))

instance (s : State) (block : Nat) : Decidable (s.MeetsPrev block) :=
  inferInstanceAs (Decidable (_ → _ → _))

instance (s : State) (block : Nat) : Decidable (s.MeetsBreak block) :=
  inferInstanceAs (Decidable (_ ∧ _))

instance (s : State) (block : Nat) : Decidable (s.Contiguous block) :=
  inferInstanceAs (Decidable (_ ∧ _))

end State

/-- The free part of a `realloc` that cuts a block, grows into the next one, or moves: each merges
only blocks that touch. The block that moves is freed in the state that `malloc` returns. -/
def State.ReallocContiguous (s : State) (grant : Bool) (block size : Nat) : Prop :=
  if size = 0 then s.Contiguous block
  else if totalSize size ≤ s.getSize block then
    totalSize size + 48 ≤ s.getSize block → s.MeetsNext block
  else if s.nextBlock block ≠ 0 ∧ s.isFree (s.nextBlock block) = true ∧
      totalSize size ≤ s.getSize block + s.getSize (s.nextBlock block) then s.MeetsNext block
  else ∀ r ∈ s.malloc grant size, r.2 ≠ 0 → r.1.Contiguous block

instance (s : State) (grant : Bool) (block size : Nat) :
    Decidable (s.ReallocContiguous grant block size) := by
  unfold State.ReallocContiguous
  infer_instance

/-- The merges and the trim of the action stay between blocks that touch. -/
def Process.Contiguous (p : Process) : Action → Prop
  | .free ptr _ => ptr ≠ 0 → p.s.Contiguous (ptr - 32)
  | .realloc ptr size grant => ptr ≠ 0 → p.s.ReallocContiguous grant (ptr - 32) size
  | _ => True

instance (p : Process) : (a : Action) → Decidable (p.Contiguous a)
  | .malloc _ _ => inferInstanceAs (Decidable True)
  | .calloc _ _ _ => inferInstanceAs (Decidable True)
  | .free ptr _ => inferInstanceAs (Decidable (ptr ≠ 0 → p.s.Contiguous (ptr - 32)))
  | .realloc ptr size grant =>
    inferInstanceAs (Decidable (ptr ≠ 0 → p.s.ReallocContiguous grant (ptr - 32) size))
  | .mallocName _ _ => inferInstanceAs (Decidable True)
  | .mallocSetfsm _ => inferInstanceAs (Decidable True)
  | .write _ _ => inferInstanceAs (Decidable True)
  | .sbrk _ _ => inferInstanceAs (Decidable True)

variable {base brk : Nat} {p p' p₀ : Process} {h h' : Heap} {s s' : State} {a : Action}
  {as : List Action} {b c d : Block} {bs l r : List Block} {fs : List Nat}

lemma Holds.freeBytes_next (hh : Holds base s ⟨l ++ c :: r, fs, brk⟩) :
    s.freeBytes (s.nextBlock c.addr) = freeSize r.head? := by
  rw [hh.rep.nextBlock_eq]
  cases r with
  | nil => simp [State.freeBytes, freeSize]
  | cons d r =>
    have hd : d ∈ l ++ c :: d :: r := by simp
    simp [State.freeBytes, freeSize, hh.rep.ne_zero hd, hh.rep.isFree_eq hd, hh.rep.getSize_eq hd]

lemma Holds.freeBytes_prev (hh : Holds base s ⟨l ++ c :: r, fs, brk⟩) :
    s.freeBytes (s.prevBlock c.addr) = freeSize l.getLast? := by
  rw [hh.rep.prevBlock_eq]
  rcases List.eq_nil_or_concat l with rfl | ⟨k, d, rfl⟩
  · simp [State.freeBytes, freeSize]
  · rw [List.concat_eq_append] at *
    have hd : d ∈ (k ++ [d]) ++ c :: r := by simp
    simp [State.freeBytes, freeSize, hh.rep.ne_zero hd, hh.rep.isFree_eq hd, hh.rep.getSize_eq hd]

lemma Holds.meetsNext (hh : Holds base s ⟨l ++ c :: r, fs, brk⟩) (hm : s.MeetsNext c.addr) :
    ∀ d ∈ r.head?, d.free = true → c.addr + c.size = d.addr := by
  intro d hd hdf
  obtain ⟨r, rfl⟩ := List.head?_eq_some_iff.mp hd
  have hdm : d ∈ l ++ c :: d :: r := by simp
  have hnext : s.nextBlock c.addr = d.addr := by simpa using hh.rep.nextBlock_eq
  unfold State.MeetsNext at hm
  rw [hnext, hh.rep.isFree_eq hdm, hh.rep.getSize_eq (c := c) (by simp)] at hm
  exact hm (hh.rep.ne_zero hdm) hdf

lemma Holds.meetsPrev (hh : Holds base s ⟨l ++ c :: r, fs, brk⟩) (hm : s.MeetsPrev c.addr) :
    ∀ b ∈ l.getLast?, b.free = true → b.addr + b.size = c.addr := by
  intro b hb hbf
  obtain ⟨l, rfl⟩ := List.getLast?_eq_some_iff.mp hb
  have hbm : b ∈ (l ++ [b]) ++ c :: r := by simp
  have hprev : s.prevBlock c.addr = b.addr := by simpa using hh.rep.prevBlock_eq
  unfold State.MeetsPrev at hm
  rw [hprev, hh.rep.isFree_eq hbm, hh.rep.getSize_eq hbm] at hm
  exact hm (hh.rep.ne_zero hbm) hbf

lemma Holds.touching (hh : Holds base s ⟨l ++ c :: r, fs, brk⟩) (hc : s.Contiguous c.addr) :
    Touching l c r brk := by
  obtain ⟨hnext, hprev, hbreak, htail⟩ := hc
  have hbrk : s.brk = brk := hh.brk
  refine ⟨hh.meetsNext hnext, hh.meetsPrev hprev, fun e he hbig => ?_, fun e he hef hbig => ?_⟩
  · rw [hh.freeBytes_next, hh.freeBytes_prev, hh.rep.getSize_eq (c := c) (by simp), hbrk] at hbreak
    rcases he with ⟨rfl, rfl⟩ | ⟨rfl, hef⟩
    · have ht : s.tail = e.addr := hh.rep.tail_eq_last
      rw [ht, hh.rep.getSize_eq (c := e) (by simp)] at hbreak
      exact hbreak (Or.inl rfl) hbig
    · have ht : s.tail = e.addr := Rep.tail_eq_last (l := l ++ [c]) (by simpa using hh.rep)
      have hn : s.nextBlock c.addr = e.addr := by simpa using hh.rep.nextBlock_eq
      rw [ht, hn, hh.rep.isFree_eq (c := e) (by simp), hh.rep.getSize_eq (c := e) (by simp)] at hbreak
      exact hbreak (Or.inr ⟨rfl, hef⟩) hbig
  · obtain ⟨r, rfl⟩ := List.getLast?_eq_some_iff.mp he
    have hem : e ∈ l ++ c :: (r ++ [e]) := by simp
    have ht : s.tail = e.addr := Rep.tail_eq_last (l := l ++ c :: r) (by simpa using hh.rep)
    have hne : e.addr ≠ c.addr := hh.wf.addr_notMem (by simp)
    rw [ht, hh.rep.isFree_eq hem, hh.rep.getSize_eq hem, hbrk] at htail
    exact htail hne hef hbig

/-- The four ways of a `realloc`, as the code tells them apart. -/
lemma Holds.snug_realloc {grant : Bool} {size : Nat} (hh : Holds base s ⟨l ++ c :: r, fs, brk⟩)
    (hc : s.ReallocContiguous grant c.addr size) :
    (size = 0 → Touching l c r brk) ∧
    (totalSize size + 48 ≤ c.size → ∀ d ∈ r.head?, d.free = true → c.addr + c.size = d.addr) ∧
    (c.size < totalSize size → ∀ d ∈ r.head?, d.free = true → totalSize size ≤ c.size + d.size →
      c.addr + c.size = d.addr) ∧
    (0 < size → Cramped c r (totalSize size) → ∀ s₁ h₁ b l' r',
      s.malloc grant size = some (s₁, b.addr + 32) →
      Gives base [] (totalSize size) s ⟨l ++ c :: r, fs, brk⟩ s₁ h₁ b → h₁.blocks = l' ++ c :: r' →
      Touching l' c r' h₁.brk) := by
  have hcm : c ∈ l ++ c :: r := by simp
  unfold State.ReallocContiguous at hc
  rw [hh.rep.getSize_eq hcm] at hc
  by_cases hz : size = 0
  · rw [if_pos hz] at hc
    have ht := hh.touching hc
    exact ⟨fun _ => ht, fun _ => ht.next, fun _ d hd hdf _ => ht.next d hd hdf,
      fun hpos => absurd hz (by omega)⟩
  rw [if_neg hz] at hc
  refine ⟨fun h => absurd h hz, fun hcut => ?_, fun hlt d hd hdf hle => ?_,
    fun _ hcr s₁ h₁ b l' r' hs₁ hgv hlr => ?_⟩
  · rw [if_pos (by omega)] at hc
    exact hh.meetsNext (hc hcut)
  · obtain ⟨r, rfl⟩ := List.head?_eq_some_iff.mp hd
    have hdm : d ∈ l ++ c :: d :: r := by simp
    have hnext : s.nextBlock c.addr = d.addr := by simpa using hh.rep.nextBlock_eq
    rw [if_neg (by omega), hnext, hh.rep.isFree_eq hdm, hh.rep.getSize_eq hdm,
      if_pos ⟨hh.rep.ne_zero hdm, hdf, hle⟩] at hc
    exact hh.meetsNext hc d hd hdf
  · have hcond : ¬ (s.nextBlock c.addr ≠ 0 ∧ s.isFree (s.nextBlock c.addr) = true ∧
        totalSize size ≤ c.size + s.getSize (s.nextBlock c.addr)) := by
      rintro ⟨h0, hf, hge⟩
      have hnext := hh.rep.nextBlock_eq
      cases r with
      | nil => exact h0 (by simpa using hnext)
      | cons d r =>
        have hdm : d ∈ l ++ c :: d :: r := by simp
        have hnext' : s.nextBlock c.addr = d.addr := by simpa using hnext
        rw [hnext', hh.rep.isFree_eq hdm] at hf
        rw [hnext', hh.rep.getSize_eq hdm] at hge
        have := hcr.2 d rfl hf
        omega
    have hlt := hcr.1
    rw [if_neg (by omega), if_neg hcond] at hc
    have hcont : s₁.Contiguous c.addr := hc (s₁, b.addr + 32) hs₁ (by simp)
    obtain ⟨bs₁, fs₁, brk₁⟩ := h₁
    simp only at hlr
    subst hlr
    exact hgv.moves.holds.touching hcont

lemma Good.snug (hg : Good base p h) (hc : p.Contiguous a) : Snug base p h a := by
  obtain ⟨bs, fs, brk⟩ := h
  cases a with
  | free ptr grant =>
    intro l c r hlr hptr
    simp only at hlr
    subst hlr hptr
    have hcc := hc (by omega)
    rw [Nat.add_sub_cancel] at hcc
    exact hg.holds.touching hcc
  | realloc ptr size grant =>
    intro l c r hlr hptr
    simp only at hlr
    subst hlr hptr
    have hcc := hc (by omega)
    rw [Nat.add_sub_cancel] at hcc
    exact hg.holds.snug_realloc hcc
  | malloc | calloc | mallocName | mallocSetfsm | write | sbrk => trivial

/-! ### Runs -/

/-- An action of a program that may move the break itself. -/
def Mixes (base : Nat) (p : Process) (a : Action) (p' : Process) : Prop :=
  p.Legal base a ∧ p.step a = some p'

/-- No block covers memory that the program got from its own `sbrk`, that memory stays below the
break, and live allocations do not overlap. -/
def Separate (p : Process) : Prop :=
  (∀ e ∈ p.own, ∀ x, e.1 ≤ x → x < e.2 →
    x < p.s.brk ∧ ∀ y ∈ p.s.blocks, ¬ (y ≤ x ∧ x < y + p.s.getSize y)) ∧
  p.live.Pairwise fun e f => p.payloadEnd e.1 ≤ f.1 ∨ p.payloadEnd f.1 ≤ e.1

lemma Good.separate (hg : Good base p h) : Separate p := by
  refine ⟨fun e he x h1 h2 => ?_, hg.live_disjoint⟩
  obtain ⟨-, -, h3, h4⟩ := hg.own e he
  refine ⟨by rw [hg.holds.brk]; omega, fun y hy hcov => ?_⟩
  rw [hg.holds.rep.blocks_eq] at hy
  obtain ⟨c, hc, rfl⟩ := List.mem_map.mp hy
  rw [hg.holds.rep.getSize_eq hc] at hcov
  exact h4 x h1 h2 ⟨c, hc, hcov⟩

/-- In every run whose merges and trims stay between blocks that touch, the memory of the program
and the memory of the allocator stay apart. -/
theorem foreign_memory_safe (h0 : Start base p₀)
    (hrun : Steps (fun p a p' => Mixes base p a p' ∧ p.Contiguous a) p₀ as p) : Separate p := by
  have hgood : ∃ h, Good base p h := by
    refine hrun.invariant (I := fun p => ∃ h, Good base p h) ⟨_, h0.good⟩ ?_
    rintro p₁ a p₂ ⟨h, hg⟩ ⟨⟨hl, hstep⟩, hc⟩
    obtain ⟨p₃, h', hp₃, hadv⟩ := hg.step hl (hg.snug hc)
    obtain rfl : p₃ = p₂ := Option.some.inj (hp₃.symm.trans hstep)
    exact ⟨h', hadv.good⟩
  obtain ⟨h, hg⟩ := hgood
  exact hg.separate

/-- The next process, if the action is legal. -/
def Process.mix (base : Nat) (p : Process) (a : Action) : Option Process :=
  if p.Legal base a then p.step a else none

lemma Process.mix_mixes (hm : p.mix base a = some p') : Mixes base p a p' := by
  unfold Process.mix at hm
  split at hm
  · exact ⟨‹_›, hm⟩
  · cases hm

/-- The block after the program's memory is freed while the block before it is in use. -/
theorem foreign_memory_safe_trace : ∃ as p,
    Steps (fun p a p' => Mixes 20480 p a p' ∧ p.Contiguous a) (Process.init 20480) as p ∧
      p.own = [(24576, 28672)] ∧ p.s.brk = 28672 ∧ Separate p := by
  have hsome : (List.foldlM
      (fun (p : Process) a => if p.Contiguous a then p.mix 20480 a else none) (Process.init 20480)
      [.malloc 4064 true, .sbrk 4096 true, .malloc 4064 true, .free 28704 true]).any
      (fun p => p.own = [(24576, 28672)] ∧ p.s.brk = 28672) = true := by
    decide
  obtain ⟨p, hp, hbits⟩ := (Option.any_eq_true _ _).mp hsome
  rw [decide_eq_true_eq] at hbits
  have hrun : Steps (fun p a p' => Mixes 20480 p a p' ∧ p.Contiguous a) (Process.init 20480)
      [.malloc 4064 true, .sbrk 4096 true, .malloc 4064 true, .free 28704 true] p := by
    refine Steps.of_foldlM (fun p a p' hstep => ?_) hp
    split at hstep
    · exact ⟨Process.mix_mixes hstep, ‹_›⟩
    · cases hstep
  exact ⟨_, p, hrun, hbits.1, hbits.2,
    foreign_memory_safe (Process.start_init (by decide) (by decide)) hrun⟩

/-- Two blocks around the program's memory are merged across it when both are free, and the trim
then gives the program's memory back. -/
theorem foreign_memory_lost : ¬ ∀ base p₀ as p, Start base p₀ → Steps (Mixes base) p₀ as p →
    Separate p := by
  intro hall
  have hsome : (List.foldlM (Process.mix 20480) (Process.init 20480)
      [.malloc 4064 true, .sbrk 4096 true, .malloc 4064 true, .free 20512 true,
        .free 28704 true]).any
      (fun p => (24576, 28672) ∈ p.own ∧ p.s.brk = 24576) = true := by
    decide
  obtain ⟨p, hp, hbits⟩ := (Option.any_eq_true _ _).mp hsome
  rw [decide_eq_true_eq] at hbits
  have hsep := hall 20480 (Process.init 20480) _ p (Process.start_init (by decide) (by decide))
    (Steps.of_foldlM (fun _ _ _ => Process.mix_mixes) hp)
  have hlt := (hsep.1 (24576, 28672) hbits.1 24576 (by simp) (by simp)).1
  omega

end FogOS.Umalloc
