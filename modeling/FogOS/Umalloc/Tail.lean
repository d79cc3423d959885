import FogOS.Umalloc.Realloc

/-!
# The free end of the heap

`free` gives a free tail of a page or more back to the kernel, in one round of its loop. `malloc`
and a `realloc` that grows never leave such a tail. A `realloc` that cuts a block does, as it does
not trim. The calls of a program are counted with the rounds that they take.
-/

namespace FogOS.Umalloc

open ByteMem

variable {base brk size ptr q : Nat} {p p' p₀ : Process} {h : Heap} {s s' : State} {a : Action}
  {as : List Action} {grant : Bool} {l r bs : List Block} {fs : List Nat} {c : Block}

/-- The rounds of the loop of `free`. -/
def State.releaseRounds (grant : Bool) : Nat → State → Option Nat
  | 0, _ => none
  | n + 1, s =>
    if s.LargeTail then (releaseRounds grant n (s.trimTail grant)).map (· + 1) else some 0

/-- The rounds that `free(ptr)` takes. -/
def State.freeRounds (s : State) (grant : Bool) (ptr : Nat) : Option Nat :=
  if ptr = 0 then some 0 else do
  let s ← s.freeBlock (ptr - memBlockSize)
  releaseRounds grant addresses s

/-- The rounds that `realloc(ptr, size)` takes: it frees `ptr` when `size` is zero or the block has
to move. -/
def State.reallocRounds (s : State) (grant : Bool) (ptr size : Nat) : Option Nat :=
  if ptr = 0 then some 0
  else if size = 0 then s.freeRounds grant ptr
  else
  let block := ptr - memBlockSize
  let newTotalSz := u32 (memBlockSize + alignSize size)
  if newTotalSz ≤ s.getSize block ∨ s.NextServes block newTotalSz then some 0
  else do
    let (t, newPtr) ← s.malloc grant size
    if newPtr = 0 then some 0
    else (t.copyPayload newPtr ptr (s.getSize block) size).freeRounds grant ptr

/-- The rounds of the loop of `free` in one call. -/
def Process.rounds (p : Process) : Action → Option Nat
  | .free ptr grant => p.s.freeRounds grant ptr
  | .realloc ptr size grant => p.s.reallocRounds grant ptr size
  | _ => some 0

/-- A `realloc` that cuts its block right before the end of the heap, or before a last block that
is free, leaves less than a page there. -/
def Process.Trims (p : Process) : Action → Prop
  | .realloc ptr size _ => ptr ≠ 0 → size ≠ 0 →
    totalSize size + 48 ≤ p.s.getSize (ptr - 32) →
    (p.s.nextBlock (ptr - 32) = 0 ∨ p.s.isFree (p.s.nextBlock (ptr - 32)) = true ∧
      p.s.nextBlock (p.s.nextBlock (ptr - 32)) = 0) →
    p.s.getSize (ptr - 32) + p.s.freeBytes (p.s.nextBlock (ptr - 32)) < totalSize size + 4096
  | _ => True

/-! ### One round at most -/

lemma State.releaseRounds_succ (grant : Bool) (n : Nat) : State.releaseRounds grant (n + 1) s =
    if s.LargeTail then (State.releaseRounds grant n (s.trimTail grant)).map (· + 1) else some 0 :=
  rfl

/-- The loop is its body, as often as it has rounds. -/
theorem State.releaseTail_eq (grant : Bool) (n : Nat) : State.releaseTail grant n s =
    (State.releaseRounds grant n s).map fun k => (fun t => State.trimTail t grant)^[k] s := by
  induction n generalizing s with
  | zero => rfl
  | succ n ih =>
    rw [State.releaseTail_succ, State.releaseRounds_succ]
    split
    · rw [ih, Option.map_map]
      rfl
    · rfl

lemma State.SmallTail.releaseRounds_eq (hs : s.SmallTail) (grant : Bool) (n : Nat) :
    State.releaseRounds grant (n + 1) s = some 0 := by
  rw [State.releaseRounds_succ, if_neg (State.smallTail_iff_not.mp hs)]

/-- After one round the tail is in use, as it was the block before a free one. -/
lemma Holds.releaseRounds_le (hh : Holds base s h) (hcalm : Calm h.blocks)
    (htop : ∀ e ∈ h.blocks.getLast?, e.free = true → 4096 ≤ e.size → e.addr + e.size = h.brk)
    (grant : Bool) : ∃ n ≤ 1, State.releaseRounds grant addresses s = some n := by
  obtain ⟨n, hn⟩ : ∃ n, addresses = n + 1 + 1 := ⟨2 ^ 64 - 2, by norm_num [addresses]⟩
  rw [hn]
  by_cases hsmall : s.SmallTail
  · exact ⟨0, Nat.zero_le _, hsmall.releaseRounds_eq grant (n + 1)⟩
  · obtain ⟨h', hm, -, hsmall'⟩ := hh.trim_tail hcalm htop (mt hh.rep.smallTail_iff.mpr hsmall) grant
    refine ⟨1, le_refl _, ?_⟩
    rw [State.smallTail_iff_not, not_not] at hsmall
    rw [State.releaseRounds_succ, if_pos hsmall,
      (hm.holds.rep.smallTail_iff.mpr hsmall').releaseRounds_eq grant n]
    rfl

lemma Holds.freeRounds_le (hh : Holds base s ⟨l ++ c :: r, fs, brk⟩) (hcalm : Calm (l ++ c :: r))
    (hused : c.free = false) (htouch : Touching l c r brk) (grant : Bool) :
    ∃ n ≤ 1, s.freeRounds grant (c.addr + 32) = some n := by
  obtain ⟨s₁, h₃, hs₁, hm₃, hcalm₃, -, htop⟩ := hh.free_merge hcalm hused htouch
  obtain ⟨n, hn, hrounds⟩ := hm₃.holds.releaseRounds_le hcalm₃ htop grant
  refine ⟨n, hn, ?_⟩
  have hne : c.addr + 32 ≠ 0 := by omega
  unfold State.freeRounds
  simp only [if_neg hne, memBlockSize, Nat.add_sub_cancel, hs₁, Option.bind_eq_bind,
    Option.bind_some, hrounds]

lemma Good.freeRounds_le (hg : Good base p h) (ht : Tiled base h.blocks h.brk) (hv : p.Valid ptr)
    (grant : Bool) : ∃ n ≤ 1, p.s.freeRounds grant ptr = some n := by
  rcases hv with rfl | hv
  · exact ⟨0, Nat.zero_le _, rfl⟩
  · obtain ⟨l, c, r, hlr, hcf, rfl⟩ := hg.block_of_live hv
    obtain ⟨bs, fs, brk⟩ := h
    simp only at hlr ht
    subst hlr
    exact hg.holds.freeRounds_le hg.calm hcf ht.touching grant

lemma Good.reallocRounds_le (hg : Good base p h) (ht : Tiled base h.blocks h.brk)
    (hv : p.Valid ptr) (hasks : p.Asks base size grant) :
    ∃ n ≤ 1, p.s.reallocRounds grant ptr size = some n := by
  unfold State.reallocRounds
  by_cases h0 : ptr = 0
  · exact ⟨0, Nat.zero_le _, if_pos h0⟩
  rw [if_neg h0]
  by_cases hsize : size = 0
  · rw [if_pos hsize]
    exact hg.freeRounds_le ht hv grant
  rw [if_neg hsize]
  obtain ⟨l, c, r, hlr, hcf, rfl⟩ := hg.block_of_live (hv.resolve_left h0)
  simp only
  split
  · exact ⟨0, Nat.zero_le _, rfl⟩
  -- the block is freed in the state that `malloc` and the copy leave behind
  have hroom := hasks.2
  rw [hg.holds.brk] at hroom
  rcases hg.holds.malloc hg.calm (by omega) (Or.inl hasks.1) grant fun hgr _ => hroom hgr with
    hs | ⟨s₁, h₁, b, hs, hgv, -⟩
  · refine ⟨0, Nat.zero_le _, ?_⟩
    simp [hs]
  · have hc : c ∈ h.blocks := by simp [hlr]
    have hc₁ := hgv.moves.evolves.kept c hc hcf (by simpa using hgv.new c hc hcf)
    have hgv' := hgv.copied (c.addr + 32) (p.s.getSize (c.addr + 32 - memBlockSize))
    have ht₁ := hgv.moves.evolves.tiled base ht
    obtain ⟨bs, fs, brk⟩ := h₁
    obtain ⟨l', r', rfl⟩ := List.append_of_mem hc₁
    have hq : b.addr + 32 ≠ 0 := by omega
    obtain ⟨n, hn, hrounds⟩ := hgv'.moves.holds.freeRounds_le hgv.calm hcf ht₁.touching grant
    refine ⟨n, hn, ?_⟩
    simp only [hs, Option.bind_eq_bind, Option.bind_some, if_neg hq]
    exact hrounds

lemma Sound.rounds_le (hs : Sound base p) (hl : p.Legal base a) : ∃ n ≤ 1, p.rounds a = some n := by
  obtain ⟨h, hg, ht⟩ := hs
  cases a with
  | free ptr grant => exact hg.freeRounds_le ht hl grant
  | realloc ptr size grant => exact hg.reallocRounds_le ht hl.1 hl.2
  | malloc | calloc | mallocName | mallocSetfsm | write | sbrk => exact ⟨0, Nat.zero_le _, rfl⟩

/-! ### The tail stays small -/

/-- A move that leaves the heap as it is. -/
lemma Advance.smallTail (hadv : Advance base a p h p' h) (hg : Good base p h)
    (hsmall : p.s.SmallTail) : p'.s.SmallTail :=
  hadv.good.holds.rep.smallTail_iff.mpr (hg.holds.rep.smallTail_iff.mp hsmall)

lemma Good.malloc_smallTail (hg : Good base p h) (hasks : p.Asks base size grant)
    (hs : p.s.malloc grant size = some (s', q)) (hsmall : p.s.SmallTail) : s'.SmallTail := by
  by_cases hsize : size = 0
  · simp only [State.malloc, hsize, if_true, Option.some.injEq, Prod.mk.injEq] at hs
    rwa [← hs.1]
  have hroom := hasks.2
  rw [hg.holds.brk] at hroom
  rcases hg.holds.malloc hg.calm (by omega) (Or.inl hasks.1) grant fun hgr _ => hroom hgr with
    hnull | ⟨s₁, h', b, hgives, hgv, htail⟩
  · rw [hnull] at hs
    cases hs
    exact hsmall
  · rw [hgives] at hs
    cases hs
    exact hgv.moves.holds.rep.smallTail_iff.mpr (htail (hg.holds.rep.smallTail_iff.mp hsmall))

lemma Good.calloc_smallTail {nmemb : Nat} (hg : Good base p h)
    (hasks : p.Asks base (nmemb * size) grant)
    (hs : p.s.calloc grant nmemb size = some (s', q)) (hsmall : p.s.SmallTail) : s'.SmallTail := by
  by_cases hsize : nmemb * size = 0
  · have hnull : p.s.calloc grant nmemb size = some (p.s, 0) := by
      simp [State.calloc, State.malloc, hsize, u32]
    rw [hnull] at hs
    cases hs
    exact hsmall
  have hroom := hasks.2
  rw [hg.holds.brk] at hroom
  rcases hg.holds.calloc hg.calm (by omega) (Or.inl hasks.1) grant fun hgr _ => hroom hgr with
    hnull | ⟨s₁, h', b, hgives, hgv, htail, -⟩
  · rw [hnull] at hs
    cases hs
    exact hsmall
  · rw [hgives] at hs
    cases hs
    exact hgv.moves.holds.rep.smallTail_iff.mpr (htail (hg.holds.rep.smallTail_iff.mp hsmall))

lemma Good.free_smallTail (hg : Good base p h) (ht : Tiled base h.blocks h.brk) (hv : p.Valid ptr)
    (hs : p.s.free grant ptr = some s') (hsmall : p.s.SmallTail) : s'.SmallTail := by
  rcases hv with rfl | hv
  · simp only [State.free, if_true, Option.some.injEq] at hs
    rwa [← hs]
  · obtain ⟨l, c, r, hlr, hcf, rfl⟩ := hg.block_of_live hv
    obtain ⟨bs, fs, brk⟩ := h
    simp only at hlr ht
    subst hlr
    obtain ⟨s₁, h', hs₁, hfr⟩ := hg.holds.free hg.calm hcf ht.touching grant
    rw [hs₁] at hs
    cases hs
    exact hfr.moves.holds.rep.smallTail_iff.mpr hfr.small

/-- The condition on a cut, read off the memory. -/
lemma Good.smallRest (hg : Good base p ⟨l ++ c :: r, fs, brk⟩) (hsize : size ≠ 0)
    (ht : p.Trims (.realloc (c.addr + 32) size grant)) : SmallRest c r (totalSize size) := by
  intro hcut hlast
  have hnext := hg.holds.rep.nextBlock_eq
  have htrim := ht (by omega) hsize
  rw [Nat.add_sub_cancel, hg.holds.rep.getSize_eq (c := c) (by simp), hg.holds.freeBytes_next] at htrim
  refine htrim hcut ?_
  rw [hnext]
  rcases hlast with rfl | ⟨d, rfl, hd⟩
  · exact Or.inl rfl
  · have hdm : d ∈ l ++ [c, d] := by simp
    refine Or.inr ⟨(hg.holds.rep.isFree_eq hdm).trans hd, ?_⟩
    have hrep := hg.holds.rep
    rw [List.append_cons] at hrep
    exact hrep.nextBlock_eq

lemma Good.realloc_smallTail (hg : Good base p h) (ht : Tiled base h.blocks h.brk)
    (hv : p.Valid ptr) (hasks : p.Asks base size grant) (htrim : p.Trims (.realloc ptr size grant))
    (hs : p.s.realloc grant ptr size = some (s', q)) (hsmall : p.s.SmallTail) : s'.SmallTail := by
  by_cases h0 : ptr = 0
  · subst h0
    exact hg.malloc_smallTail hasks (by simpa [State.realloc] using hs) hsmall
  by_cases hsize : size = 0
  · subst hsize
    simp only [State.realloc, if_neg h0, if_true, Option.bind_eq_bind, Option.bind_eq_some_iff] at hs
    obtain ⟨s₁, hs₁, heq⟩ := hs
    cases heq
    exact hg.free_smallTail ht hv hs₁ hsmall
  obtain ⟨l, c, r, hlr, hcf, rfl⟩ := hg.block_of_live (hv.resolve_left h0)
  obtain ⟨bs, fs, brk⟩ := h
  simp only at hlr ht
  subst hlr
  have hroom := hasks.2
  rw [hg.holds.brk] at hroom
  by_cases hcramped : Cramped c r (totalSize size)
  · rcases hg.holds.realloc_move hg.calm hcf (by omega) (Or.inl hasks.1) grant
      (fun hgr _ => hroom hgr) hcramped
      (fun _ _ _ _ _ _ hgv => hgv.moves.evolves.touching ht) with
      hnull | ⟨s₁, h₁, s₂, h', b, hmoved, -, hfr, -⟩
    · rw [hnull] at hs
      cases hs
      exact hsmall
    · rw [hmoved] at hs
      cases hs
      exact hfr.moves.holds.rep.smallTail_iff.mpr hfr.small
  · obtain ⟨s₁, h', b, hstay, -, hrs, -, htail⟩ := hg.holds.realloc_stay hg.calm hcf (by omega) grant
      (fun _ => ht.touching.next) (fun _ d hd hdf _ => ht.touching.next d hd hdf) hcramped
    rw [hstay] at hs
    cases hs
    exact hrs.moves.holds.rep.smallTail_iff.mpr
      (htail (hg.holds.rep.smallTail_iff.mp hsmall) (hg.smallRest hsize htrim))

lemma Sound.smallTail_step (hs : Sound base p) (hc : Calls base p a p') (ht : p.Trims a)
    (hsmall : p.s.SmallTail) : p'.s.SmallTail := by
  obtain ⟨h, hg, htiled⟩ := hs
  obtain ⟨hl, hq, hstep⟩ := hc
  cases a with
  | malloc size grant =>
    simp only [Process.step, Option.bind_eq_bind, Option.bind_eq_some_iff] at hstep
    obtain ⟨⟨s', q⟩, hs', heq⟩ := hstep
    cases heq
    exact hg.malloc_smallTail hl hs' hsmall
  | calloc nmemb size grant =>
    simp only [Process.step, Option.bind_eq_bind, Option.bind_eq_some_iff] at hstep
    obtain ⟨⟨s', q⟩, hs', heq⟩ := hstep
    cases heq
    exact hg.calloc_smallTail hl hs' hsmall
  | free ptr grant =>
    simp only [Process.step, Option.bind_eq_bind, Option.bind_eq_some_iff] at hstep
    obtain ⟨s', hs', heq⟩ := hstep
    cases heq
    exact hg.free_smallTail htiled hl hs' hsmall
  | realloc ptr size grant =>
    simp only [Process.step, Option.bind_eq_bind, Option.bind_eq_some_iff] at hstep
    obtain ⟨⟨s', q⟩, hs', heq⟩ := hstep
    cases heq
    exact hg.realloc_smallTail htiled hl.1 hl.2 ht hs' hsmall
  | mallocName ptr name =>
    cases hstep
    exact (hg.name_step (a := .mallocName ptr name) hl name).smallTail hg hsmall
  | mallocSetfsm algorithm =>
    cases hstep
    exact (hg.setfsm_step algorithm).smallTail hg hsmall
  | write x v =>
    cases hstep
    exact (hg.write_step hl).smallTail hg hsmall
  | sbrk n grant => exact hq.elim

/-- A call that leaves less than a page free when it cuts at the end of the heap. -/
def TrimmedCall (base : Nat) (p : Process) (a : Action) (p' : Process) : Prop :=
  Calls base p a p' ∧ p.Trims a

/-- In every run in which each `realloc` that cuts leaves less than a page free at the end of the
heap, the tail is never a free block of a page or more, and the loop of `free` takes at most one
round in every call. -/
theorem tail_stays_small (h0 : Start base p₀) (hrun : Steps (TrimmedCall base) p₀ as p) :
    p.s.SmallTail ∧ ∀ a, p.Legal base a → ∃ n ≤ 1, p.rounds a = some n := by
  have hboth : Sound base p ∧ p.s.SmallTail := by
    refine hrun.invariant (I := fun p => Sound base p ∧ p.s.SmallTail) ⟨h0.sound, Or.inl h0.tail⟩
      fun p a p' hp hc => ?_
    exact ⟨hp.1.step hc.1, hp.1.smallTail_step hc.1 hc.2 hp.2⟩
  exact ⟨hboth.2, fun a hl => hboth.1.rounds_le hl⟩

instance (p : Process) : (a : Action) → Decidable (p.Trims a)
  | .realloc ptr size _ => inferInstanceAs (Decidable (ptr ≠ 0 → size ≠ 0 →
    totalSize size + 48 ≤ p.s.getSize (ptr - 32) →
    (p.s.nextBlock (ptr - 32) = 0 ∨ p.s.isFree (p.s.nextBlock (ptr - 32)) = true ∧
      p.s.nextBlock (p.s.nextBlock (ptr - 32)) = 0) →
    p.s.getSize (ptr - 32) + p.s.freeBytes (p.s.nextBlock (ptr - 32)) < totalSize size + 4096))
  | .malloc _ _ => inferInstanceAs (Decidable True)
  | .calloc _ _ _ => inferInstanceAs (Decidable True)
  | .free _ _ => inferInstanceAs (Decidable True)
  | .mallocName _ _ => inferInstanceAs (Decidable True)
  | .mallocSetfsm _ => inferInstanceAs (Decidable True)
  | .write _ _ => inferInstanceAs (Decidable True)
  | .sbrk _ _ => inferInstanceAs (Decidable True)

/-- The next process, if the call leaves less than a page free when it cuts. -/
def Process.trimmedCall (base : Nat) (p : Process) (a : Action) : Option Process :=
  if p.Trims a then p.call base a else none

lemma Process.trimmedCall_calls (hc : p.trimmedCall base a = some p') : TrimmedCall base p a p' := by
  unfold trimmedCall at hc
  split at hc
  · rename_i ht
    exact ⟨Process.call_calls hc, ht⟩
  · cases hc

/-- A block that is cut in the middle of the heap, and a free that gives a page back. -/
theorem tail_stays_small_trace : ∃ as p, Steps (TrimmedCall 20480) (Process.init 20480) as p ∧
    p.s.SmallTail ∧ p.s.brk = 20528 := by
  have hsome : (List.foldlM (Process.trimmedCall 20480) (Process.init 20480)
      [.malloc 8000 true, .malloc 4000 true, .realloc 20512 16 true, .free 28704 true]).any
      (fun p => p.s.brk = 20528) = true := by
    decide
  obtain ⟨p, hp, hbrk⟩ := (Option.any_eq_true _ _).mp hsome
  rw [decide_eq_true_eq] at hbrk
  have hrun := Steps.of_foldlM (fun _ _ _ => Process.trimmedCall_calls) hp
  exact ⟨_, p, hrun,
    (tail_stays_small (Process.start_init (by decide) (by decide)) hrun).1, hbrk⟩

/-- `realloc` of 8000 bytes to 16 leaves 8144 free bytes at the end of the heap. -/
theorem tail_grows : ¬ ∀ base p₀ as p, Start base p₀ → Steps (Calls base) p₀ as p →
    p.s.SmallTail := by
  intro hall
  have hsome : (List.foldlM (Process.call 20480) (Process.init 20480)
      [.malloc 8000 true, .realloc 20512 16 true]).any
      (fun p => p.s.tail = 20528 ∧ p.s.isFree p.s.tail = true ∧ p.s.getSize p.s.tail = 8144) =
      true := by
    decide
  obtain ⟨p, hp, hbits⟩ := (Option.any_eq_true _ _).mp hsome
  rw [decide_eq_true_eq] at hbits
  obtain ⟨htail, hfree, hsize⟩ := hbits
  rcases hall 20480 (Process.init 20480) _ p (Process.start_init (by decide) (by decide))
    (Steps.of_foldlM (fun _ _ _ => Process.call_calls) hp) with h | h | h
  · omega
  · simp [hfree] at h
  · omega

end FogOS.Umalloc
