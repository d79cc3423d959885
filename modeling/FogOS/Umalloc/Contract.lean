import FogOS.Umalloc.Program

/-!
# The contract of the allocator

The heap invariant and the contract with the program, over every run and in terms of what can be
read from the memory of the process: the blocks met from `head` and the nodes met from `free_head`.
-/

namespace FogOS.Umalloc

open ByteMem

/-! ### Walks -/

/-- The nodes met from `a` on, at most `n` of them. -/
def walk (next : Nat → Nat) : Nat → Nat → List Nat
  | 0, _ => []
  | n + 1, a => if a = 0 then [] else a :: walk next n (next a)

/-- The blocks met from `head` along `next_block`. -/
def State.blocks (s : State) : List Nat := walk s.nextBlock addresses s.head

/-- The blocks met from `free_head` along `next_free`. -/
def State.frees (s : State) : List Nat := walk s.nextFree addresses s.freeHead

variable {base : Nat} {p p' p₀ : Process} {h h' : Heap} {s s' : State} {a : Action}
  {as : List Action} {b c d : Block} {bs l r : List Block} {fs : List Nat} {size ptr q brk : Nat}

lemma walk_eq {next : Nat → Nat} {k : List Nat} {n : Nat} (hn : k.length < n)
    (hk : ∀ l x r, k = l ++ x :: r → x ≠ 0 ∧ next x = r.headD 0) : walk next n (k.headD 0) = k := by
  induction n generalizing k with
  | zero => simp at hn
  | succ n ih =>
    cases k with
    | nil => simp [walk]
    | cons x k =>
      obtain ⟨hx, hnext⟩ := hk [] x k rfl
      have hrest := ih (k := k) (by simpa using hn) fun l y r hy => hk (x :: l) y r (by simp [hy])
      rw [List.headD_cons, walk, if_neg hx, hnext, hrest]

lemma Rep.blocks_eq (hr : Rep s bs fs) : s.blocks = addrs bs := by
  unfold State.blocks
  rw [hr.head_eq]
  refine walk_eq (hr.length_lt (List.nodup_cons.mp hr.nodup_addr).2 fun _ hx => hx) ?_
  intro k x m hk
  obtain ⟨l, r', rfl, rfl, hr'⟩ := List.map_eq_append_iff.mp hk
  obtain ⟨c, r, rfl, rfl, rfl⟩ := List.map_eq_cons_iff.mp hr'
  exact ⟨hr.ne_zero (c := c) (by simp), hr.nextBlock_eq⟩

lemma Rep.frees_eq (hr : Rep s bs fs) : s.frees = fs := by
  unfold State.frees
  rw [hr.freeHead_eq]
  refine walk_eq (hr.length_lt hr.nodup hr.sub) ?_
  rintro k x m rfl
  exact ⟨hr.ne_zero_of_free (by simp), hr.nextFree_eq⟩

/-! ### The heap invariant -/

/-- The representation invariant of `umalloc.c` for a heap that starts at `base`. -/
structure Invariant (base : Nat) (s : State) : Prop where
  head : s.head = s.blocks.headD 0
  tail : s.tail = s.blocks.getLastD 0
  next : ∀ l a r, s.blocks = l ++ a :: r → s.nextBlock a = r.headD 0
  prev : ∀ l a r, s.blocks = l ++ a :: r → s.prevBlock a = l.getLastD 0
  ascending : s.blocks.Pairwise (· < ·)
  first : s.blocks.headD s.brk = base
  tiles : ∀ l a r, s.blocks = l ++ a :: r → a + s.getSize a = r.headD s.brk
  aligned : ∀ a ∈ s.blocks, a % 16 = 0
  size : ∀ a ∈ s.blocks, s.getSize a % 16 = 0 ∧ 48 ≤ s.getSize a
  freeHead : s.freeHead = s.frees.headD 0
  nextFree : ∀ l a r, s.frees = l ++ a :: r → s.nextFree a = r.headD 0
  prevFree : ∀ l a r, s.frees = l ++ a :: r → s.prevFree a = l.getLastD 0
  nodup : s.frees.Nodup
  free_iff : ∀ a, a ∈ s.frees ↔ a ∈ s.blocks ∧ s.isFree a = true
  calm : ∀ l a b r, s.blocks = l ++ a :: b :: r → ¬ (s.isFree a = true ∧ s.isFree b = true)

lemma addrs_split {k m : List Nat} {x : Nat} (hk : addrs bs = k ++ x :: m) :
    ∃ l c r, bs = l ++ c :: r ∧ addrs l = k ∧ c.addr = x ∧ addrs r = m := by
  obtain ⟨l, r', rfl, rfl, hr'⟩ := List.map_eq_append_iff.mp hk
  obtain ⟨c, r, rfl, rfl, rfl⟩ := List.map_eq_cons_iff.mp hr'
  exact ⟨l, c, r, rfl, rfl, rfl, rfl⟩

lemma Tiled.headD_eq {t e : Nat} (ht : Tiled t bs e) : (addrs bs).headD e = t := by
  cases bs with
  | nil => exact ht.symm
  | cons b bs => exact ht.1

lemma Tiled.tail_tiled {t e : Nat} (ht : Tiled t (l ++ c :: r) e) : Tiled (c.addr + c.size) r e := by
  obtain ⟨m, -, hc, hr⟩ := tiled_append.mp ht
  rw [hc]
  exact hr

/-- The blocks of a tiled heap are as aligned as its base. -/
lemma Holds.aligned (hh : Holds base s h) (ht : Tiled base h.blocks h.brk) (hbase : base % 16 = 0)
    (hc : c ∈ h.blocks) : c.addr % 16 = 0 := by
  obtain ⟨l, r, hlr⟩ := List.append_of_mem hc
  have hsz : ∀ b ∈ l, b.size % 16 = 0 := fun b hb => (hh.wf.size b (by simp [hlr, hb])).1
  rw [hlr] at ht
  clear hlr hc hh
  induction l generalizing base with
  | nil => rw [ht.1]; exact hbase
  | cons b l ih =>
    have hb := hsz b (by simp)
    have hnext : (base + b.size) % 16 = 0 := by omega
    exact ih hnext ht.2 fun e he => hsz e (by simp [he])

theorem Holds.invariant (hh : Holds base s h) (hcalm : Calm h.blocks)
    (ht : Tiled base h.blocks h.brk) (hbase : base % 16 = 0) : Invariant base s := by
  have hbl := hh.rep.blocks_eq
  have hfr := hh.rep.frees_eq
  obtain ⟨bs, fs, brk⟩ := h
  simp only at hbl hfr ht hcalm
  have hbrk : s.brk = brk := hh.brk
  refine ⟨?_, ?_, fun k x m hk => ?_, fun k x m hk => ?_, ?_, ?_, fun k x m hk => ?_,
    fun x hx => ?_, fun x hx => ?_, ?_, fun k x m hk => ?_, fun k x m hk => ?_, ?_, fun x => ?_,
    fun k x y m hk => ?_⟩
  · rw [hbl]
    exact hh.rep.head_eq
  · rw [hbl]
    exact hh.rep.tail_eq
  · obtain ⟨l, c, r, rfl, rfl, rfl, rfl⟩ := addrs_split (hbl.symm.trans hk)
    exact hh.rep.nextBlock_eq
  · obtain ⟨l, c, r, rfl, rfl, rfl, rfl⟩ := addrs_split (hbl.symm.trans hk)
    exact hh.rep.prevBlock_eq
  · rw [hbl, addrs, List.pairwise_map]
    exact hh.rep.spaced.imp fun hxy => by omega
  · rw [hbl, hbrk]
    exact ht.headD_eq
  · obtain ⟨l, c, r, rfl, rfl, rfl, rfl⟩ := addrs_split (hbl.symm.trans hk)
    rw [hbrk, hh.rep.getSize_eq (c := c) (by simp), ht.tail_tiled.headD_eq]
  · rw [hbl] at hx
    obtain ⟨c, hc, rfl⟩ := List.mem_map.mp hx
    exact hh.aligned ht hbase hc
  · rw [hbl] at hx
    obtain ⟨c, hc, rfl⟩ := List.mem_map.mp hx
    rw [hh.rep.getSize_eq hc]
    exact hh.wf.size c hc
  · rw [hfr]
    exact hh.rep.freeHead_eq
  · obtain rfl := hfr.symm.trans hk
    exact hh.rep.nextFree_eq
  · obtain rfl := hfr.symm.trans hk
    exact hh.rep.prevFree_eq
  · rw [hfr]
    exact hh.rep.nodup
  · rw [hfr, hbl]
    constructor
    · intro hx
      obtain ⟨c, hc, rfl⟩ := List.mem_map.mp (hh.wf.sub x hx)
      rw [hh.rep.isFree_eq hc]
      exact ⟨List.mem_map_of_mem hc, (hh.wf.marked c hc).mpr hx⟩
    · rintro ⟨hx, hfree⟩
      obtain ⟨c, hc, rfl⟩ := List.mem_map.mp hx
      rw [hh.rep.isFree_eq hc] at hfree
      exact (hh.wf.marked c hc).mp hfree
  · obtain ⟨l, c, r', rfl, rfl, rfl, hr'⟩ := addrs_split (hbl.symm.trans hk)
    obtain ⟨d, r, rfl, rfl, rfl⟩ := List.map_eq_cons_iff.mp hr'
    rw [hh.rep.isFree_eq (c := c) (by simp), hh.rep.isFree_eq (c := d) (by simp)]
    rintro ⟨hcf, hdf⟩
    have := hcalm.next hcf d rfl
    simp [hdf] at this

/-! ### Runs -/

/-- An action of a program that leaves the break to the allocator. -/
def Calls (base : Nat) (p : Process) (a : Action) (p' : Process) : Prop :=
  p.Legal base a ∧ a.Quiet ∧ p.step a = some p'

/-- The process is good, and its blocks tile the heap. -/
def Sound (base : Nat) (p : Process) : Prop :=
  ∃ h, Good base p h ∧ Tiled base h.blocks h.brk

lemma Start.good (h0 : Start base p) : Good base p ⟨[], [], base⟩ where
  holds := by
    refine ⟨⟨?_, ?_, by simp, by simp, by simp, by simp, by simp, by simp⟩, ⟨h0.base_pos, h0.base_lt,
      le_refl _, by simp only; omega, by simp, by simp, by simp, by simp, by simp, by simp,
      by simp⟩, h0.brk⟩
    · simp [Ring.isRing_nil, State.field, State.root, h0.head, h0.tail]
    · simp [Ring.isRing_nil, State.field, State.root, State.freePrev, h0.freeHead]
  calm := List.IsChain.nil
  live_used := by simp [h0.live]
  used_live := by simp
  nodup := by simp [h0.live]
  idle := by simp
  own := by simp [h0.own]

lemma Start.sound (h0 : Start base p) : Sound base p := ⟨_, h0.good, rfl⟩

lemma Sound.step (hs : Sound base p) (hc : Calls base p a p') : Sound base p' := by
  obtain ⟨h, hg, ht⟩ := hs
  obtain ⟨hl, hq, hstep⟩ := hc
  obtain ⟨p₁, h', hp₁, hadv⟩ := hg.step hl ht.snug
  obtain rfl : p₁ = p' := Option.some.inj (hp₁.symm.trans hstep)
  exact ⟨h', hadv.good, hadv.tiled hq base ht⟩

lemma Sound.of_run (h0 : Start base p₀) (hrun : Steps (Calls base) p₀ as p) : Sound base p :=
  hrun.invariant h0.sound fun _ _ _ => Sound.step

/-- The live allocations of a good process are the blocks in use. -/
lemma Good.live_iff (hg : Good base p h) : q ∈ p.live.map Prod.fst ↔
    ∃ x ∈ p.s.blocks, p.s.isFree x = false ∧ q = x + 32 := by
  rw [hg.holds.rep.blocks_eq]
  constructor
  · intro hq
    obtain ⟨l, c, r, hlr, hcf, rfl⟩ := hg.block_of_live hq
    have hc : c ∈ h.blocks := by simp [hlr]
    refine ⟨c.addr, List.mem_map_of_mem hc, ?_, rfl⟩
    rw [hg.holds.rep.isFree_eq hc, hcf]
  · rintro ⟨x, hx, hxf, rfl⟩
    obtain ⟨c, hc, rfl⟩ := List.mem_map.mp hx
    rw [hg.holds.rep.isFree_eq hc] at hxf
    exact hg.used_live c hc hxf

/-- In every run the heap keeps its invariant, the blocks in use are the live allocations, and
every further call returns. -/
theorem heap_invariant (h0 : Start base p₀) (hbase : base % 16 = 0)
    (hrun : Steps (Calls base) p₀ as p) :
    Invariant base p.s ∧
      (∀ q, q ∈ p.live.map Prod.fst ↔ ∃ x ∈ p.s.blocks, p.s.isFree x = false ∧ q = x + 32) ∧
      ∀ a, p.Legal base a → a.Quiet → ∃ p', p.step a = some p' := by
  obtain ⟨h, hg, ht⟩ := Sound.of_run h0 hrun
  refine ⟨hg.holds.invariant hg.calm ht hbase, fun q => hg.live_iff, fun a hl _ => ?_⟩
  obtain ⟨p', -, hp', -⟩ := hg.step hl ht.snug
  exact ⟨p', hp'⟩

/-- A process whose heap will start at address `base`. -/
def Process.init (base : Nat) : Process := ⟨⟨fun _ => 0, 0, 0, 0, 0, base⟩, [], []⟩

lemma Process.start_init (hpos : 0 < base) (hlt : base < 2 ^ 38) : Start base (Process.init base) :=
  ⟨hpos, hlt, rfl, rfl, rfl, rfl, rfl, rfl⟩

/-- The next process, if the action is legal and leaves the break to the allocator. -/
def Process.call (base : Nat) (p : Process) (a : Action) : Option Process :=
  if p.Legal base a ∧ a.Quiet then p.step a else none

lemma Process.call_calls (hc : p.call base a = some p') : Calls base p a p' := by
  unfold Process.call at hc
  split at hc
  · rename_i hl
    exact ⟨hl.1, hl.2, hc⟩
  · cases hc

/-- A run that splits, zeroes, moves a block, frees and switches the algorithm. -/
theorem heap_invariant_trace :
    ∃ as p, Steps (Calls 20480) (Process.init 20480) as p ∧ p.live.length = 3 ∧
      Invariant 20480 p.s := by
  have hsome : (List.foldlM (Process.call 20480) (Process.init 20480)
      [.malloc 10 true, .calloc 2 4 true, .malloc 9 true, .realloc 20560 20 true,
        .mallocSetfsm 2, .free 20512 true, .malloc 1 true]).any
      (fun p => p.live.length = 3) = true := by
    decide +kernel
  obtain ⟨p, hp, hlen⟩ := (Option.any_eq_true _ _).mp hsome
  have hrun := Steps.of_foldlM (fun _ _ _ => Process.call_calls) hp
  have hstart : Start 20480 (Process.init 20480) := Process.start_init (by decide) (by decide)
  exact ⟨_, p, hrun, by simpa using hlen, (heap_invariant hstart (by decide) hrun).1⟩

/-! ### The contract with the program -/

/-- Where the payloads of the live allocations lie. -/
structure Layout (base : Nat) (p : Process) : Prop where
  aligned : ∀ e ∈ p.live, e.1 % 16 = 0
  disjoint : p.live.Pairwise fun e f => p.payloadEnd e.1 ≤ f.1 ∨ p.payloadEnd f.1 ≤ e.1
  headers : ∀ e ∈ p.live, ∀ x ∈ p.s.blocks, x + 32 ≤ e.1 ∨ p.payloadEnd e.1 ≤ x
  nodes : ∀ e ∈ p.live, ∀ x ∈ p.s.frees, x + 48 ≤ e.1 ∨ p.payloadEnd e.1 ≤ x + 32
  inside : ∀ e ∈ p.live, base ≤ e.1 ∧ p.payloadEnd e.1 ≤ p.s.brk
  long : ∀ e ∈ p.live, e.1 + e.2 ≤ p.payloadEnd e.1

/-- The block of a live allocation ends where its payload ends. -/
lemma Good.payload_of_live (hg : Good base p h) {e : Nat × Nat} (he : e ∈ p.live) :
    ∃ b ∈ h.blocks, b.free = false ∧ e.1 = b.addr + 32 ∧ 32 + e.2 ≤ b.size ∧
      p.payloadEnd e.1 = b.addr + b.size := by
  obtain ⟨b, hb, hbf, hbe, -, hbs⟩ := hg.live_used e he
  refine ⟨b, hb, hbf, hbe, hbs, ?_⟩
  unfold Process.payloadEnd
  rw [hbe, Nat.add_sub_cancel, hg.holds.rep.getSize_eq hb]

/-- Distinct live allocations do not overlap. -/
lemma Good.live_disjoint (hg : Good base p h) :
    p.live.Pairwise fun e f => p.payloadEnd e.1 ≤ f.1 ∨ p.payloadEnd f.1 ≤ e.1 := by
  have hnd : p.live.Pairwise fun e f => e.1 ≠ f.1 := List.pairwise_map.mp hg.nodup
  refine hnd.imp_of_mem fun {e f} he hf hne => ?_
  obtain ⟨b, hb, -, hbe, -, hbp⟩ := hg.payload_of_live he
  obtain ⟨c, hc, -, hcf, -, hcp⟩ := hg.payload_of_live hf
  have hbc : b ≠ c := by
    rintro rfl
    exact hne (hbe.trans hcf.symm)
  rcases hg.holds.wf.disjoint hb hc hbc with h1 | h1 <;> omega

lemma Good.layout (hg : Good base p h) (ht : Tiled base h.blocks h.brk) (hbase : base % 16 = 0) :
    Layout base p where
  aligned e he := by
    obtain ⟨b, hb, -, hbe, -⟩ := hg.payload_of_live he
    have := hg.holds.aligned ht hbase hb
    omega
  disjoint := hg.live_disjoint
  headers e he x hx := by
    rw [hg.holds.rep.blocks_eq] at hx
    obtain ⟨c, hc, rfl⟩ := List.mem_map.mp hx
    obtain ⟨b, hb, -, hbe, -, hbp⟩ := hg.payload_of_live he
    have h48 := (hg.holds.wf.size c hc).2
    by_cases hbc : b = c
    · subst hbc; omega
    · rcases hg.holds.wf.disjoint hb hc hbc with h1 | h1 <;> omega
  nodes e he x hx := by
    rw [hg.holds.rep.frees_eq] at hx
    obtain ⟨c, hc, rfl⟩ := List.mem_map.mp (hg.holds.wf.sub x hx)
    obtain ⟨b, hb, hbf, hbe, -, hbp⟩ := hg.payload_of_live he
    have h48 := (hg.holds.wf.size c hc).2
    have hbc : b ≠ c := by
      rintro rfl
      simp [(hg.holds.wf.marked b hb).mpr hx] at hbf
    rcases hg.holds.wf.disjoint hb hc hbc with h1 | h1 <;> omega
  inside e he := by
    obtain ⟨b, hb, -, hbe, -, hbp⟩ := hg.payload_of_live he
    have h1 := hg.holds.wf.low b hb
    have h2 := hg.holds.wf.top b hb
    rw [hbp, hg.holds.brk]
    exact ⟨by omega, h2⟩
  long e he := by
    obtain ⟨b, hb, -, hbe, hbs, hbp⟩ := hg.payload_of_live he
    omega

/-- Actions on other allocations leave a live allocation and its bytes alone. -/
lemma Sound.keeps_live {e : Nat × Nat} (hs : Sound base p) (he : e ∈ p.live)
    (hrun : Steps (Calls base) p as p') (has : ∀ a ∈ as, a.target ≠ e.1) :
    e ∈ p'.live ∧ ∀ x, e.1 ≤ x → x < p.payloadEnd e.1 → (∀ a ∈ as, ∀ v, a ≠ .write x v) →
      p'.s.mem x = p.s.mem x := by
  obtain ⟨h, hg, ht⟩ := hs
  obtain ⟨b, hb, hbf, hbe, -, hbp⟩ := hg.payload_of_live he
  -- the block stays the same all along the run
  have key : ∃ h', Good base p' h' ∧ Tiled base h'.blocks h'.brk ∧ b ∈ h'.blocks ∧ e ∈ p'.live ∧
      ∀ x, b.Payload x → (∀ a ∈ as, ∀ v, a ≠ .write x v) → p'.s.mem x = p.s.mem x := by
    induction hrun with
    | nil => exact ⟨h, hg, ht, hb, he, fun _ _ _ => rfl⟩
    | @snoc p₁ p₂ as a hrun hc ih =>
      obtain ⟨h₁, hg₁, ht₁, hb₁, he₁, hm₁⟩ := ih fun a ha => has a (by simp [ha])
      obtain ⟨hl, hq, hstep⟩ := hc
      obtain ⟨p₃, h₂, hp₃, hadv⟩ := hg₁.step hl ht₁.snug
      obtain rfl : p₃ = p₂ := Option.some.inj (hp₃.symm.trans hstep)
      have hta := has a (by simp)
      refine ⟨h₂, hadv.good, hadv.tiled hq base ht₁, hadv.kept b hb₁ hbf (by omega),
        hadv.live e he₁ hta.symm, fun x hx hw => ?_⟩
      rw [hadv.bytes b hb₁ hbf (by omega) x hx (hw a (by simp)),
        hm₁ x hx fun a ha => hw a (by simp [ha])]
  obtain ⟨h', -, -, -, he', hm⟩ := key
  exact ⟨he', fun x h1 h2 => hm x ⟨by omega, by omega⟩⟩

/-- In every run the payloads are laid out as the program expects, and what the program stores in an
allocation stays there until it frees or resizes that allocation, or writes to the byte again. -/
theorem client_contract (h0 : Start base p₀) (hbase : base % 16 = 0)
    (hrun : Steps (Calls base) p₀ as p) :
    Layout base p ∧ ∀ as' p', Steps (Calls base) p as' p' → ∀ e ∈ p.live,
      (∀ a ∈ as', a.target ≠ e.1) → e ∈ p'.live ∧ ∀ x, e.1 ≤ x → x < p.payloadEnd e.1 →
        (∀ a ∈ as', ∀ v, a ≠ .write x v) → p'.s.mem x = p.s.mem x := by
  have hs := Sound.of_run h0 hrun
  constructor
  · obtain ⟨h, hg, ht⟩ := hs
    exact hg.layout ht hbase
  · intro as' p' hrun' e he has
    exact hs.keeps_live he hrun' has

/-- A byte that is stored, and is still there after another allocation is freed. -/
theorem client_contract_trace : ∃ as p p', Steps (Calls 20480) (Process.init 20480) as p ∧
    p.call 20480 (.free 20512 true) = some p' ∧ Layout 20480 p ∧ p.s.mem 20565 = 7 ∧
      p'.s.mem 20565 = 7 := by
  have hsome : (List.foldlM (Process.call 20480) (Process.init 20480)
      [.malloc 10 true, .malloc 9 true, .write 20565 7]).any
      (fun p => (20560, 9) ∈ p.live ∧ p.payloadEnd 20560 = 20576 ∧ p.s.mem 20565 = 7 ∧
        (p.call 20480 (.free 20512 true)).isSome) = true := by
    decide
  obtain ⟨p, hp, hbits⟩ := (Option.any_eq_true _ _).mp hsome
  rw [decide_eq_true_eq] at hbits
  obtain ⟨hlive, hend, hmem, hfree⟩ := hbits
  obtain ⟨p', hp'⟩ := Option.isSome_iff_exists.mp hfree
  have hrun := Steps.of_foldlM (fun _ _ _ => Process.call_calls) hp
  have hstart : Start 20480 (Process.init 20480) := Process.start_init (by decide) (by decide)
  have hboth := client_contract hstart (by decide) hrun
  have hkeep := hboth.2 [.free 20512 true] p'
    (Steps.cons (Process.call_calls hp') (Steps.nil p')) (20560, 9) hlive (by simp [Action.target])
  refine ⟨_, p, p', hrun, hp', hboth.1, hmem, ?_⟩
  rw [hkeep.2 20565 (by simp) (by simp [hend]) (by simp), hmem]

/-! ### Giving everything back -/

/-- Without an allocation the heap is empty, or one free block that is too small to be trimmed. -/
lemma Good.blocks_of_idle (hg : Good base p h) (hidle : p.live = []) :
    h.blocks = [] ∨ ∃ b, h.blocks = [b] ∧ b.free = true ∧ b.size < 4096 := by
  have hfree : ∀ b ∈ h.blocks, b.free = true := by
    intro b hb
    by_contra hbf
    have := hg.used_live b hb (by simpa using hbf)
    simp [hidle] at this
  rcases List.eq_nil_or_concat h.blocks with hnil | ⟨l, b, hlb⟩
  · exact Or.inl hnil
  · rw [List.concat_eq_append] at hlb
    have hb := hfree b (by simp [hlb])
    have hcalm := hg.calm
    rw [hlb] at hcalm
    have hl : l = [] := by
      rcases List.eq_nil_or_concat l with hnil | ⟨k, c, rfl⟩
      · exact hnil
      · rw [List.concat_eq_append] at hlb hcalm
        have h1 := Calm.prev hcalm hb c (by simp)
        have h2 := hfree c (by simp [hlb])
        simp [h1] at h2
    subst hl
    exact Or.inr ⟨b, hlb, hb, hg.idle hidle b (by simp [hlb]) hb⟩

/-- In every run, when no allocation is live, all memory is given back but for one free block of
less than 4096 bytes. -/
theorem idle_heap (h0 : Start base p₀) (hrun : Steps (Calls base) p₀ as p) (hidle : p.live = []) :
    (p.s.head = 0 ∧ p.s.tail = 0 ∧ p.s.freeHead = 0 ∧ p.s.brk = base) ∨
      (p.s.blocks = [base] ∧ p.s.frees = [base] ∧ p.s.head = base ∧ p.s.tail = base ∧
        p.s.freeHead = base ∧ p.s.isFree base = true ∧ p.s.getSize base < 4096 ∧
        base + p.s.getSize base = p.s.brk) := by
  obtain ⟨h, hg, ht⟩ := Sound.of_run h0 hrun
  obtain ⟨bs, fs, brk⟩ := h
  have hbrk : p.s.brk = brk := hg.holds.brk
  have hhead := hg.holds.rep.head_eq
  have htail := hg.holds.rep.tail_eq
  have hfh := hg.holds.rep.freeHead_eq
  have hbl := hg.holds.rep.blocks_eq
  have hfr := hg.holds.rep.frees_eq
  rcases hg.blocks_of_idle hidle with hnil | ⟨b, hone, hbf, hbs⟩
  · left
    simp only at hnil
    subst hnil
    have hfs : fs = [] := by
      rw [List.eq_nil_iff_forall_not_mem]
      intro x hx
      simpa using hg.holds.wf.sub x hx
    subst hfs
    exact ⟨hhead, htail, hfh, hbrk.trans ht.symm⟩
  · right
    simp only at hone
    subst hone
    obtain ⟨haddr, hend⟩ := ht
    have hb : b ∈ [b] := by simp
    have hfs : fs = [base] := by
      have hmem : base ∈ fs := by
        rw [← haddr]
        exact (hg.holds.wf.marked b hb).mp hbf
      have hall : ∀ x ∈ fs, x = base := fun x hx => by
        have := hg.holds.wf.sub x hx
        simpa [haddr] using this
      have hnd := hg.holds.wf.nodup
      cases fs with
      | nil => simp at hmem
      | cons x fs =>
        obtain rfl := hall x (by simp)
        cases fs with
        | nil => rfl
        | cons y fs =>
          obtain rfl := hall y (by simp)
          simp at hnd
    subst hfs
    have hsize := hg.holds.rep.getSize_eq hb
    have hisf := hg.holds.rep.isFree_eq hb
    rw [haddr] at hsize hisf
    refine ⟨by simpa [haddr] using hbl, hfr, by simpa [haddr] using hhead,
      by simpa [haddr] using htail, hfh, hisf.trans hbf, by omega, ?_⟩
    rw [hsize, hbrk]
    exact hend

/-- The first of two blocks, freed last: 4032 bytes stay. -/
theorem idle_heap_leftover : ∃ as p, Steps (Calls 20480) (Process.init 20480) as p ∧
    p.live = [] ∧ p.s.brk = 24512 ∧ p.s.isFree 20480 = true := by
  have hsome : (List.foldlM (Process.call 20480) (Process.init 20480)
      [.malloc 4000 true, .malloc 4000 true, .free 24608 true, .free 20512 true]).any
      (fun p => p.live = [] ∧ p.s.brk = 24512 ∧ p.s.head ≠ 0) = true := by
    decide
  obtain ⟨p, hp, hbits⟩ := (Option.any_eq_true _ _).mp hsome
  rw [decide_eq_true_eq] at hbits
  obtain ⟨hlive, hbrk, hhead⟩ := hbits
  have hrun := Steps.of_foldlM (fun _ _ _ => Process.call_calls) hp
  have hstart : Start 20480 (Process.init 20480) := Process.start_init (by decide) (by decide)
  rcases idle_heap hstart hrun hlive with hall | hone
  · exact absurd hall.1 hhead
  · exact ⟨_, p, hrun, hlive, hbrk, hone.2.2.2.2.2.1⟩

/-- Freeing everything does not always return all memory. -/
theorem idle_heap_not_empty : ¬ ∀ base p₀ as p ptr grant p', Start base p₀ →
    Steps (Calls base) p₀ as p → Calls base p (.free ptr grant) p' → p'.live = [] →
    p'.s.head = 0 ∧ p'.s.tail = 0 ∧ p'.s.freeHead = 0 ∧ p'.s.brk = base := by
  intro hall
  have hsome : (List.foldlM (Process.call 20480) (Process.init 20480)
      [.malloc 4000 true, .malloc 4000 true, .free 24608 true]).any
      (fun p => (p.call 20480 (.free 20512 true)).any
        fun p' => p'.live = [] ∧ p'.s.brk = 24512) = true := by
    decide
  obtain ⟨p, hp, hbits⟩ := (Option.any_eq_true _ _).mp hsome
  obtain ⟨p', hp', hbits'⟩ := (Option.any_eq_true _ _).mp hbits
  rw [decide_eq_true_eq] at hbits'
  have hend := hall 20480 (Process.init 20480) _ p 20512 true p'
    (Process.start_init (by decide) (by decide))
    (Steps.of_foldlM (fun _ _ _ => Process.call_calls) hp) (Process.call_calls hp') hbits'.1
  omega

end FogOS.Umalloc
