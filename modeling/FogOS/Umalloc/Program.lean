import FogOS.Lib.Steps
import FogOS.Umalloc.Calls

/-!
# Programs that use the allocator

A program calls the allocator, writes to its memory and may call `sbrk` itself. Next to the state
of the process we keep what the program knows: its live allocations and the memory it got from its
own `sbrk` calls.
-/

namespace FogOS.Umalloc

open ByteMem

structure Process where
  s : State
  live : List (Nat × Nat)
  own : List (Nat × Nat)

/-- The actions of a program. `grant` is the answer of the kernel, should it be asked for more
memory. -/
inductive Action where
  | malloc (size : Nat) (grant : Bool)
  | calloc (nmemb size : Nat) (grant : Bool)
  | free (ptr : Nat) (grant : Bool)
  | realloc (ptr size : Nat) (grant : Bool)
  | mallocName (ptr name : Nat)
  | mallocSetfsm (algorithm : Int)
  | write (x : Nat) (v : UInt8)
  | sbrk (n : Nat) (grant : Bool)
  deriving DecidableEq

/-- The live allocations after an allocation of `size` bytes that returned `q`. -/
def record (q size : Nat) (live : List (Nat × Nat)) : List (Nat × Nat) :=
  if q = 0 then live else (q, size) :: live

/-- The live allocations without `ptr`. -/
def forget (ptr : Nat) (live : List (Nat × Nat)) : List (Nat × Nat) :=
  live.filter fun e => e.1 ≠ ptr

/-- The live allocations after a `realloc` that returned `q`. One that fails leaves the old
allocation alone. -/
def relist (q ptr size : Nat) (live : List (Nat × Nat)) : List (Nat × Nat) :=
  if q = 0 ∧ size ≠ 0 then live else record q size (forget ptr live)

namespace Process

/-- `none` means that the call does not return. -/
def step (p : Process) : Action → Option Process
  | .malloc size grant => do
    let (s, q) ← p.s.malloc grant size
    some { p with s := s, live := record q size p.live }
  | .calloc nmemb size grant => do
    let (s, q) ← p.s.calloc grant nmemb size
    some { p with s := s, live := record q (nmemb * size) p.live }
  | .free ptr grant => do
    let s ← p.s.free grant ptr
    some { p with s := s, live := forget ptr p.live }
  | .realloc ptr size grant => do
    let (s, q) ← p.s.realloc grant ptr size
    some { p with s := s, live := relist q ptr size p.live }
  | .mallocName ptr name => some { p with s := p.s.mallocName ptr name }
  | .mallocSetfsm algorithm => some { p with s := p.s.mallocSetfsm algorithm }
  | .write x v => some { p with s := { p.s with mem := p.s.mem.write x v } }
  | .sbrk n grant =>
    let (s, q) := p.s.sbrk grant n
    some { p with s := s, own := if q = 2 ^ 64 - 1 then p.own else (q, q + n) :: p.own }

/-- The pointer is NULL or live. -/
def Valid (p : Process) (ptr : Nat) : Prop := ptr = 0 ∨ ptr ∈ p.live.map Prod.fst

/-- A request of `size` bytes: its total does not wrap, and the heap stays below `2 ^ 31` bytes if
the kernel gives the pages. -/
def Asks (base : Nat) (p : Process) (size : Nat) (grant : Bool) : Prop :=
  Fair size ∧ (grant = true → p.s.brk + pageSize (totalSize size) < base + 2 ^ 31)

/-- The end of the payload that `ptr` points to. -/
def payloadEnd (p : Process) (ptr : Nat) : Nat := ptr - 32 + p.s.getSize (ptr - 32)

/-- The program may write to the payload of its allocations and to its own memory. -/
def Writable (p : Process) (x : Nat) : Prop :=
  (∃ e ∈ p.live, e.1 ≤ x ∧ x < p.payloadEnd e.1) ∨ ∃ e ∈ p.own, e.1 ≤ x ∧ x < e.2

/-- What is asked of a program. -/
def Legal (base : Nat) (p : Process) : Action → Prop
  | .malloc size grant => p.Asks base size grant
  | .calloc nmemb size grant => p.Asks base (nmemb * size) grant
  | .free ptr _ => p.Valid ptr
  | .realloc ptr size grant => p.Valid ptr ∧ p.Asks base size grant
  | .mallocName ptr _ => p.Valid ptr
  | .mallocSetfsm _ => True
  | .write x _ => p.Writable x
  | .sbrk n grant => 0 < n ∧ n < 2 ^ 31 ∧ (grant = true → p.s.brk + n < base + 2 ^ 31)

end Process

/-- Only the allocator moves the break. -/
def Action.Quiet : Action → Prop
  | .sbrk _ _ => False
  | _ => True

/-- Before the first call: the lists are empty and the break is `base`. -/
structure Start (base : Nat) (p : Process) : Prop where
  base_pos : 0 < base
  base_lt : base < 2 ^ 38
  head : p.s.head = 0
  tail : p.s.tail = 0
  freeHead : p.s.freeHead = 0
  brk : p.s.brk = base
  live : p.live = []
  own : p.own = []

/-! ### Decidability -/

instance (size : Nat) : Decidable (Fair size) := inferInstanceAs (Decidable (_ < _))

namespace Process

instance (p : Process) (ptr : Nat) : Decidable (p.Valid ptr) := inferInstanceAs (Decidable (_ ∨ _))

instance (base : Nat) (p : Process) (size : Nat) (grant : Bool) :
    Decidable (p.Asks base size grant) := inferInstanceAs (Decidable (_ ∧ _))

instance (p : Process) (x : Nat) : Decidable (p.Writable x) := inferInstanceAs (Decidable (_ ∨ _))

instance (base : Nat) (p : Process) : (a : Action) → Decidable (p.Legal base a)
  | .malloc size grant => inferInstanceAs (Decidable (p.Asks base size grant))
  | .calloc nmemb size grant => inferInstanceAs (Decidable (p.Asks base (nmemb * size) grant))
  | .free ptr _ => inferInstanceAs (Decidable (p.Valid ptr))
  | .realloc ptr size grant => inferInstanceAs (Decidable (p.Valid ptr ∧ p.Asks base size grant))
  | .mallocName ptr _ => inferInstanceAs (Decidable (p.Valid ptr))
  | .mallocSetfsm _ => inferInstanceAs (Decidable True)
  | .write x _ => inferInstanceAs (Decidable (p.Writable x))
  | .sbrk n grant => inferInstanceAs
    (Decidable (0 < n ∧ n < 2 ^ 31 ∧ (grant = true → p.s.brk + n < base + 2 ^ 31)))

end Process

instance : (a : Action) → Decidable a.Quiet
  | .malloc _ _ => inferInstanceAs (Decidable True)
  | .calloc _ _ _ => inferInstanceAs (Decidable True)
  | .free _ _ => inferInstanceAs (Decidable True)
  | .realloc _ _ _ => inferInstanceAs (Decidable True)
  | .mallocName _ _ => inferInstanceAs (Decidable True)
  | .mallocSetfsm _ => inferInstanceAs (Decidable True)
  | .write _ _ => inferInstanceAs (Decidable True)
  | .sbrk _ _ => inferInstanceAs (Decidable False)

/-! ### The invariant -/

/-- The heap of the process, its live allocations and its own memory agree. -/
structure Good (base : Nat) (p : Process) (h : Heap) : Prop where
  holds : Holds base p.s h
  calm : Calm h.blocks
  live_used : ∀ e ∈ p.live, ∃ b ∈ h.blocks, b.free = false ∧ e.1 = b.addr + 32 ∧
    0 < e.2 ∧ 32 + e.2 ≤ b.size
  used_live : ∀ b ∈ h.blocks, b.free = false → b.addr + 32 ∈ p.live.map Prod.fst
  nodup : (p.live.map Prod.fst).Nodup
  idle : p.live = [] → ∀ e ∈ h.blocks.getLast?, e.free = true → e.size < 4096
  own : ∀ e ∈ p.own, base ≤ e.1 ∧ e.1 < e.2 ∧ e.2 ≤ h.brk ∧
    ∀ x, e.1 ≤ x → x < e.2 → ¬ h.Covers x

variable {base : Nat} {p p' : Process} {h h' : Heap} {s s' : State} {a : Action} {b c : Block}
  {F : List Nat} {size ptr q : Nat}

lemma mem_forget {e : Nat × Nat} {live : List (Nat × Nat)} :
    e ∈ forget ptr live ↔ e ∈ live ∧ e.1 ≠ ptr := by
  simp [forget]

lemma mem_map_forget {live : List (Nat × Nat)} :
    q ∈ (forget ptr live).map Prod.fst ↔ q ∈ live.map Prod.fst ∧ q ≠ ptr := by
  simp only [List.mem_map, mem_forget]
  constructor
  · rintro ⟨e, ⟨he, hne⟩, rfl⟩
    exact ⟨⟨e, he, rfl⟩, hne⟩
  · rintro ⟨⟨e, he, rfl⟩, hne⟩
    exact ⟨e, ⟨he, hne⟩, rfl⟩

lemma nodup_forget {live : List (Nat × Nat)} (hn : (live.map Prod.fst).Nodup) :
    ((forget ptr live).map Prod.fst).Nodup :=
  hn.sublist (List.filter_sublist.map _)

namespace Good

/-- The program's own memory is out of reach of the moves of the allocator. -/
lemma own_of_evolves (hg : Good base p h) (he : Evolves F h h') : ∀ e ∈ p.own,
    base ≤ e.1 ∧ e.1 < e.2 ∧ e.2 ≤ h'.brk ∧ ∀ x, e.1 ≤ x → x < e.2 → ¬ h'.Covers x := by
  intro e hmem
  obtain ⟨h1, h2, h3, h4⟩ := hg.own e hmem
  refine ⟨h1, h2, ?_, fun x hx hx' hc => ?_⟩
  · by_contra hlt
    exact h4 (e.2 - 1) (by omega) (by omega) (he.back (e.2 - 1) (by omega) (by omega))
  · rcases he.covers x hc with hc | hc
    · exact h4 x hx hx' hc
    · omega

/-- A move that changes no mark and no size. -/
lemma same (hg : Good base p h) (hm : Moves base F p.s h s' h) : Good base { p with s := s' } h where
  holds := hm.holds
  calm := hg.calm
  live_used := hg.live_used
  used_live := hg.used_live
  nodup := hg.nodup
  idle := hg.idle
  own := hg.own

/-- A new allocation. -/
lemma gives (hg : Good base p h) (hsize : 0 < size)
    (hgv : Gives base [] (totalSize size) p.s h s' h' b) :
    Good base { p with s := s', live := (b.addr + 32, size) :: p.live } h' where
  holds := hgv.moves.holds
  calm := hgv.calm
  live_used e he := by
    rcases List.mem_cons.mp he with rfl | he
    · have h1 := hgv.size
      have h2 := le_totalSize size
      exact ⟨b, hgv.mem, hgv.used, rfl, hsize, by simp only; omega⟩
    · obtain ⟨c, hc, hcf, hce, hpos, hcs⟩ := hg.live_used e he
      have hne : c.addr ∉ [b.addr] := by simpa using hgv.new c hc hcf
      exact ⟨c, hgv.moves.evolves.kept c hc hcf hne, hcf, hce, hpos, hcs⟩
  used_live c hc hcf := by
    by_cases hcb : c.addr = b.addr
    · simp [hcb]
    · have hold := hgv.moves.evolves.fresh c hc hcf (by simpa using hcb)
      exact List.mem_cons_of_mem _ (hg.used_live c hold hcf)
  nodup := by
    simp only [List.map_cons, List.nodup_cons]
    refine ⟨fun hmem => ?_, hg.nodup⟩
    obtain ⟨e, he, heq⟩ := List.mem_map.mp hmem
    obtain ⟨c, hc, hcf, hce, -⟩ := hg.live_used e he
    exact hgv.new c hc hcf (by omega)
  idle hnil := by simp at hnil
  own := hg.own_of_evolves hgv.moves.evolves

/-- An allocation is given back. -/
lemma frees (hg : Good base p h) {a : Nat} (hfr : Frees base [] p.s h s' h' a) :
    Good base { p with s := s', live := forget (a + 32) p.live } h' where
  holds := hfr.moves.holds
  calm := hfr.calm
  live_used e he := by
    obtain ⟨he, hne⟩ := mem_forget.mp he
    obtain ⟨c, hc, hcf, hce, hcs⟩ := hg.live_used e he
    have hca : c.addr ∉ [a] := by
      rw [List.mem_singleton]
      omega
    exact ⟨c, hfr.moves.evolves.kept c hc hcf hca, hcf, hce, hcs⟩
  used_live c hc hcf := by
    have hca := hfr.gone c hc hcf
    have hold := hfr.moves.evolves.fresh c hc hcf (by simpa using hca)
    exact mem_map_forget.mpr ⟨hg.used_live c hold hcf, by omega⟩
  nodup := nodup_forget hg.nodup
  idle _ := hfr.small
  own := hg.own_of_evolves hfr.moves.evolves

/-- An allocation changes its size and stays where it is. -/
lemma resizes (hg : Good base p h) (hsize : 0 < size)
    (hrs : Resizes base (totalSize size) p.s h s' h' b) :
    Good base { p with s := s', live := (b.addr + 32, size) :: forget (b.addr + 32) p.live } h' where
  holds := hrs.moves.holds
  calm := hrs.calm
  live_used e he := by
    rcases List.mem_cons.mp he with rfl | he
    · have h1 := hrs.size
      have h2 := le_totalSize size
      exact ⟨b, hrs.mem, hrs.used, rfl, hsize, by simp only; omega⟩
    · obtain ⟨he, hne⟩ := mem_forget.mp he
      obtain ⟨c, hc, hcf, hce, hcs⟩ := hg.live_used e he
      have hcb : c.addr ∉ [b.addr] := by
        rw [List.mem_singleton]
        omega
      exact ⟨c, hrs.moves.evolves.kept c hc hcf hcb, hcf, hce, hcs⟩
  used_live c hc hcf := by
    rw [List.map_cons, List.mem_cons]
    by_cases hcb : c.addr = b.addr
    · exact Or.inl (by rw [hcb])
    · have hold := hrs.moves.evolves.fresh c hc hcf (by simpa using hcb)
      exact Or.inr (mem_map_forget.mpr ⟨hg.used_live c hold hcf, by omega⟩)
  nodup := by
    rw [List.map_cons, List.nodup_cons]
    exact ⟨fun hmem => (mem_map_forget.mp hmem).2 rfl, nodup_forget hg.nodup⟩
  idle hnil := by simp at hnil
  own := hg.own_of_evolves hrs.moves.evolves

end Good

/-! ### One step -/

/-- The allocation that the action frees or resizes. -/
def Action.target : Action → Nat
  | .free ptr _ => ptr
  | .realloc ptr _ _ => ptr
  | _ => 0

/-- What the action does, and what it does not do to all other allocations. -/
structure Advance (base : Nat) (a : Action) (p : Process) (h : Heap) (p' : Process) (h' : Heap) :
    Prop where
  good : Good base p' h'
  tiled : a.Quiet → ∀ t, Tiled t h.blocks h.brk → Tiled t h'.blocks h'.brk
  kept : ∀ b ∈ h.blocks, b.free = false → b.addr + 32 ≠ a.target → b ∈ h'.blocks
  bytes : ∀ b ∈ h.blocks, b.free = false → b.addr + 32 ≠ a.target → ∀ x, b.Payload x →
    (∀ v, a ≠ .write x v) → p'.s.mem x = p.s.mem x
  live : ∀ e ∈ p.live, e.1 ≠ a.target → e ∈ p'.live

lemma Advance.of_moves (hg : Good base p' h') (hm : Moves base F p.s h p'.s h')
    (hF : ∀ b ∈ h.blocks, b.free = false → b.addr + 32 ≠ a.target → b.addr ∉ F)
    (hlive : ∀ e ∈ p.live, e.1 ≠ a.target → e ∈ p'.live) : Advance base a p h p' h' where
  good := hg
  tiled _ := hm.evolves.tiled
  kept b hb hf ht := hm.evolves.kept b hb hf (hF b hb hf ht)
  bytes b hb hf ht x hx _ := hm.frame x fun hs => hs.2 b hb hf (hF b hb hf ht) hx
  live := hlive

lemma Advance.refl (hg : Good base p h) : Advance base a p h p h :=
  Advance.of_moves hg (Moves.refl (F := []) hg.holds) (by simp) fun _ he _ => he

lemma Good.gives_advance (hg : Good base p h) (hsize : 0 < size)
    (hgv : Gives base [] (totalSize size) p.s h s' h' b) :
    Advance base a p h { p with s := s', live := record (b.addr + 32) size p.live } h' := by
  have hne : b.addr + 32 ≠ 0 := by omega
  rw [record, if_neg hne]
  refine Advance.of_moves (hg.gives hsize hgv) hgv.moves (fun c hc hcf _ => ?_) fun e he _ => ?_
  · simpa using hgv.new c hc hcf
  · exact List.mem_cons_of_mem _ he

lemma Good.frees_advance (hg : Good base p h) {x : Nat} (hfr : Frees base [] p.s h s' h' x)
    (ht : a.target = x + 32) :
    Advance base a p h { p with s := s', live := forget (x + 32) p.live } h' := by
  refine Advance.of_moves (hg.frees hfr) hfr.moves (fun c hc hcf hne => ?_) fun e he hne => ?_
  · rw [List.mem_singleton]
    omega
  · exact mem_forget.mpr ⟨he, by omega⟩

lemma Good.resizes_advance (hg : Good base p h) (hsize : 0 < size)
    (hrs : Resizes base (totalSize size) p.s h s' h' b) (ht : a.target = b.addr + 32) :
    Advance base a p h
      { p with s := s', live := record (b.addr + 32) size (forget (b.addr + 32) p.live) } h' := by
  have hne : b.addr + 32 ≠ 0 := by omega
  rw [record, if_neg hne]
  refine Advance.of_moves (hg.resizes hsize hrs) hrs.moves (fun c hc hcf hne => ?_)
    fun e he hne => ?_
  · rw [List.mem_singleton]
    omega
  · exact List.mem_cons_of_mem _ (mem_forget.mpr ⟨he, by omega⟩)

/-- The block of a live allocation. -/
lemma Good.block_of_live (hg : Good base p h) (hptr : ptr ∈ p.live.map Prod.fst) :
    ∃ l c r, h.blocks = l ++ c :: r ∧ c.free = false ∧ ptr = c.addr + 32 := by
  obtain ⟨e, he, rfl⟩ := List.mem_map.mp hptr
  obtain ⟨c, hc, hcf, hce, -⟩ := hg.live_used e he
  obtain ⟨l, r, hlr⟩ := List.append_of_mem hc
  exact ⟨l, c, r, hlr, hcf, hce⟩

/-- The merges and the trims that the action leads to stay between blocks that touch. -/
def Snug (base : Nat) (p : Process) (h : Heap) : Action → Prop
  | .free ptr _ => ∀ l c r, h.blocks = l ++ c :: r → ptr = c.addr + 32 → Touching l c r h.brk
  | .realloc ptr size grant => ∀ l c r, h.blocks = l ++ c :: r → ptr = c.addr + 32 →
    (size = 0 → Touching l c r h.brk) ∧
    (totalSize size + 48 ≤ c.size → ∀ d ∈ r.head?, d.free = true → c.addr + c.size = d.addr) ∧
    (c.size < totalSize size → ∀ d ∈ r.head?, d.free = true → totalSize size ≤ c.size + d.size →
      c.addr + c.size = d.addr) ∧
    (0 < size → Cramped c r (totalSize size) → ∀ s₁ h₁ b l' r',
      p.s.malloc grant size = some (s₁, b.addr + 32) →
      Gives base [] (totalSize size) p.s h s₁ h₁ b → h₁.blocks = l' ++ c :: r' →
      Touching l' c r' h₁.brk)
  | _ => True

/-- In a tiled heap all blocks touch. -/
lemma Tiled.snug {t : Nat} (ht : Tiled t h.blocks h.brk) : Snug base p h a := by
  cases a with
  | free ptr grant =>
    intro l c r hlr _
    rw [hlr] at ht
    exact ht.touching
  | realloc ptr size grant =>
    intro l c r hlr _
    have ht' := ht
    rw [hlr] at ht'
    refine ⟨fun _ => ht'.touching, fun _ => ht'.touching.next,
      fun _ d hd hdf _ => ht'.touching.next d hd hdf,
      fun _ _ _ _ _ _ _ _ hgv => hgv.moves.evolves.touching ht⟩
  | malloc | calloc | mallocName | mallocSetfsm | write | sbrk => trivial

lemma Good.malloc_step (hg : Good base p h) {grant : Bool} (hasks : p.Asks base size grant) :
    ∃ s' q h', p.s.malloc grant size = some (s', q) ∧
      Advance base a p h { p with s := s', live := record q size p.live } h' := by
  by_cases hsize : size = 0
  · refine ⟨p.s, 0, h, by simp [State.malloc, hsize], ?_⟩
    rw [record, if_pos rfl]
    exact Advance.refl hg
  · have hroom := hasks.2
    rw [hg.holds.brk] at hroom
    rcases hg.holds.malloc hg.calm (by omega) (Or.inl hasks.1) grant fun hgr _ => hroom hgr with
      hs | ⟨s', h', b, hs, hgv, -⟩
    · refine ⟨p.s, 0, h, hs, ?_⟩
      rw [record, if_pos rfl]
      exact Advance.refl hg
    · exact ⟨s', b.addr + 32, h', hs, hg.gives_advance (by omega) hgv⟩

lemma Good.calloc_step (hg : Good base p h) {nmemb : Nat} {grant : Bool}
    (hasks : p.Asks base (nmemb * size) grant) :
    ∃ s' q h', p.s.calloc grant nmemb size = some (s', q) ∧
      Advance base a p h { p with s := s', live := record q (nmemb * size) p.live } h' := by
  by_cases hsize : nmemb * size = 0
  · refine ⟨p.s, 0, h, by simp [State.calloc, State.malloc, hsize, u32], ?_⟩
    rw [record, if_pos rfl]
    exact Advance.refl hg
  · have hroom := hasks.2
    rw [hg.holds.brk] at hroom
    rcases hg.holds.calloc hg.calm (by omega) (Or.inl hasks.1) grant fun hgr _ => hroom hgr with
      hs | ⟨s', h', b, hs, hgv, -⟩
    · refine ⟨p.s, 0, h, hs, ?_⟩
      rw [record, if_pos rfl]
      exact Advance.refl hg
    · exact ⟨s', b.addr + 32, h', hs, hg.gives_advance (by omega) hgv⟩

lemma forget_zero (hg : Good base p h) : forget 0 p.live = p.live := by
  unfold forget
  rw [List.filter_eq_self]
  intro e he
  obtain ⟨c, -, -, hce, -⟩ := hg.live_used e he
  simp only [ne_eq, decide_eq_true_eq]
  omega

lemma Good.free_step (hg : Good base p h) {grant : Bool} (hv : p.Valid ptr)
    (hs : Snug base p h (.free ptr grant)) (ht : a.target = ptr) :
    ∃ s' h', p.s.free grant ptr = some s' ∧
      Advance base a p h { p with s := s', live := forget ptr p.live } h' := by
  rcases hv with rfl | hv
  · refine ⟨p.s, h, by simp [State.free], ?_⟩
    rw [forget_zero hg]
    exact Advance.refl hg
  · obtain ⟨l, c, r, hlr, hcf, rfl⟩ := hg.block_of_live hv
    have htouch := hs l c r hlr rfl
    obtain ⟨bs, fs, brk⟩ := h
    simp only at hlr htouch
    subst hlr
    obtain ⟨s', h', hs', hfr⟩ := hg.holds.free hg.calm hcf htouch grant
    exact ⟨s', h', hs', hg.frees_advance hfr ht⟩

/-- A block that has to move is allocated anew first, and then freed. -/
lemma Good.move_advance {s₁ : State} {h₁ : Heap} (hg : Good base p h) (hsize : 0 < size)
    (hgv : Gives base [] (totalSize size) p.s h s₁ h₁ b) (hcu : c ∈ h.blocks) (hcf : c.free = false)
    (hfr : Frees base [] s₁ h₁ s' h' c.addr) (ht : a.target = c.addr + 32) :
    Advance base a p h
      { p with s := s', live := record (b.addr + 32) size (forget (c.addr + 32) p.live) } h' := by
  have hne : b.addr + 32 ≠ 0 := by omega
  have hbc : c.addr ≠ b.addr := hgv.new c hcu hcf
  have hlive : forget (c.addr + 32) ((b.addr + 32, size) :: p.live) =
      record (b.addr + 32) size (forget (c.addr + 32) p.live) := by
    rw [record, if_neg hne]
    refine List.filter_cons_of_pos ?_
    rw [decide_eq_true_eq]
    simp only
    omega
  have hg₁ := hg.gives hsize hgv
  have hg₂ := hg₁.frees hfr
  rw [hlive] at hg₂
  have hm₁ : Moves base [b.addr, c.addr] p.s h s₁ h₁ := hgv.moves.mono (by simp)
  have hm₂ : Moves base [b.addr, c.addr] s₁ h₁ s' h' := hfr.moves.mono (by simp)
  refine Advance.of_moves hg₂ (hm₁.trans hm₂) (fun d hd hdf hne => ?_) fun e he hne' => ?_
  · have := hgv.new d hd hdf
    simp only [List.mem_cons, List.not_mem_nil, or_false, not_or]
    omega
  · rw [record, if_neg hne]
    exact List.mem_cons_of_mem _ (mem_forget.mpr ⟨he, by omega⟩)

lemma Good.realloc_step (hg : Good base p h) {grant : Bool} (hv : p.Valid ptr)
    (hasks : p.Asks base size grant) (hs : Snug base p h (.realloc ptr size grant))
    (ht : a.target = ptr) :
    ∃ s' q h', p.s.realloc grant ptr size = some (s', q) ∧
      Advance base a p h { p with s := s', live := relist q ptr size p.live } h' := by
  rcases hv with rfl | hv
  · -- realloc(NULL, size) is malloc(size)
    obtain ⟨s', q, h', hs', hadv⟩ := hg.malloc_step (a := a) hasks
    refine ⟨s', q, h', by simp [State.realloc, hs'], ?_⟩
    have hrel : relist q 0 size p.live = record q size p.live := by
      unfold relist
      rw [forget_zero hg]
      split
      · rename_i hq
        rw [record, if_pos hq.1]
      · rfl
    rw [hrel]
    exact hadv
  obtain ⟨l, c, r, hlr, hcf, rfl⟩ := hg.block_of_live hv
  have hne : c.addr + 32 ≠ 0 := by omega
  obtain ⟨-, hcut, hgrow, hmove⟩ := hs l c r hlr rfl
  by_cases hsize : size = 0
  · -- realloc(ptr, 0) is free(ptr)
    subst hsize
    have hsnug : Snug base p h (.free (c.addr + 32) grant) := by
      intro l' c' r' hlr' hc'
      exact (hs l' c' r' hlr' hc').1 rfl
    obtain ⟨s', h', hs', hadv⟩ := hg.free_step (Or.inr hv) hsnug ht
    refine ⟨s', 0, h', by simp [State.realloc, hs'], ?_⟩
    simpa [relist, record] using hadv
  have hpos : 0 < size := by omega
  have hroom := hasks.2
  rw [hg.holds.brk] at hroom
  have hin : ∀ b : Block, b.addr = c.addr → relist (c.addr + 32) (c.addr + 32) size p.live =
      record (b.addr + 32) size (forget (b.addr + 32) p.live) := by
    intro b hb
    rw [relist, if_neg (by omega), hb]
  obtain ⟨bs, fs, brk⟩ := h
  simp only at hlr hroom
  subst hlr
  have hc : c ∈ l ++ c :: r := by simp
  by_cases hcramped : Cramped c r (totalSize size)
  · rcases hg.holds.realloc_move hg.calm hcf hpos (Or.inl hasks.1) grant (fun hgr _ => hroom hgr)
      hcramped (hmove hpos hcramped) with hs' | ⟨s₁, h₁, s', h', b, hs', hgv, hfr, -⟩
    · refine ⟨p.s, 0, ⟨l ++ c :: r, fs, brk⟩, hs', ?_⟩
      rw [relist, if_pos ⟨rfl, hsize⟩]
      exact Advance.refl hg
    · refine ⟨s', b.addr + 32, h', hs', ?_⟩
      rw [relist, if_neg (by omega)]
      exact hg.move_advance hpos hgv hc hcf hfr ht
  · obtain ⟨s', h', b, hs', hba, hrs, -⟩ :=
      hg.holds.realloc_stay hg.calm hcf hpos grant hcut hgrow hcramped
    refine ⟨s', c.addr + 32, h', hs', ?_⟩
    rw [hin b hba]
    exact hg.resizes_advance hpos hrs (by omega)

/-- `malloc_name` on NULL does nothing. -/
lemma Good.name_step (hg : Good base p h) (hv : p.Valid ptr) (name : Nat) :
    Advance base a p h { p with s := p.s.mallocName ptr name } h := by
  rcases hv with rfl | hv
  · have hnull : p.s.mallocName 0 name = p.s := if_pos (Or.inl rfl)
    rw [hnull]
    exact Advance.refl hg
  · obtain ⟨l, c, r, hlr, -, rfl⟩ := hg.block_of_live hv
    have hm : Moves base [] p.s h (p.s.mallocName (c.addr + 32) name) h :=
      hg.holds.mallocName (by simp [hlr]) name
    exact Advance.of_moves (hg.same hm) hm (by simp) fun _ he _ => he

lemma Good.setfsm_step (hg : Good base p h) (algorithm : Int) :
    Advance base (.mallocSetfsm algorithm) p h { p with s := p.s.mallocSetfsm algorithm } h where
  good :=
    { hg with
      holds := ⟨hg.holds.rep.of_mem rfl rfl rfl (fun _ _ _ _ _ => rfl) fun _ _ _ _ _ => rfl,
        hg.holds.wf, hg.holds.brk⟩ }
  tiled _ _ ht := ht
  kept _ hb _ _ := hb
  bytes _ _ _ _ _ _ _ := rfl
  live _ he _ := he

lemma write_apply_ne (m : Mem) {x y : Nat} (v : UInt8) (hne : y ≠ x) : m.write x v y = m y :=
  if_neg hne

/-- The bytes of the allocator are not writable. -/
lemma Good.not_meta_of_writable (hg : Good base p h) {x : Nat} (hw : p.Writable x) :
    ¬ Meta (addrs h.blocks) h.frees x := by
  intro hx
  rcases hw with ⟨e, he, h1, h2⟩ | ⟨e, he, h1, h2⟩
  · obtain ⟨c, hc, hcf, hce, -⟩ := hg.live_used e he
    unfold Process.payloadEnd at h2
    rw [hce, Nat.add_sub_cancel, hg.holds.rep.getSize_eq hc] at h2
    exact hg.holds.wf.not_meta hc hcf (by omega) h2 hx
  · obtain ⟨-, -, h3, h4⟩ := hg.own e he
    rcases (hg.holds.wf.scratch (F := []) hx).1 with hc | hc
    · exact h4 x h1 h2 hc
    · omega

lemma Good.write_step (hg : Good base p h) {x : Nat} {v : UInt8} (hw : p.Writable x) :
    Advance base (.write x v) p h { p with s := { p.s with mem := p.s.mem.write x v } } h where
  good :=
    { hg with
      holds := hg.holds.of_mem fun y hy => write_apply_ne _ v fun hyx =>
        hg.not_meta_of_writable hw (hyx ▸ hy) }
  tiled _ _ ht := ht
  kept _ hb _ _ := hb
  bytes _ _ _ _ y _ hne := write_apply_ne _ v fun hyx => hne v (by rw [hyx])
  live _ he _ := he

lemma Good.sbrk_step (hg : Good base p h) {n : Nat} {grant : Bool} (hn : 0 < n ∧ n < 2 ^ 31)
    (hroom : grant = true → p.s.brk + n < base + 2 ^ 31) :
    ∃ p' h', p.step (.sbrk n grant) = some p' ∧ Advance base (.sbrk n grant) p h p' h' := by
  have hbrk := hg.holds.brk
  have hpos : ((n : Nat) : Int) > 0 := by omega
  cases grant with
  | false =>
    refine ⟨p, h, ?_, Advance.refl hg⟩
    simp [Process.step, State.sbrk, hn.1]
  | true =>
    have hlim := hg.holds.wf.lim
    have hb38 := hg.holds.wf.base_lt
    have hbase := hg.holds.wf.base_le
    have hne : p.s.brk ≠ 2 ^ 64 - 1 := by omega
    have hround := le_pgRoundUp p.s.brk
    obtain ⟨bs, fs, brk⟩ := h
    simp only at hbrk hlim hbase
    set m := p.s.mem.fill (State.pgRoundUp p.s.brk)
      (State.pgRoundUp (p.s.brk + n) - State.pgRoundUp p.s.brk) 0 with hm
    have hlow : ∀ x, x < brk → m x = p.s.mem x := fun x hx =>
      Mem.fill_apply_ne _ _ _ _ (Or.inl (by omega))
    have hmeta : ∀ x, Meta (addrs bs) fs x → m x = p.s.mem x := fun x hx => by
      refine hlow x ?_
      rcases hx with ⟨y, hy, h1, h2⟩ | ⟨y, hy, h1, h2⟩
      · obtain ⟨b, hb, rfl⟩ := List.mem_map.mp hy
        have := hg.holds.wf.top b hb
        have := (hg.holds.wf.size b hb).2
        simp only at *
        omega
      · obtain ⟨b, hb, rfl⟩ := List.mem_map.mp (hg.holds.wf.sub y hy)
        have := hg.holds.wf.top b hb
        have := (hg.holds.wf.size b hb).2
        simp only at *
        omega
    have hrep : Rep { p.s with brk := p.s.brk + n, mem := m } bs fs := by
      refine hg.holds.rep.of_mem rfl rfl rfl (fun b hb x h1 h2 => hmeta x (Or.inl ?_))
        fun y hy x h1 h2 => hmeta x (Or.inr ⟨y, hy, h1, h2⟩)
      exact ⟨b.addr, List.mem_map_of_mem hb, by omega, h2⟩
    refine ⟨{ p with
        s := { p.s with brk := p.s.brk + n, mem := m }
        own := (p.s.brk, p.s.brk + n) :: p.own }, ⟨bs, fs, brk + n⟩, ?_, ?_⟩
    · simp [Process.step, State.sbrk, hn.1, hm]
      omega
    · refine ⟨⟨⟨hrep, hg.holds.wf.foreign (by have := hroom rfl; omega), by simp [hbrk]⟩, hg.calm,
        hg.live_used, hg.used_live, hg.nodup, hg.idle, ?_⟩, fun hq => absurd hq id,
        fun _ hb _ _ => hb, fun b hb _ _ x hx _ => ?_, fun _ he _ => he⟩
      · intro e he
        rcases List.mem_cons.mp he with rfl | he
        · refine ⟨by simp only; omega, by simp only; omega, by simp only; omega,
            fun x h1 _ ⟨b, hb, hx⟩ => ?_⟩
          have h2 : b.addr + b.size ≤ brk := hg.holds.wf.top b hb
          have h3 := hx.2
          simp only at h1
          omega
        · obtain ⟨h1, h2, h3, h4⟩ := hg.own e he
          exact ⟨h1, h2, Nat.le_add_right_of_le h3, h4⟩
      · refine hlow x ?_
        have h2 : b.addr + b.size ≤ brk := hg.holds.wf.top b hb
        have h3 := hx.2
        omega

/-- Every legal action returns and keeps the invariant, if its merges and trims stay between
blocks that touch. -/
theorem Good.step (hg : Good base p h) (hl : p.Legal base a) (hs : Snug base p h a) :
    ∃ p' h', p.step a = some p' ∧ Advance base a p h p' h' := by
  cases a with
  | malloc size grant =>
    obtain ⟨s', q, h', hs', hadv⟩ := hg.malloc_step hl
    exact ⟨_, h', by simp [Process.step, hs'], hadv⟩
  | calloc nmemb size grant =>
    obtain ⟨s', q, h', hs', hadv⟩ := hg.calloc_step hl
    exact ⟨_, h', by simp [Process.step, hs'], hadv⟩
  | free ptr grant =>
    obtain ⟨s', h', hs', hadv⟩ := hg.free_step (a := .free ptr grant) hl hs rfl
    exact ⟨_, h', by simp [Process.step, hs'], hadv⟩
  | realloc ptr size grant =>
    obtain ⟨s', q, h', hs', hadv⟩ := hg.realloc_step (a := .realloc ptr size grant) hl.1 hl.2 hs rfl
    exact ⟨_, h', by simp [Process.step, hs'], hadv⟩
  | mallocName ptr name => exact ⟨_, h, rfl, hg.name_step hl name⟩
  | mallocSetfsm algorithm => exact ⟨_, h, rfl, hg.setfsm_step algorithm⟩
  | write x v => exact ⟨_, h, rfl, hg.write_step hl⟩
  | sbrk n grant => exact hg.sbrk_step ⟨hl.1, hl.2.1⟩ hl.2.2

end FogOS.Umalloc
