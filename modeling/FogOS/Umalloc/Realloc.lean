import FogOS.Umalloc.Foreign
import FogOS.Umalloc.Overflow

/-!
# The bytes of `calloc` and `realloc`

`calloc` gives zeroed memory, but for as many bytes as are left of a product that has wrapped.
`realloc` cuts the block, grows it into the next one or moves it; in each case the program finds
its bytes at the pointer it gets.
-/

namespace FogOS.Umalloc

open ByteMem

variable {base brk size nmemb ptr q : Nat} {p p' : Process} {h h' : Heap} {s s' : State}
  {a : Action} {grant : Bool} {l r : List Block} {fs : List Nat} {b c : Block}

/-- The allocations other than `ptr` stay, with their sizes and their bytes. -/
def Process.Spares (p : Process) (ptr : Nat) (p' : Process) : Prop :=
  ∀ e ∈ p.live, e.1 ≠ ptr → e ∈ p'.live ∧ p'.payloadEnd e.1 = p.payloadEnd e.1 ∧
    ∀ x, e.1 ≤ x → x < p.payloadEnd e.1 → p'.s.mem x = p.s.mem x

lemma Process.Spares.refl (p : Process) (ptr : Nat) : p.Spares ptr p :=
  fun _ he _ => ⟨he, rfl, fun _ _ _ => rfl⟩

/-- A call spares all allocations but its target. -/
lemma Advance.spares (hadv : Advance base a p h p' h') (hg : Good base p h)
    (hcall : ∀ x v, a ≠ .write x v) : p.Spares a.target p' := by
  intro e he hne
  obtain ⟨b, hb, hbf, hbe, -, hbp⟩ := hg.payload_of_live he
  have hb' := hadv.kept b hb hbf (by omega)
  refine ⟨hadv.live e he hne, ?_, fun x h1 h2 => ?_⟩
  · rw [hbp]
    unfold Process.payloadEnd
    rw [hbe, Nat.add_sub_cancel, hadv.good.holds.rep.getSize_eq hb']
  · exact hadv.bytes b hb hbf (by omega) x ⟨by omega, by omega⟩ fun v => hcall x v

/-! ### calloc -/

/-- `calloc` returns NULL or a live allocation of `nmemb * size` bytes, all of them zero. -/
def Process.CallocOk (base : Nat) (p : Process) (grant : Bool) (nmemb size : Nat) : Prop :=
  ∃ s' q, p.s.calloc grant nmemb size = some (s', q) ∧
    Sound base { p with s := s', live := record q (nmemb * size) p.live } ∧
    (q ≠ 0 → ∀ i < nmemb * size, s'.mem (q + i) = 0) ∧
    p.Spares 0 { p with s := s', live := record q (nmemb * size) p.live }

/-- No free block is found for `size` bytes, and the kernel refuses more memory. -/
def State.Refused (s : State) (grant : Bool) (size : Nat) : Prop :=
  grant = false ∧ s.reuseBlock (u32 (totalSize size)) = some 0 ∧
    0 < toInt (alignToPage (u32 (totalSize size)))

/-- The product does not wrap and its bytes are served, or what is left of the product is zero or
is refused. -/
def State.CallocFits (s : State) (grant : Bool) (nmemb size : Nat) : Prop :=
  nmemb * size < 2 ^ 32 ∧ s.MallocFits grant (nmemb * size) ∨
    u32 (nmemb * size) = 0 ∨ s.Refused grant (u32 (nmemb * size))

lemma State.Refused.malloc_eq (hr : s.Refused grant size) (hsize : size ≠ 0) :
    s.malloc grant size = some (s, 0) := by
  obtain ⟨rfl, hnone, hpos⟩ := hr
  unfold State.malloc
  rw [if_neg hsize]
  simp only [totalSz_wrap size, hnone, Option.bind_eq_bind, Option.bind_some]
  simp [State.sbrk, hpos]

/-- `malloc` returns NULL for a refused request only. -/
lemma Good.refused_of_null (hg : Good base p h) (hsize : size ≠ 0)
    (hs : p.s.malloc grant size = some (s', 0)) : p.s.Refused grant size := by
  have hlim := hg.holds.wf.lim
  have hb38 := hg.holds.wf.base_lt
  have hbrk := hg.holds.brk
  have hbrk1 : p.s.brk ≠ 2 ^ 64 - 1 := by omega
  obtain ⟨a, ha, -⟩ := hg.holds.rep.reuseBlock_found (u32 (totalSize size))
  have ha' := ha
  rw [← totalSz_wrap size] at ha'
  by_cases ha0 : a = 0
  · subst ha0
    -- a kernel that does not refuse returns the break
    have hback : ∀ s₁, p.s.sbrk grant (toInt (alignToPage (u32 (memBlockSize + alignSize size)))) =
        (s₁, p.s.brk) → False := fun s₁ hsb => by
      have := (State.malloc_fresh hsize ha' hsb hbrk1 hs).1
      omega
    by_cases hpos : 0 < toInt (alignToPage (u32 (totalSize size)))
    · cases grant with
      | false => exact ⟨rfl, ha, hpos⟩
      | true =>
        rw [← totalSz_wrap size] at hpos
        obtain ⟨s₁, hsb⟩ : ∃ s₁, p.s.sbrk true
            (toInt (alignToPage (u32 (memBlockSize + alignSize size)))) = (s₁, p.s.brk) := by
          unfold State.sbrk
          rw [if_pos hpos]
          exact ⟨_, if_pos rfl⟩
        exact (hback s₁ hsb).elim
    · obtain ⟨s₁, hsb, -⟩ := State.sbrk_nonpos p.s grant (by omega :
        toInt (alignToPage (u32 (totalSize size))) ≤ 0)
      rw [← totalSz_wrap size] at hsb
      exact (hback s₁ hsb).elim
  · have := (State.malloc_found hsize ha' ha0 hs).1
    omega

/-- A live allocation lies below the break, and is smaller than `2 ^ 31` bytes. -/
lemma Sound.live_le (hs : Sound base p) {e : Nat × Nat} (he : e ∈ p.live) :
    e.1 + e.2 ≤ p.s.brk ∧ e.2 < 2 ^ 31 := by
  obtain ⟨h, hg, -⟩ := hs
  obtain ⟨b, hb, -, hbe, hle, -⟩ := hg.payload_of_live he
  have h1 := hg.holds.wf.top b hb
  have h2 := hg.holds.wf.size_lt hb
  have h3 := hg.holds.brk
  omega

lemma Sound.calloc_null (hs : Sound base p) (hnull : p.s.calloc grant nmemb size = some (p.s, 0)) :
    p.CallocOk base grant nmemb size :=
  ⟨p.s, 0, hnull, hs, fun hne => absurd rfl hne, Process.Spares.refl _ _⟩

lemma Sound.callocOk (hs : Sound base p)
    (hroom : grant = true → Fair (nmemb * size) →
      p.s.brk + pageSize (totalSize (nmemb * size)) < base + 2 ^ 31)
    (hfits : p.s.CallocFits grant nmemb size) : p.CallocOk base grant nmemb size := by
  have hrefused : p.s.Refused grant (u32 (nmemb * size)) → p.CallocOk base grant nmemb size := by
    intro hr
    by_cases hw : u32 (nmemb * size) = 0
    · exact hs.calloc_null (by simp [State.calloc, State.malloc, hw])
    · exact hs.calloc_null (by simp [State.calloc, hr.malloc_eq hw])
  rcases hfits with ⟨hlt, hfits⟩ | hw | hr
  · have hwrap : u32 (nmemb * size) = nmemb * size := Nat.mod_eq_of_lt hlt
    by_cases hpos : nmemb * size = 0
    · have hw : u32 (nmemb * size) = 0 := hwrap.trans hpos
      exact hs.calloc_null (by simp [State.calloc, State.malloc, hw])
    rcases hfits with hserves | ⟨hbig, hnone, hgrant⟩
    · obtain ⟨h, hg, ht⟩ := hs
      have hroom' := hroom
      rw [hg.holds.brk] at hroom'
      rcases hg.holds.calloc hg.calm (by omega) hserves grant hroom' with
        hnull | ⟨s', h', b, hcalloc, hgv, -, hzero⟩
      · exact Sound.calloc_null ⟨h, hg, ht⟩ hnull
      · have hadv : Advance base (.calloc nmemb size grant) p h _ h' :=
          hg.gives_advance (by omega) hgv
        exact ⟨s', b.addr + 32, hcalloc, ⟨h', hadv.good, hadv.tiled trivial base ht⟩,
          fun _ => hzero, hadv.spares hg fun _ _ hw => by cases hw⟩
    · refine hrefused ⟨hgrant, by rw [hwrap]; exact hnone, ?_⟩
      rw [hwrap, wrapped_page hlt hbig]
      norm_num
  · exact hs.calloc_null (by simp [State.calloc, State.malloc, hw])
  · exact hrefused hr

lemma Sound.callocFits (hs : Sound base p) (hok : p.CallocOk base grant nmemb size) :
    p.s.CallocFits grant nmemb size := by
  obtain ⟨s', q, hcalloc, hsound, -, -⟩ := hok
  by_cases hw : u32 (nmemb * size) = 0
  · exact Or.inr (Or.inl hw)
  have hw32 : u32 (nmemb * size) < 2 ^ 32 := Nat.mod_lt _ (by norm_num)
  obtain ⟨h, hg, -⟩ := hs
  unfold State.calloc at hcalloc
  rw [Option.bind_eq_bind, Option.bind_eq_some_iff] at hcalloc
  obtain ⟨⟨s₁, q₁⟩, hmalloc, hrest⟩ := hcalloc
  by_cases hq : q₁ = 0
  · subst hq
    exact Or.inr (Or.inr (hg.refused_of_null hw hmalloc))
  simp only [if_neg hq, Option.some.injEq, Prod.mk.injEq] at hrest
  obtain ⟨rfl, rfl⟩ := hrest
  have hlive := hsound.live_le (e := (q₁, nmemb * size)) (by simp [record, hq])
  simp only at hlive
  have hlt : nmemb * size < 2 ^ 32 := by omega
  have hwrap : u32 (nmemb * size) = nmemb * size := Nat.mod_eq_of_lt hlt
  rw [hwrap] at hmalloc hw
  refine Or.inl ⟨hlt, ?_⟩
  by_contra hfits
  have := (hg.malloc_beyond ⟨by omega, hlt⟩ hfits hmalloc).2
  omega

/-- Exactly these requests to `calloc` give NULL or `nmemb * size` zero bytes. -/
theorem calloc_zeroed_iff (hs : Sound base p)
    (hroom : grant = true → Fair (nmemb * size) →
      p.s.brk + pageSize (totalSize (nmemb * size)) < base + 2 ^ 31) :
    p.CallocOk base grant nmemb size ↔ p.s.CallocFits grant nmemb size :=
  ⟨hs.callocFits, hs.callocOk hroom⟩

/-- `calloc(4, 1000)` on an empty heap. -/
theorem calloc_zeroed_first : (Process.init 20480).CallocOk 20480 true 4 1000 := by
  have hs := (Process.start_init (by decide : 0 < 20480) (by decide)).sound
  exact (calloc_zeroed_iff hs (by decide)).mpr (Or.inl ⟨by decide, Or.inl (Or.inl (by decide))⟩)

/-- `calloc(65537, 65536)` asks `malloc` for 65536 bytes. -/
theorem calloc_wraps : ¬ ∀ base p grant nmemb size, Sound base p → nmemb < 2 ^ 32 → size < 2 ^ 32 →
    (grant = true → Fair (nmemb * size) →
      p.s.brk + pageSize (totalSize (nmemb * size)) < base + 2 ^ 31) →
    p.CallocOk base grant nmemb size := by
  intro hall
  have hs := (Process.start_init (by decide : 0 < 20480) (by decide)).sound
  have hok := hall 20480 (Process.init 20480) true 65537 65536 hs (by decide) (by decide) (by decide)
  rcases hs.callocFits hok with ⟨hlt, -⟩ | hw | ⟨hgrant, -⟩
  · omega
  · exact absurd hw (by decide)
  · cases hgrant

/-! ### realloc -/

/-- What `realloc(ptr, size)` leaves behind when it returns `q`. -/
structure Process.Reallocs (base : Nat) (p : Process) (ptr size : Nat) (s' : State) (q : Nat) :
    Prop where
  sound : Sound base { p with s := s', live := relist q ptr size p.live }
  inPlace : q = ptr ↔ 32 + alignSize size ≤
    p.s.getSize (ptr - 32) + p.s.freeBytes (p.s.nextBlock (ptr - 32))
  copied : q ≠ 0 → ∀ i < min size (p.s.getSize (ptr - 32) - 32), s'.mem (q + i) = p.s.mem (ptr + i)
  large : q ≠ 0 → 32 + size ≤ s'.getSize (q - 32)
  spares : p.Spares ptr { p with s := s', live := relist q ptr size p.live }
  null : q = 0 → s' = p.s

lemma alignSize_eq (hlt : totalSize size < 2 ^ 32) : 32 + alignSize size = totalSize size := by
  unfold totalSize at *
  unfold alignSize u32
  split <;> omega

/-- `realloc` that does not move the block. -/
lemma Good.reallocs_inPlace (hg : Good base p ⟨l ++ c :: r, fs, brk⟩)
    (ht : Tiled base (l ++ c :: r) brk) (hpos : 0 < size) (hlt : totalSize size < 2 ^ 32)
    (hba : b.addr = c.addr) (hrs : Resizes base (totalSize size) p.s ⟨l ++ c :: r, fs, brk⟩ s' h' b)
    (hle : totalSize size ≤ c.size + freeSize r.head?)
    (hkeep : ∀ x, c.Payload x → x < c.addr + totalSize size → s'.mem x = p.s.mem x) :
    p.Reallocs base (c.addr + 32) size s' (c.addr + 32) := by
  have hne : c.addr + 32 ≠ 0 := by omega
  have hge := le_totalSize size
  have hrelist : relist (c.addr + 32) (c.addr + 32) size p.live =
      record (b.addr + 32) size (forget (b.addr + 32) p.live) := by
    rw [relist, if_neg (by omega), hba]
  have hadv : Advance base (.realloc (c.addr + 32) size true) p ⟨l ++ c :: r, fs, brk⟩ _ h' :=
    hg.resizes_advance hpos hrs (by rw [hba]; rfl)
  rw [← hrelist] at hadv
  refine ⟨⟨h', hadv.good, hadv.tiled trivial base ht⟩, ?_, fun _ i hi => ?_, fun _ => ?_,
    hadv.spares hg fun _ _ hw => (by cases hw), fun hnull => absurd hnull hne⟩
  · rw [Nat.add_sub_cancel, alignSize_eq hlt, hg.holds.rep.getSize_eq (c := c) (by simp),
      hg.holds.freeBytes_next]
    exact ⟨fun _ => hle, fun _ => rfl⟩
  · rw [Nat.add_sub_cancel, hg.holds.rep.getSize_eq (c := c) (by simp)] at hi
    exact hkeep _ ⟨by omega, by omega⟩ (by omega)
  · have hsz := hrs.size
    rw [Nat.add_sub_cancel, ← hba, hrs.moves.holds.rep.getSize_eq hrs.mem]
    omega

/-- `realloc` that moves the block, or fails. -/
lemma Good.reallocs_move (hg : Good base p ⟨l ++ c :: r, fs, brk⟩)
    (ht : Tiled base (l ++ c :: r) brk) (hcf : c.free = false) (hpos : 0 < size)
    (hasks : p.Asks base size grant) (hcramped : Cramped c r (totalSize size)) :
    ∃ s' q, p.s.realloc grant (c.addr + 32) size = some (s', q) ∧
      p.Reallocs base (c.addr + 32) size s' q := by
  have hc : c ∈ l ++ c :: r := by simp
  have hlt := hasks.1.lt
  have hsmall := cramped_iff.mp hcramped
  have hbrk : p.s.brk = brk := hg.holds.brk
  have hroom := hasks.2
  rw [hbrk] at hroom
  have hout : ∀ q, q ≠ c.addr + 32 → (q = c.addr + 32 ↔ 32 + alignSize size ≤
      p.s.getSize (c.addr + 32 - 32) + p.s.freeBytes (p.s.nextBlock (c.addr + 32 - 32))) := by
    intro q hq
    rw [Nat.add_sub_cancel, alignSize_eq (by omega), hg.holds.rep.getSize_eq hc,
      hg.holds.freeBytes_next]
    exact iff_of_false hq (by omega)
  rcases hg.holds.realloc_move hg.calm hcf hpos (Or.inl hasks.1) grant (fun hgr _ => hroom hgr)
    hcramped (fun _ _ _ _ _ _ hgv => hgv.moves.evolves.touching ht) with hs | ⟨s₁, h₁, s', h', b, hs, hgv, hfr, hcopied⟩
  · refine ⟨p.s, 0, hs, ?_, hout 0 (by omega), fun h0 => absurd rfl h0, fun h0 => absurd rfl h0,
      ?_, fun _ => rfl⟩
    · rw [relist, if_pos ⟨rfl, by omega⟩]
      exact ⟨_, hg, ht⟩
    · rw [relist, if_pos ⟨rfl, by omega⟩]
      exact Process.Spares.refl p _
  · have hne : b.addr + 32 ≠ 0 := by omega
    have hbc := hgv.new c hc hcf
    have hadv : Advance base (.realloc (c.addr + 32) size grant) p ⟨l ++ c :: r, fs, brk⟩ _ h' :=
      hg.move_advance hpos hgv hc hcf hfr rfl
    have hrelist : relist (b.addr + 32) (c.addr + 32) size p.live =
        record (b.addr + 32) size (forget (c.addr + 32) p.live) := by
      rw [relist, if_neg (by omega)]
    rw [← hrelist] at hadv
    refine ⟨s', b.addr + 32, hs, ⟨h', hadv.good, hadv.tiled trivial base ht⟩, hout _ (by omega),
      fun _ i hi => ?_, fun _ => ?_, hadv.spares hg fun _ _ hw => (by cases hw),
      fun h0 => absurd h0 hne⟩
    · rw [Nat.add_sub_cancel, hg.holds.rep.getSize_eq hc] at hi
      exact hcopied i hi
    · have hge := le_totalSize size
      have hsz := hgv.size
      have hb' := hfr.moves.evolves.kept b hgv.mem hgv.used (by simpa using hbc.symm)
      rw [Nat.add_sub_cancel, hfr.moves.holds.rep.getSize_eq hb']
      omega

/-- `realloc` of a live allocation keeps its bytes, stays in place when the block and the free block
after it are large enough, and changes nothing when it fails. -/
theorem realloc_preserves (hs : Sound base p) (hptr : ptr ∈ p.live.map Prod.fst) (hpos : 0 < size)
    (hasks : p.Asks base size grant) :
    ∃ s' q, p.s.realloc grant ptr size = some (s', q) ∧ p.Reallocs base ptr size s' q := by
  obtain ⟨⟨bs, fs, brk⟩, hg, ht⟩ := hs
  obtain ⟨l, c, r, hlr, hcf, rfl⟩ := hg.block_of_live hptr
  simp only at hlr ht
  subst hlr
  have hlt := hasks.1.lt
  by_cases hcramped : Cramped c r (totalSize size)
  · exact hg.reallocs_move ht hcf hpos hasks hcramped
  · obtain ⟨s', h', b, hs', hba, hrs, hkeep, -⟩ := hg.holds.realloc_stay hg.calm hcf hpos grant
      (fun _ => ht.touching.next) (fun _ d hd hdf _ => ht.touching.next d hd hdf) hcramped
    rw [cramped_iff] at hcramped
    exact ⟨s', _, hs', hg.reallocs_inPlace ht hpos (by omega) hba hrs (by omega) hkeep⟩

/-- The first of two allocations moves when it has to grow. -/
theorem realloc_preserves_moved : ∃ as p s' q, Steps (Calls 20480) (Process.init 20480) as p ∧
    p.s.realloc true 20512 100 = some (s', q) ∧ q ≠ 20512 ∧ p.Reallocs 20480 20512 100 s' q := by
  have hsome : (List.foldlM (Process.call 20480) (Process.init 20480)
      [.malloc 10 true, .malloc 9 true]).any
      (fun p => 20512 ∈ p.live.map Prod.fst ∧ p.Asks 20480 100 true ∧
        (p.s.realloc true 20512 100).map Prod.snd ≠ some 20512) = true := by
    decide +kernel
  obtain ⟨p, hp, hbits⟩ := (Option.any_eq_true _ _).mp hsome
  rw [decide_eq_true_eq] at hbits
  obtain ⟨hlive, hasks, hmoved⟩ := hbits
  have hrun := Steps.of_foldlM (fun _ _ _ => Process.call_calls) hp
  have hs := Sound.of_run (Process.start_init (by decide) (by decide)) hrun
  obtain ⟨s', q, hs', hr⟩ := realloc_preserves hs hlive (by decide) hasks
  refine ⟨_, p, s', q, hrun, hs', ?_, hr⟩
  rintro rfl
  exact hmoved (by rw [hs']; rfl)

end FogOS.Umalloc
