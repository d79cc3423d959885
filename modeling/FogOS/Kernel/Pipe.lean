import FogOS.Lib.Fifo
import FogOS.Lib.Steps
import FogOS.Kernel.Basic

/-!
# Pipes

`pipewrite`, `piperead` and `pipeclose` of `kernel/pipe.c`. A call holds the lock of the pipe until
it returns or sleeps, so what it does in between is one step, and other calls run while it sleeps.
What user memory and `killed` say may change at any time and is given with each step.
-/

namespace FogOS.Kernel

open Fifo

/-- `PIPESIZE`. -/
def pipesize : Nat := 512

/-- `struct pipe`. -/
structure Pipe where
  data : Nat → UInt8
  nread : Nat
  nwrite : Nat
  readopen : Bool
  writeopen : Bool

namespace Pipe

/-- `pi->nwrite == pi->nread + PIPESIZE`. -/
def full (pi : Pipe) : Bool := pi.nwrite == u32 (pi.nread + pipesize)

/-- `pi->nread == pi->nwrite`. -/
def empty (pi : Pipe) : Bool := pi.nread == pi.nwrite

/-- `pi->data[pi->nwrite++ % PIPESIZE] = ch`. -/
def put (pi : Pipe) (ch : UInt8) : Pipe :=
  { pi with data := Function.update pi.data (pi.nwrite % pipesize) ch, nwrite := u32 (pi.nwrite + 1) }

/-- `ch = pi->data[pi->nread++ % PIPESIZE]`. -/
def take (pi : Pipe) : UInt8 × Pipe :=
  (pi.data (pi.nread % pipesize), { pi with nread := u32 (pi.nread + 1) })

end Pipe

/-- A byte is put in, by the call with that number and from that offset of its buffer, or taken out. -/
inductive PipeEvent
  | put (call offset : Nat) (ch : UInt8)
  | take (call : Nat) (ch : UInt8)
  deriving DecidableEq

/-- How a step of a call ends: asleep, with some bytes left to write, or with a return value. -/
inductive PipeExit
  | sleep (left i : Nat)
  | ret (r : Int)

/-- The loop of `pipewrite` of call `id`, with `left` more bytes to write from offset `i` on. -/
def pipewriteLoop (id : Nat) (copyin : Nat → Option UInt8) (killed : Nat → Bool) :
    Nat → Nat → Pipe → List PipeEvent × PipeExit × Pipe
  | 0, i, pi => ([], .ret i, pi)
  | left + 1, i, pi =>
    if !pi.readopen || killed i then ([], .ret (-1), pi)
    else if pi.full then ([], .sleep (left + 1) i, pi)
    else match copyin i with
      | none => ([], .ret i, pi)
      | some ch =>
        let (evs, exit, pi) := pipewriteLoop id copyin killed left (i + 1) (pi.put ch)
        (.put id i ch :: evs, exit, pi)

/-- The `for` loop of `piperead`, with `left` more bytes to read to offset `i`. -/
def pipereadLoop (id : Nat) (copyout : Nat → UInt8 → Bool) :
    Nat → Nat → Pipe → List PipeEvent × PipeExit × Pipe
  | 0, i, pi => ([], .ret i, pi)
  | left + 1, i, pi =>
    if pi.empty then ([], .ret i, pi)
    else
      let (ch, pi) := pi.take
      if !copyout i ch then ([.take id ch], .ret i, pi)
      else
        let (evs, exit, pi) := pipereadLoop id copyout left (i + 1) pi
        (.take id ch :: evs, exit, pi)

/-- `piperead` of up to `n` bytes, from the test of the `while` loop on. -/
def piperead (id : Nat) (copyout : Nat → UInt8 → Bool) (killed : Bool) (n : Nat) (pi : Pipe) :
    List PipeEvent × PipeExit × Pipe :=
  if pi.empty && pi.writeopen then
    if killed then ([], .ret (-1), pi) else ([], .sleep n 0, pi)
  else pipereadLoop id copyout n 0 pi

/-- Close one end. -/
def pipeclose (pi : Pipe) (writable : Bool) : Pipe :=
  if writable then { pi with writeopen := false } else { pi with readopen := false }

/-- Where a call is. -/
inductive PipeCall
  | fresh
  | writing (left i : Nat)
  | reading (n : Nat)
  | done (r : Int)

/-- A pipe and the calls on it. -/
structure Pipes where
  pipe : Pipe
  calls : Nat → PipeCall

namespace Pipes

/-- The step of a writer. -/
def write (s : Pipes) (id left i : Nat) (copyin : Nat → Option UInt8) (killed : Nat → Bool) :
    List PipeEvent × Pipes :=
  match pipewriteLoop id copyin killed left i s.pipe with
  | (evs, .sleep left i, pi) => (evs, ⟨pi, Function.update s.calls id (.writing left i)⟩)
  | (evs, .ret r, pi) => (evs, ⟨pi, Function.update s.calls id (.done r)⟩)

/-- The step of a reader. -/
def read (s : Pipes) (id n : Nat) (copyout : Nat → UInt8 → Bool) (killed : Bool) :
    List PipeEvent × Pipes :=
  match piperead id copyout killed n s.pipe with
  | (evs, .sleep n _, pi) => (evs, ⟨pi, Function.update s.calls id (.reading n)⟩)
  | (evs, .ret r, pi) => (evs, ⟨pi, Function.update s.calls id (.done r)⟩)

/-- A call begins with argument `n`, a call that sleeps goes on, or an end is closed. -/
inductive Step : Pipes → List PipeEvent → Pipes → Prop
  | pipewrite {s : Pipes} {id : Nat} {n : Int} {copyin : Nat → Option UInt8} {killed : Nat → Bool}
      (h : s.calls id = .fresh) :
      Step s (s.write id n.toNat 0 copyin killed).1 (s.write id n.toNat 0 copyin killed).2
  | writeOn {s : Pipes} {id left i : Nat} {copyin : Nat → Option UInt8} {killed : Nat → Bool}
      (h : s.calls id = .writing left i) :
      Step s (s.write id left i copyin killed).1 (s.write id left i copyin killed).2
  | piperead {s : Pipes} {id : Nat} {n : Int} {copyout : Nat → UInt8 → Bool} {killed : Bool}
      (h : s.calls id = .fresh) :
      Step s (s.read id n.toNat copyout killed).1 (s.read id n.toNat copyout killed).2
  | readOn {s : Pipes} {id n : Nat} {copyout : Nat → UInt8 → Bool} {killed : Bool}
      (h : s.calls id = .reading n) :
      Step s (s.read id n copyout killed).1 (s.read id n copyout killed).2
  | pipeclose {s : Pipes} {writable : Bool} : Step s [] ⟨pipeclose s.pipe writable, s.calls⟩

/-- A pipe as `pipealloc` makes it; its buffer holds anything. -/
def initial (data : Nat → UInt8) : Pipes := ⟨⟨data, 0, 0, true, true⟩, fun _ => .fresh⟩

end Pipes

/-- The bytes that have been put in. -/
def putBytes (evs : List PipeEvent) : List UInt8 :=
  evs.filterMap fun e => match e with
    | .put _ _ ch => some ch
    | .take _ _ => none

/-- The bytes that have been taken out. -/
def takenBytes (evs : List PipeEvent) : List UInt8 :=
  evs.filterMap fun e => match e with
    | .put _ _ _ => none
    | .take _ ch => some ch

/-- The offsets of the bytes that a call has put in, in the order in which they went in. -/
def putOffsets (id : Nat) (evs : List PipeEvent) : List Nat :=
  evs.filterMap fun e => match e with
    | .put c i _ => if c = id then some i else none
    | .take _ _ => none

/-! ### The queue -/

variable {pi : Pipe} {evs : List PipeEvent} {id : Nat}

lemma putBytes_append (evs evs' : List PipeEvent) : putBytes (evs ++ evs') = putBytes evs ++ putBytes evs' :=
  List.filterMap_append

lemma takenBytes_append (evs evs' : List PipeEvent) :
    takenBytes (evs ++ evs') = takenBytes evs ++ takenBytes evs' :=
  List.filterMap_append

lemma putOffsets_append (id : Nat) (evs evs' : List PipeEvent) :
    putOffsets id (evs ++ evs') = putOffsets id evs ++ putOffsets id evs' :=
  List.filterMap_append

/-- The pipe after the events `evs`: what has gone in is what has come out, followed by what is in
the ring, and nothing came out before it had gone in. -/
structure Pipe.Holds (pi : Pipe) (evs : List PipeEvent) : Prop where
  ring : ∃ l, putBytes evs = takenBytes evs ++ l ∧
    Window pipesize (2 ^ 32) pi.data pi.nread pi.nwrite (takenBytes evs).length l
  sound : ∀ p, p <+: evs → takenBytes p <+: putBytes p

lemma pipesize_dvd : pipesize ∣ 2 ^ 32 := by decide

lemma pipesize_lt : pipesize < 2 ^ 32 := by decide

/-- The last event is sound if all before it were. -/
lemma sound_concat {e : PipeEvent} (h : ∀ p, p <+: evs → takenBytes p <+: putBytes p)
    (he : takenBytes (evs ++ [e]) <+: putBytes (evs ++ [e])) (p : List PipeEvent) (hp : p <+: evs ++ [e]) :
    takenBytes p <+: putBytes p := by
  rcases List.prefix_concat_iff.mp hp with rfl | hp
  · exact he
  · exact h p hp

lemma Pipe.Holds.put (id i : Nat) (h : pi.Holds evs) (hroom : pi.full = false) (ch : UInt8) :
    (pi.put ch).Holds (evs ++ [.put id i ch]) := by
  obtain ⟨⟨l, hall, hwin⟩, hsound⟩ := h
  have hput : putBytes (evs ++ [.put id i ch]) = takenBytes evs ++ (l ++ [ch]) := by
    rw [putBytes_append, hall, List.append_assoc]
    rfl
  have htaken : takenBytes (evs ++ [.put id i ch]) = takenBytes evs := by
    rw [takenBytes_append]
    exact List.append_nil _
  have hlt : l.length < pipesize := by
    refine lt_of_le_of_ne hwin.fits fun heq => ?_
    have hfull : pi.full = true := by
      unfold Pipe.full
      rw [beq_iff_eq]
      exact (hwin.full_iff pipesize_lt).mpr heq
    rw [hroom] at hfull
    cases hfull
  refine ⟨⟨l ++ [ch], ?_, ?_⟩, sound_concat hsound ?_⟩
  · rw [hput, htaken]
  · rw [htaken]
    exact hwin.push pipesize_dvd hlt ch
  · rw [htaken, hput]
    exact List.prefix_append _ _

lemma Pipe.Holds.take (id : Nat) (h : pi.Holds evs) (hsome : pi.empty = false) :
    pi.take.2.Holds (evs ++ [.take id pi.take.1]) := by
  obtain ⟨⟨l, hall, hwin⟩, hsound⟩ := h
  cases l with
  | nil =>
    have hempty : pi.empty = true := by
      unfold Pipe.empty
      rw [beq_iff_eq]
      exact (hwin.empty_iff pipesize_lt).mpr rfl
    rw [hsome] at hempty
    cases hempty
  | cons c l =>
    have hc : pi.take.1 = c := hwin.front pipesize_dvd
    have htaken : takenBytes (evs ++ [.take id pi.take.1]) = takenBytes evs ++ [c] := by
      rw [takenBytes_append, hc]
      rfl
    have hput : putBytes (evs ++ [.take id pi.take.1]) = takenBytes evs ++ [c] ++ l := by
      have hnone : putBytes [.take id pi.take.1] = [] := rfl
      rw [putBytes_append, hall, hnone, List.append_nil, List.append_assoc]
      rfl
    refine ⟨⟨l, ?_, ?_⟩, sound_concat hsound ?_⟩
    · rw [hput, htaken]
    · rw [htaken, List.length_append, List.length_singleton]
      exact hwin.pop
    · rw [htaken, hput]
      exact List.prefix_append _ _

/-- Only the ring and its counters matter. -/
lemma Pipe.Holds.congr {pi' : Pipe} (h : pi.Holds evs) (hdata : pi'.data = pi.data) (hread : pi'.nread = pi.nread)
    (hwrite : pi'.nwrite = pi.nwrite) : pi'.Holds evs := by
  refine ⟨?_, h.sound⟩
  rw [hdata, hread, hwrite]
  exact h.ring

lemma holds_initial (data : Nat → UInt8) : (Pipes.initial data).pipe.Holds [] := by
  refine ⟨⟨[], rfl, Window.nil data 0⟩, fun p hp => ?_⟩
  rw [List.prefix_nil.mp hp]
  exact List.prefix_refl _

/-! ### Steps -/

/-- What a step of `pipewrite` puts in: the bytes from offset `i` on, one after the other, up to the
offset at which it sleeps. -/
structure Writes (id i : Nat) (evs : List PipeEvent) (exit : PipeExit) : Prop where
  own : ∃ c, putOffsets id evs = List.range' i c ∧ ∀ left j, exit = .sleep left j → j = i + c
  other : ∀ id', id' ≠ id → putOffsets id' evs = []

lemma Writes.nil {i : Nat} {exit : PipeExit} (h : ∀ left j, exit = .sleep left j → j = i) :
    Writes id i [] exit :=
  ⟨⟨0, rfl, h⟩, fun _ _ => rfl⟩

lemma pipewriteLoop_ok (id i : Nat) (copyin : Nat → Option UInt8) (killed : Nat → Bool) (left : Nat)
    (h : pi.Holds evs) :
    (pipewriteLoop id copyin killed left i pi).2.2.Holds (evs ++ (pipewriteLoop id copyin killed left i pi).1) ∧
      Writes id i (pipewriteLoop id copyin killed left i pi).1 (pipewriteLoop id copyin killed left i pi).2.1 := by
  induction left generalizing i pi evs with
  | zero =>
    rw [pipewriteLoop, List.append_nil]
    refine ⟨h, .nil ?_⟩
    rintro left j ⟨⟩
  | succ left ih =>
    rw [pipewriteLoop]
    split
    · rw [List.append_nil]
      refine ⟨h, .nil ?_⟩
      rintro left j ⟨⟩
    · split
      · rw [List.append_nil]
        refine ⟨h, .nil ?_⟩
        rintro left j ⟨⟩
        rfl
      · next hfull =>
        cases copyin i with
        | none =>
          dsimp only
          rw [List.append_nil]
          refine ⟨h, .nil ?_⟩
          rintro left j ⟨⟩
        | some ch =>
          have hput := h.put id i (by simpa using hfull) ch
          obtain ⟨hholds, ⟨c, hown, hexit⟩, hother⟩ := ih (i := i + 1) hput
          rw [List.append_assoc] at hholds
          refine ⟨hholds, ⟨c + 1, ?_, fun left j hj => ?_⟩, fun id' hid' => ?_⟩
          · have hcons : putOffsets id (.put id i ch :: (pipewriteLoop id copyin killed left (i + 1) (pi.put ch)).1) =
                i :: putOffsets id (pipewriteLoop id copyin killed left (i + 1) (pi.put ch)).1 := by
              simp [putOffsets]
            dsimp only
            rw [hcons, hown]
            rfl
          · rw [hexit left j hj]
            omega
          · have hcons : putOffsets id' (.put id i ch :: (pipewriteLoop id copyin killed left (i + 1) (pi.put ch)).1) =
                putOffsets id' (pipewriteLoop id copyin killed left (i + 1) (pi.put ch)).1 := by
              simp [putOffsets, Ne.symm hid']
            dsimp only
            rw [hcons]
            exact hother id' hid'

lemma pipereadLoop_ok {copyout : Nat → UInt8 → Bool} {left i : Nat} (h : pi.Holds evs) :
    (pipereadLoop id copyout left i pi).2.2.Holds (evs ++ (pipereadLoop id copyout left i pi).1) ∧
      ∀ id', putOffsets id' (pipereadLoop id copyout left i pi).1 = [] := by
  induction left generalizing i pi evs with
  | zero =>
    rw [pipereadLoop, List.append_nil]
    exact ⟨h, fun _ => rfl⟩
  | succ left ih =>
    rw [pipereadLoop]
    split
    · rw [List.append_nil]
      exact ⟨h, fun _ => rfl⟩
    · next hempty =>
      have htake := h.take id (by simpa using hempty)
      dsimp only
      split
      · exact ⟨htake, fun _ => rfl⟩
      · obtain ⟨hholds, hnone⟩ := ih (i := i + 1) htake
        rw [List.append_assoc] at hholds
        exact ⟨hholds, hnone⟩

lemma piperead_ok (id : Nat) (copyout : Nat → UInt8 → Bool) (killed : Bool) (n : Nat) (h : pi.Holds evs) :
    (piperead id copyout killed n pi).2.2.Holds (evs ++ (piperead id copyout killed n pi).1) ∧
      ∀ id', putOffsets id' (piperead id copyout killed n pi).1 = [] := by
  unfold piperead
  split
  · split
    · rw [List.append_nil]
      exact ⟨h, fun _ => rfl⟩
    · rw [List.append_nil]
      exact ⟨h, fun _ => rfl⟩
  · exact pipereadLoop_ok h

/-! ### Runs -/

/-- The bytes of every call went in in order, up to where the call is. -/
def Pipes.Ordered (s : Pipes) (evs : List PipeEvent) (id : Nat) : Prop :=
  match s.calls id with
  | .fresh | .reading _ => putOffsets id evs = []
  | .writing _ i => putOffsets id evs = List.range i
  | .done _ => ∃ k, putOffsets id evs = List.range k

structure Pipes.Inv (s : Pipes) (evs : List PipeEvent) : Prop where
  holds : s.pipe.Holds evs
  ordered : ∀ id, s.Ordered evs id

namespace Pipes

variable {s t : Pipes} {evs' : List PipeEvent}

/-- A call that has done nothing keeps its place in the order. -/
lemma Ordered.other {id' : Nat} (h : s.Ordered evs id') (hcall : t.calls id' = s.calls id')
    (hnone : putOffsets id' evs' = []) : t.Ordered (evs ++ evs') id' := by
  unfold Ordered at *
  rw [hcall, putOffsets_append, hnone, List.append_nil]
  exact h

/-- A writer goes on from the offset it had reached. -/
lemma Inv.write (copyin : Nat → Option UInt8) (killed : Nat → Bool) (left : Nat) {i : Nat} (h : s.Inv evs)
    (hi : putOffsets id evs = List.range i) :
    (s.write id left i copyin killed).2.Inv (evs ++ (s.write id left i copyin killed).1) := by
  obtain ⟨hholds, ⟨c, hown, hexit⟩, hother⟩ := pipewriteLoop_ok id i copyin killed left h.holds
  have hoffsets : putOffsets id (evs ++ (pipewriteLoop id copyin killed left i s.pipe).1) = List.range (i + c) := by
    rw [putOffsets_append, hi, hown, List.range_add, List.range'_eq_map_range]
  unfold Pipes.write
  revert hholds hexit hother hoffsets
  obtain ⟨new, exit, pi⟩ := pipewriteLoop id copyin killed left i s.pipe
  intro hholds hother hexit hoffsets
  cases exit with
  | sleep left' j =>
    refine ⟨hholds, fun id' => ?_⟩
    by_cases hid : id' = id
    · subst hid
      have hj : j = i + c := hexit left' j rfl
      simpa [Ordered, hj] using hoffsets
    · exact (h.ordered id').other (Function.update_of_ne hid _ _) (hother id' hid)
  | ret r =>
    refine ⟨hholds, fun id' => ?_⟩
    by_cases hid : id' = id
    · subst hid
      simpa [Ordered] using ⟨i + c, hoffsets⟩
    · exact (h.ordered id').other (Function.update_of_ne hid _ _) (hother id' hid)

/-- A reader puts nothing in. -/
lemma Inv.read (copyout : Nat → UInt8 → Bool) (killed : Bool) (n : Nat) (h : s.Inv evs)
    (hi : putOffsets id evs = []) :
    (s.read id n copyout killed).2.Inv (evs ++ (s.read id n copyout killed).1) := by
  obtain ⟨hholds, hnone⟩ := piperead_ok id copyout killed n h.holds
  unfold Pipes.read
  revert hholds hnone
  obtain ⟨new, exit, pi⟩ := FogOS.Kernel.piperead id copyout killed n s.pipe
  intro hholds hnone
  have hoffsets : putOffsets id (evs ++ new) = [] := by
    rw [putOffsets_append, hi, hnone, List.append_nil]
  cases exit with
  | sleep n' j =>
    refine ⟨hholds, fun id' => ?_⟩
    by_cases hid : id' = id
    · subst hid
      simpa [Ordered] using hoffsets
    · exact (h.ordered id').other (Function.update_of_ne hid _ _) (hnone id')
  | ret r =>
    refine ⟨hholds, fun id' => ?_⟩
    by_cases hid : id' = id
    · subst hid
      simpa [Ordered] using ⟨0, hoffsets⟩
    · exact (h.ordered id').other (Function.update_of_ne hid _ _) (hnone id')

lemma Inv.step (h : s.Inv evs) (hstep : Step s evs' t) : t.Inv (evs ++ evs') := by
  cases hstep with
  | @pipewrite id n copyin killed hid =>
    have hi : putOffsets id evs = List.range 0 := by
      simpa [Ordered, hid] using h.ordered id
    exact h.write copyin killed n.toNat hi
  | @writeOn id left i copyin killed hid =>
    have hi : putOffsets id evs = List.range i := by
      simpa [Ordered, hid] using h.ordered id
    exact h.write copyin killed left hi
  | @piperead id n copyout killed hid =>
    have hi : putOffsets id evs = [] := by
      simpa [Ordered, hid] using h.ordered id
    exact h.read copyout killed n.toNat hi
  | @readOn id n copyout killed hid =>
    have hi : putOffsets id evs = [] := by
      simpa [Ordered, hid] using h.ordered id
    exact h.read copyout killed n hi
  | @pipeclose writable =>
    rw [List.append_nil]
    refine ⟨?_, h.ordered⟩
    cases writable with
    | true => exact h.holds.congr rfl rfl rfl
    | false => exact h.holds.congr rfl rfl rfl

lemma inv_initial (data : Nat → UInt8) : (initial data).Inv [] := ⟨holds_initial data, fun _ => rfl⟩

lemma inv_of_steps {data : Nat → UInt8} {l : List (List PipeEvent)} (h : Steps Step (initial data) l s) :
    s.Inv l.flatten := by
  induction h with
  | nil => exact inv_initial data
  | snoc _ hstep ih =>
    rw [List.flatten_concat]
    exact ih.step hstep

/-- The offsets that a call has written are those below some number, in order. -/
lemma Inv.offsets (h : s.Inv evs) (id : Nat) : ∃ k, putOffsets id evs = List.range k := by
  have hid := h.ordered id
  unfold Ordered at hid
  split at hid
  · exact ⟨0, hid⟩
  · exact ⟨0, hid⟩
  · exact ⟨_, hid⟩
  · exact hid

end Pipes

/-- The number of bytes in the ring, `nwrite - nread` in 32 bits. -/
def Pipe.count (pi : Pipe) : Nat := u32 (pi.nwrite + 2 ^ 32 - pi.nread)

/-- The bytes in the ring, from the next to be read on. -/
def Pipe.bytes (pi : Pipe) : List UInt8 :=
  (List.range pi.count).map fun k => pi.data (u32 (pi.nread + k) % pipesize)

lemma Pipe.Holds.bytes (h : pi.Holds evs) :
    pi.count ≤ pipesize ∧ putBytes evs = takenBytes evs ++ pi.bytes := by
  obtain ⟨⟨l, hall, hwin⟩, -⟩ := h
  have hcount : pi.count = l.length := hwin.length_eq pipesize_lt
  refine ⟨hcount.trans_le hwin.fits, ?_⟩
  have hbytes : pi.bytes = l := by
    refine List.ext_getElem (by simp [Pipe.bytes, hcount]) fun k hk hk' => ?_
    have hindex : u32 (pi.nread + k) % pipesize = ((takenBytes evs).length + k) % pipesize := by
      unfold u32
      rw [mod_mod pipesize_dvd, hwin.first, ← mod_mod pipesize_dvd, Nat.mod_add_mod, mod_mod pipesize_dvd]
    simp only [Pipe.bytes, List.getElem_map, List.getElem_range]
    rw [hindex]
    exact hwin.data k hk'
  rw [hbytes]
  exact hall

/-- A pipe is a queue. In every interleaving of calls on it, at every moment of the history, what has
come out is a prefix of what has gone in; what is between is in the ring; and each `pipewrite` puts
in the bytes of its buffer in order. -/
theorem pipe_is_fifo {data : Nat → UInt8} {l : List (List PipeEvent)} {s : Pipes}
    (h : Steps Pipes.Step (Pipes.initial data) l s) :
    (∀ p, p <+: l.flatten → takenBytes p <+: putBytes p) ∧
      s.pipe.count ≤ pipesize ∧
      putBytes l.flatten = takenBytes l.flatten ++ s.pipe.bytes ∧
      ∀ id, ∃ k, putOffsets id l.flatten = List.range k := by
  have hinv := Pipes.inv_of_steps h
  obtain ⟨hcount, hbytes⟩ := hinv.holds.bytes
  exact ⟨hinv.holds.sound, hcount, hbytes, hinv.offsets⟩

/-- Two bytes go in and one comes out. -/
theorem pipe_is_fifo_two :
    ∃ s, Steps Pipes.Step (Pipes.initial fun _ => 0) [[.put 0 0 104, .put 0 1 105], [.take 1 104]] s ∧
      takenBytes [.put 0 0 104, .put 0 1 105, .take 1 104] <+: putBytes [.put 0 0 104, .put 0 1 105, .take 1 104] ∧
      s.pipe.bytes = [105] := by
  let s₁ := ((Pipes.initial fun _ => 0).write 0 2 0 (fun i => [104, 105][i]?) fun _ => false).2
  have hlabels : ((Pipes.initial fun _ => 0).write 0 2 0 (fun i => [104, 105][i]?) fun _ => false).1 =
        [.put 0 0 104, .put 0 1 105] ∧
      (s₁.read 1 1 (fun _ _ => true) false).1 = [.take 1 104] ∧
      (s₁.read 1 1 (fun _ _ => true) false).2.pipe.bytes = [105] := by
    decide
  obtain ⟨hput, htake, hleft⟩ := hlabels
  have hwrite : Pipes.Step (Pipes.initial fun _ => 0) [.put 0 0 104, .put 0 1 105] s₁ := by
    rw [← hput]
    exact Pipes.Step.pipewrite (n := 2) rfl
  have hread : Pipes.Step s₁ [.take 1 104] (s₁.read 1 1 (fun _ _ => true) false).2 := by
    rw [← htake]
    exact Pipes.Step.piperead (n := 1) rfl
  have hrun := ((Steps.nil _).snoc hwrite).snoc hread
  obtain ⟨hsound, -, -, -⟩ := pipe_is_fifo hrun
  exact ⟨_, hrun, hsound _ (List.prefix_refl _), hleft⟩

/-! ### Reads that fail -/

lemma Pipe.bytes_empty (h : pi.empty = true) : pi.bytes = [] := by
  have hsame : pi.nread = pi.nwrite := by simpa [Pipe.empty] using h
  unfold Pipe.bytes Pipe.count u32
  rw [hsame, Nat.add_sub_cancel_left]
  rfl

/-- What `take` takes is the first byte in the ring. -/
lemma Pipe.bytes_take (hr : pi.nread < 2 ^ 32) (hw : pi.nwrite < 2 ^ 32) (h : pi.empty = false) :
    pi.bytes = pi.take.1 :: pi.take.2.bytes := by
  have hne : pi.nread ≠ pi.nwrite := by simpa [Pipe.empty] using h
  have hcount : pi.count = pi.take.2.count + 1 := by
    unfold Pipe.count Pipe.take u32
    dsimp only
    omega
  unfold Pipe.bytes
  rw [hcount, List.range_succ_eq_map, List.map_cons, List.map_map]
  refine List.cons_eq_cons.mpr ⟨?_, List.map_congr_left fun k _ => ?_⟩
  · change pi.data (u32 (pi.nread + 0) % pipesize) = pi.data (pi.nread % pipesize)
    rw [Nat.add_zero, u32, Nat.mod_eq_of_lt hr]
  · change pi.data (u32 (pi.nread + (k + 1)) % pipesize) = pi.data (u32 (u32 (pi.nread + 1) + k) % pipesize)
    rw [show u32 (u32 (pi.nread + 1) + k) = u32 (pi.nread + (k + 1)) by unfold u32; omega]

/-- The loop of `piperead` stops after `m` bytes: it has taken those, and one more if that one could not be
copied out. -/
structure Takes (copyout : Nat → UInt8 → Bool) (i : Nat) (l : List UInt8) (r : List PipeEvent × PipeExit × Pipe)
    (start m t : Nat) : Prop where
  exit : r.2.1 = .ret ((i + m : Nat) : Int)
  taken : takenBytes r.1 = l.take t
  nread : r.2.2.nread = u32 (start + t)
  copied : ∀ j ch, j < m → l[j]? = some ch → copyout (i + j) ch = true
  cases : t = m ∧ m = l.length ∨ t = m + 1 ∧ ∃ ch, l[m]? = some ch ∧ copyout (i + m) ch = false

lemma pipereadLoop_takes (id : Nat) (copyout : Nat → UInt8 → Bool) (left i : Nat) (hr : pi.nread < 2 ^ 32)
    (hw : pi.nwrite < 2 ^ 32) :
    ∃ m t, Takes copyout i (pi.bytes.take left) (pipereadLoop id copyout left i pi) pi.nread m t := by
  induction left generalizing i pi with
  | zero =>
    refine ⟨0, 0, rfl, by simp [pipereadLoop, takenBytes], ?_, fun j ch hj => absurd hj (Nat.not_lt_zero j), Or.inl ⟨rfl, by simp⟩⟩
    rw [pipereadLoop, u32, Nat.add_zero, Nat.mod_eq_of_lt hr]
  | succ left ih =>
    rw [pipereadLoop]
    by_cases hempty : pi.empty = true
    · rw [if_pos hempty, Pipe.bytes_empty hempty]
      refine ⟨0, 0, rfl, by simp [takenBytes], ?_, fun j ch hj => absurd hj (Nat.not_lt_zero j), Or.inl ⟨rfl, by simp⟩⟩
      rw [u32, Nat.add_zero, Nat.mod_eq_of_lt hr]
    · have hbytes := Pipe.bytes_take hr hw (by simpa using hempty)
      rw [if_neg hempty, hbytes, List.take_succ_cons]
      dsimp only
      by_cases hcopy : copyout i pi.take.1 = true
      · have hlt : pi.take.2.nread < 2 ^ 32 := Nat.mod_lt _ (by decide)
        obtain ⟨m, t, hexit, htaken, hnread, hcopied, hcases⟩ := ih (i + 1) hlt hw
        rw [hcopy, Bool.not_true, if_neg Bool.false_ne_true]
        refine ⟨m + 1, t + 1, ?_, ?_, ?_, fun j ch hj hch => ?_, ?_⟩
        · dsimp only
          rw [hexit, Nat.add_right_comm, Nat.add_assoc]
        · exact congrArg (pi.take.1 :: ·) htaken
        · dsimp only
          rw [hnread]
          unfold Pipe.take u32
          dsimp only
          omega
        · cases j with
          | zero =>
            rw [List.getElem?_cons_zero] at hch
            exact Option.some.inj hch ▸ hcopy
          | succ j =>
            rw [List.getElem?_cons_succ] at hch
            have hrest := hcopied j ch (by omega) hch
            rwa [Nat.add_right_comm, Nat.add_assoc] at hrest
        · rcases hcases with ⟨rfl, hm⟩ | ⟨rfl, ch, hch, hfail⟩
          · exact Or.inl ⟨rfl, by rw [List.length_cons, hm]⟩
          · refine Or.inr ⟨rfl, ch, by rwa [List.getElem?_cons_succ], ?_⟩
            rwa [Nat.add_right_comm, Nat.add_assoc] at hfail
      · have hfail : copyout i pi.take.1 = false := by simpa using hcopy
        rw [hfail, Bool.not_false, if_pos rfl]
        exact ⟨0, 1, rfl, rfl, rfl, fun j ch hj => absurd hj (Nat.not_lt_zero j),
          Or.inr ⟨rfl, pi.take.1, rfl, hfail⟩⟩

/-- What is taken out of the pipe is what the call returns, and it has all been copied out. -/
def Lossless (copyout : Nat → UInt8 → Bool) (pi : Pipe) (r : List PipeEvent × PipeExit × Pipe) : Prop :=
  ∀ k : Nat, r.2.1 = .ret k → (takenBytes r.1).length = k ∧ r.2.2.nread = u32 (pi.nread + k) ∧
    ∀ j ch, (takenBytes r.1)[j]? = some ch → copyout j ch = true

/-- `piperead` loses no byte exactly if all the bytes it is to read can be copied out. -/
theorem piperead_lossless_iff (id : Nat) (copyout : Nat → UInt8 → Bool) (killed : Bool) (n : Nat) (pi : Pipe)
    (hr : pi.nread < 2 ^ 32) (hw : pi.nwrite < 2 ^ 32) :
    Lossless copyout pi (piperead id copyout killed n pi) ↔
      ∀ j ch, (pi.bytes.take n)[j]? = some ch → copyout j ch = true := by
  unfold piperead
  by_cases hwait : (pi.empty && pi.writeopen) = true
  · have hempty : pi.bytes = [] := Pipe.bytes_empty (Bool.and_eq_true_iff.mp hwait).1
    rw [if_pos hwait, hempty, List.take_nil]
    refine ⟨fun _ j ch hch => by simp at hch, fun _ k hk => ?_⟩
    cases killed with
    | true =>
      have hneg : (-1 : Int) = k := PipeExit.ret.inj hk
      omega
    | false => cases hk
  · rw [if_neg hwait]
    obtain ⟨m, t, hexit, htaken, hnread, hcopied, hcases⟩ := pipereadLoop_takes id copyout n 0 hr hw
    simp only [Nat.zero_add] at hexit hcopied hcases
    constructor
    · intro h
      obtain ⟨hlen, -, -⟩ := h m hexit
      rcases hcases with ⟨rfl, hm⟩ | ⟨rfl, ch, hch, -⟩
      · intro j ch hch
        have hj := (List.getElem?_eq_some_iff.mp hch).1
        exact hcopied j ch (by omega) hch
      · -- one byte more is gone than the call returns
        have hm := (List.getElem?_eq_some_iff.mp hch).1
        rw [htaken, List.length_take] at hlen
        omega
    · intro hall k hk
      rw [hexit] at hk
      obtain rfl : m = k := by simpa using hk
      rcases hcases with ⟨rfl, hm⟩ | ⟨-, ch, hch, hfail⟩
      · have hfull : (pi.bytes.take n).take t = pi.bytes.take n := by rw [hm, List.take_length]
        rw [htaken, hfull]
        exact ⟨hm.symm, hnread, hall⟩
      · rw [hall m ch hch] at hfail
        cases hfail

/-- A byte is in the pipe and goes to an address that is not mapped. -/
theorem piperead_loses : ¬ Lossless (fun _ _ => false) ⟨fun _ => 97, 0, 1, true, true⟩
    (piperead 0 (fun _ _ => false) false 1 ⟨fun _ => 97, 0, 1, true, true⟩) := by
  intro h
  obtain ⟨hlen, -, -⟩ := h 0 rfl
  cases hlen

/-- Two bytes are read to memory that is mapped. -/
theorem piperead_lossless_two : Lossless (fun _ _ => true) ⟨fun _ => 97, 0, 2, true, true⟩
    (piperead 0 (fun _ _ => true) false 5 ⟨fun _ => 97, 0, 2, true, true⟩) :=
  (piperead_lossless_iff 0 (fun _ _ => true) false 5 _ (by decide) (by decide)).mpr fun _ _ _ => rfl

end FogOS.Kernel
