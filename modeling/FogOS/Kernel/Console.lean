import FogOS.Lib.Fifo
import FogOS.Lib.Steps
import FogOS.Kernel.Basic

/-!
# The console

`consoleintr` and `consoleread` of `kernel/console.c`. Both hold the lock of the console, which a
reader gives up when it sleeps: a step is a character that arrives, or what a reader does up to its
next sleep or its return.

What the console is for is said by `Tty`, which keeps all that was ever committed and the line that is
being edited, as lists.
-/

namespace FogOS.Kernel

open Fifo

/-- `INPUT_BUF_SIZE`. -/
def inputBufSize : Nat := 128

/-- `C('D')`. -/
def ctrlD : UInt8 := 4

/-- `C('H')`. -/
def ctrlH : UInt8 := 8

/-- `'\n'`. -/
def newline : UInt8 := 10

/-- `'\r'`. -/
def carriageReturn : UInt8 := 13

/-- `C('P')`. -/
def ctrlP : UInt8 := 16

/-- `C('U')`. -/
def ctrlU : UInt8 := 21

/-- `'\x7f'`. -/
def delete : UInt8 := 127

/-- `cons`. -/
structure Cons where
  buf : Nat → UInt8
  r : Nat
  w : Nat
  e : Nat

namespace Cons

/-- `cons.e - 1`. -/
def back (c : Cons) : Nat := u32 (c.e + 2 ^ 32 - 1)

/-- `cons.e - cons.r`. -/
def pending (c : Cons) : Nat := u32 (c.e + 2 ^ 32 - c.r)

end Cons

/-- The loop of `C('U')`, with `fuel` characters between `w` and `e`. -/
def killLine : Nat → Cons → Cons
  | 0, c => c
  | fuel + 1, c =>
    if c.e != c.w && c.buf (c.back % inputBufSize) != newline then killLine fuel { c with e := c.back }
    else c

/-- The handler of an input character. The echo and the process list go to the screen. -/
def consoleintr (c : Cons) (ch : UInt8) : Cons :=
  if ch = ctrlP then c
  else if ch = ctrlU then killLine (u32 (c.e + 2 ^ 32 - c.w)) c
  else if ch = ctrlH ∨ ch = delete then
    if c.e != c.w then { c with e := c.back } else c
  else if ch ≠ 0 ∧ c.pending < inputBufSize then
    let ch := if ch = carriageReturn then newline else ch
    let c := { c with buf := Function.update c.buf (c.e % inputBufSize) ch, e := u32 (c.e + 1) }
    if ch = newline ∨ ch = ctrlD ∨ c.pending = inputBufSize then { c with w := c.e } else c
  else c

/-- A character arrives; a byte is copied to the buffer of a call; a call sleeps or returns. -/
inductive ConsEvent
  | key (ch : UInt8)
  | data (call : Nat) (ch : UInt8)
  | sleep (call : Nat)
  | ret (call : Nat) (r : Int)
  deriving DecidableEq

/-- How a step of `consoleread` ends: asleep with `n` bytes still to come, or with a return value. -/
inductive ConsExit
  | sleep (n : Nat)
  | ret (r : Int)

/-- The loop of `consoleread` of call `id`, with `n` of `target` bytes still to come. -/
def consolereadLoop (id : Nat) (copyout : Nat → UInt8 → Bool) (killed : Bool) (target : Nat) :
    Nat → Cons → List ConsEvent × ConsExit × Cons
  | 0, c => ([.ret id target], .ret target, c)
  | n + 1, c =>
    if c.r = c.w then
      if killed then ([.ret id (-1)], .ret (-1), c) else ([.sleep id], .sleep (n + 1), c)
    else
      let ch := c.buf (c.r % inputBufSize)
      let c := { c with r := u32 (c.r + 1) }
      if ch = ctrlD then
        let c := if n + 1 < target then { c with r := u32 (c.r + 2 ^ 32 - 1) } else c
        ([.ret id (target - (n + 1))], .ret (target - (n + 1)), c)
      else if !copyout (target - (n + 1)) ch then ([.ret id (target - (n + 1))], .ret (target - (n + 1)), c)
      else if ch = newline then ([.data id ch, .ret id (target - n)], .ret (target - n), c)
      else
        let (evs, exit, c) := consolereadLoop id copyout killed target n c
        (.data id ch :: evs, exit, c)

/-- Where a call is. -/
inductive ConsCall
  | fresh
  | reading (target n : Nat)
  | done (r : Int)

/-- The console and the calls on it. -/
structure Consoles where
  cons : Cons
  calls : Nat → ConsCall

namespace Consoles

/-- The step of a reader to a valid destination, by a process that is not killed. -/
def read (s : Consoles) (id target n : Nat) : List ConsEvent × Consoles :=
  match consolereadLoop id (fun _ _ => true) false target n s.cons with
  | (evs, .sleep n, c) => (evs, ⟨c, Function.update s.calls id (.reading target n)⟩)
  | (evs, .ret r, c) => (evs, ⟨c, Function.update s.calls id (.done r)⟩)

/-- A character arrives, a call begins with argument `n`, or a call that sleeps goes on. -/
inductive Step : Consoles → List ConsEvent → Consoles → Prop
  | consoleintr {s : Consoles} (ch : UInt8) : Step s [.key ch] ⟨consoleintr s.cons ch, s.calls⟩
  | consoleread {s : Consoles} {id : Nat} {n : Int} (h : s.calls id = .fresh) (hn : 0 < n) :
      Step s (s.read id n.toNat n.toNat).1 (s.read id n.toNat n.toNat).2
  | readOn {s : Consoles} {id target n : Nat} (h : s.calls id = .reading target n) :
      Step s (s.read id target n).1 (s.read id target n).2

/-- The console at first, zeroed, and nobody reads. -/
def initial : Consoles := ⟨⟨fun _ => 0, 0, 0, 0⟩, fun _ => .fresh⟩

end Consoles

/-! ### What is typed and what is read -/

/-- All that has been committed, the line that is being edited, and how much has been read. -/
structure Tty where
  committed : List UInt8
  line : List UInt8
  taken : Nat

namespace Tty

/-- The characters that have not been read. -/
def pending (t : Tty) : Nat := t.committed.length - t.taken + t.line.length

/-- The next character that can be read. -/
def next (t : Tty) : Option UInt8 := t.committed[t.taken]?

/-- A character is typed. Only the line is edited. -/
def type (t : Tty) (ch : UInt8) : Tty :=
  if ch = ctrlP then t
  else if ch = ctrlU then { t with line := [] }
  else if ch = ctrlH ∨ ch = delete then { t with line := t.line.dropLast }
  else if ch = 0 ∨ t.pending = inputBufSize then t
  else
    let ch := if ch = carriageReturn then newline else ch
    if ch = newline ∨ ch = ctrlD ∨ t.pending + 1 = inputBufSize then
      { t with committed := t.committed ++ (t.line ++ [ch]), line := [] }
    else { t with line := t.line ++ [ch] }

/-- A read of no bytes takes a `^D`. -/
def event (t : Tty) : ConsEvent → Tty
  | .key ch => t.type ch
  | .data _ _ => { t with taken := t.taken + 1 }
  | .sleep _ => t
  | .ret _ r => if r = 0 then { t with taken := t.taken + 1 } else t

end Tty

/-- The input after editing. -/
def tty (evs : List ConsEvent) : Tty := evs.foldl Tty.event ⟨[], [], 0⟩

/-- The bytes that calls have got, in the order in which they got them. -/
def readBytes (evs : List ConsEvent) : List UInt8 :=
  evs.filterMap fun e => match e with
    | .data _ ch => some ch
    | _ => none

/-- What has been read: the bytes that calls have got, and a `^D` for each call that got none. -/
def consumed (evs : List ConsEvent) : List UInt8 :=
  evs.filterMap fun e => match e with
    | .data _ ch => some ch
    | .ret _ r => if r = 0 then some ctrlD else none
    | _ => none

/-- The bytes that one call has got. -/
def callBytes (id : Nat) (evs : List ConsEvent) : List UInt8 :=
  evs.filterMap fun e => match e with
    | .data call ch => if call = id then some ch else none
    | _ => none

/-- What may happen after `p`. A call gets the next character, but never a `^D`; it sleeps only when
all that was committed has been read; it returns the number of bytes it has got, and none only at a
`^D`. -/
def Follows (p : List ConsEvent) : ConsEvent → Prop
  | .key _ => True
  | .data _ ch => (tty p).next = some ch ∧ ch ≠ ctrlD
  | .sleep _ => (tty p).next = none
  | .ret id r => r = (callBytes id p).length ∧ (r = 0 → (tty p).next = some ctrlD)

/-- Every event of the history follows on those before it. -/
def Orderly (evs : List ConsEvent) : Prop := ∀ p e, p ++ [e] <+: evs → Follows p e

variable {c : Cons} {t : Tty} {evs : List ConsEvent} {id : Nat}

lemma tty_concat (evs : List ConsEvent) (e : ConsEvent) : tty (evs ++ [e]) = (tty evs).event e := by
  simp [tty]

lemma callBytes_append (id : Nat) (evs evs' : List ConsEvent) :
    callBytes id (evs ++ evs') = callBytes id evs ++ callBytes id evs' :=
  List.filterMap_append

lemma Orderly.concat {e : ConsEvent} (h : Orderly evs) (he : Follows evs e) : Orderly (evs ++ [e]) := by
  intro p e' hp
  rcases List.prefix_concat_iff.mp hp with heq | hp
  · obtain ⟨rfl, rfl⟩ := List.append_singleton_inj.mp heq
    exact he
  · exact h p e' hp

lemma Orderly.of_concat {e : ConsEvent} (h : Orderly (evs ++ [e])) : Orderly evs ∧ Follows evs e :=
  ⟨fun p e' hp => h p e' (hp.trans (List.prefix_append _ _)), h evs e (List.prefix_refl _)⟩

/-- What is typed changes nothing that is committed. -/
lemma Tty.committed_type (t : Tty) (ch : UInt8) : t.committed <+: (t.type ch).committed ∧ (t.type ch).taken = t.taken := by
  unfold Tty.type
  dsimp only
  split_ifs
  all_goals first
    | exact ⟨List.prefix_refl _, rfl⟩
    | exact ⟨List.prefix_append _ _, rfl⟩

lemma Tty.committed_event (t : Tty) (e : ConsEvent) : t.committed <+: (t.event e).committed := by
  cases e with
  | key ch => exact (t.committed_type ch).1
  | data id ch => exact List.prefix_refl _
  | sleep id => exact List.prefix_refl _
  | ret id r =>
    unfold Tty.event
    dsimp only
    split
    · exact List.prefix_refl _
    · exact List.prefix_refl _

lemma committed_append (evs evs' : List ConsEvent) : (tty evs).committed <+: (tty (evs ++ evs')).committed := by
  induction evs' using List.reverseRecOn with
  | nil => rw [List.append_nil]
  | append_singleton evs' e ih =>
    rw [← List.append_assoc, tty_concat]
    exact ih.trans (Tty.committed_event _ e)

/-- The next character, and what has been read with it. -/
lemma Tty.take_next {ch : UInt8} (h : t.next = some ch) :
    t.committed.take (t.taken + 1) = t.committed.take t.taken ++ [ch] ∧ t.taken < t.committed.length := by
  have hget : t.committed[t.taken]? = some ch := h
  obtain ⟨hlt, -⟩ := List.getElem?_eq_some_iff.mp hget
  refine ⟨?_, hlt⟩
  rw [List.take_add_one, hget]
  rfl

/-- What has been read is the first part of what was committed. -/
lemma Orderly.consumed (h : Orderly evs) :
    consumed evs = (tty evs).committed.take (tty evs).taken ∧ (tty evs).taken ≤ (tty evs).committed.length := by
  induction evs using List.reverseRecOn with
  | nil => exact ⟨rfl, le_refl _⟩
  | append_singleton evs e ih =>
    obtain ⟨hevs, he⟩ := h.of_concat
    obtain ⟨hread, htaken⟩ := ih hevs
    have hconsumed : FogOS.Kernel.consumed (evs ++ [e]) =
        FogOS.Kernel.consumed evs ++ FogOS.Kernel.consumed [e] := List.filterMap_append
    rw [tty_concat, hconsumed, hread]
    cases e with
    | key ch =>
      obtain ⟨⟨l, hl⟩, hsame⟩ := (tty evs).committed_type ch
      change _ ++ [] = (Tty.type _ ch).committed.take (Tty.type _ ch).taken ∧
        (Tty.type _ ch).taken ≤ (Tty.type _ ch).committed.length
      rw [hsame, ← hl, List.append_nil, List.take_append_of_le_length htaken, List.length_append]
      exact ⟨rfl, by omega⟩
    | data id ch =>
      obtain ⟨htake, hlt⟩ := Tty.take_next he.1
      exact ⟨htake.symm, hlt⟩
    | sleep id => exact ⟨List.append_nil _, htaken⟩
    | ret id r =>
      by_cases hzero : r = 0
      · subst hzero
        obtain ⟨htake, hlt⟩ := Tty.take_next (he.2 rfl)
        exact ⟨htake.symm, hlt⟩
      · have hnone : FogOS.Kernel.consumed [.ret id r] = [] := by simp [FogOS.Kernel.consumed, hzero]
        rw [hnone, Tty.event, if_neg hzero, List.append_nil]
        exact ⟨rfl, htaken⟩

/-- What the calls have got is what has been read, without the `^D`s. -/
lemma Orderly.readBytes (h : Orderly evs) : readBytes evs = (FogOS.Kernel.consumed evs).filter (· ≠ ctrlD) := by
  induction evs using List.reverseRecOn with
  | nil => rfl
  | append_singleton evs e ih =>
    obtain ⟨hevs, he⟩ := h.of_concat
    have hbytes : FogOS.Kernel.readBytes (evs ++ [e]) =
        FogOS.Kernel.readBytes evs ++ FogOS.Kernel.readBytes [e] := List.filterMap_append
    have hconsumed : FogOS.Kernel.consumed (evs ++ [e]) =
        FogOS.Kernel.consumed evs ++ FogOS.Kernel.consumed [e] := List.filterMap_append
    rw [hbytes, hconsumed, List.filter_append, ih hevs]
    congr 1
    cases e with
    | key ch => rfl
    | data id ch => simp [FogOS.Kernel.readBytes, FogOS.Kernel.consumed, he.2]
    | sleep id => rfl
    | ret id r =>
      by_cases hzero : r = 0
      · simp [FogOS.Kernel.readBytes, FogOS.Kernel.consumed, hzero]
      · simp [FogOS.Kernel.readBytes, FogOS.Kernel.consumed, hzero]

lemma Orderly.of_prefix {p : List ConsEvent} (h : Orderly evs) (hp : p <+: evs) : Orderly p :=
  fun q e hq => h q e (hq.trans hp)

/-! ### The ring -/

lemma inputBufSize_dvd : inputBufSize ∣ 2 ^ 32 := by decide

lemma inputBufSize_lt : inputBufSize < 2 ^ 32 := by decide

/-- The ring holds what is committed and not read, and then the line. -/
structure Cons.Shows (c : Cons) (t : Tty) : Prop where
  window : Window inputBufSize (2 ^ 32) c.buf c.r c.e t.taken (t.committed.drop t.taken ++ t.line)
  commit : c.w = t.committed.length % 2 ^ 32
  taken : t.taken ≤ t.committed.length
  line : newline ∉ t.line

namespace Cons.Shows

variable {ch : UInt8}

lemma length_drop (h : c.Shows t) : t.taken + (t.committed.drop t.taken).length = t.committed.length := by
  rw [List.length_drop]
  have := h.taken
  omega

/-- The part that can be read. -/
lemma unread (h : c.Shows t) : Window inputBufSize (2 ^ 32) c.buf c.r c.w t.taken (t.committed.drop t.taken) := by
  have hleft := h.window.left
  rw [h.length_drop, ← h.commit] at hleft
  exact hleft

/-- The part that can be edited. -/
lemma edited (h : c.Shows t) : Window inputBufSize (2 ^ 32) c.buf c.w c.e t.committed.length t.line := by
  have hright := h.window.right
  rw [h.length_drop, ← h.commit] at hright
  exact hright

lemma pending (h : c.Shows t) : c.pending = t.pending := by
  have hlength := h.window.length_eq inputBufSize_lt
  rw [List.length_append, List.length_drop] at hlength
  exact hlength

lemma line_nil (h : c.Shows t) : c.e = c.w ↔ t.line = [] := by
  rw [eq_comm]
  exact h.edited.empty_iff inputBufSize_lt

lemma next_none (h : c.Shows t) : c.r = c.w ↔ t.next = none := by
  rw [h.unread.empty_iff inputBufSize_lt, Tty.next, List.getElem?_eq_none_iff, List.drop_eq_nil_iff]

/-- Where the counters stand. -/
lemma bounds (h : c.Shows t) : u32 (c.w + 2 ^ 32 - c.r) ≤ c.pending ∧ c.pending ≤ inputBufSize := by
  have hread : u32 (c.w + 2 ^ 32 - c.r) = _ := h.unread.length_eq inputBufSize_lt
  have hall : c.pending = _ := h.window.length_eq inputBufSize_lt
  have hfits := h.window.fits
  rw [hread, hall]
  rw [List.length_append] at hfits ⊢
  exact ⟨Nat.le_add_right _ _, hfits⟩

/-- The last character of the line is dropped. -/
lemma erase {l : List UInt8} (h : c.Shows t) (hl : t.line = l ++ [ch]) :
    Cons.Shows { c with e := c.back } { t with line := l } ∧ c.buf (c.back % inputBufSize) = ch := by
  have hwindow := h.window
  rw [hl, ← List.append_assoc] at hwindow
  have hline := h.line
  rw [hl] at hline
  refine ⟨⟨hwindow.unpush inputBufSize_lt, h.commit, h.taken, fun hmem => hline ?_⟩,
    hwindow.back inputBufSize_dvd inputBufSize_lt⟩
  exact List.mem_append_left _ hmem

lemma killLine {l : List UInt8} (h : c.Shows t) (hl : t.line = l) :
    Cons.Shows (killLine l.length c) { t with line := [] } := by
  induction l using List.reverseRecOn generalizing c t with
  | nil =>
    have hnil : ({ t with line := [] } : Tty) = t := by rw [← hl]
    rw [hnil]
    exact h
  | append_singleton l ch ih =>
    obtain ⟨hdrop, hch⟩ := h.erase hl
    have hne : c.e ≠ c.w := by
      rw [Ne, h.line_nil, hl]
      simp
    have hnewline : ch ≠ newline := by
      rintro rfl
      exact h.line (by simp [hl])
    have hrest := ih hdrop rfl
    rw [List.length_append, List.length_singleton, FogOS.Kernel.killLine, if_pos (by simp [hne, hch, hnewline])]
    exact hrest

/-- A character is stored. -/
lemma store (h : c.Shows t) (hroom : t.pending < inputBufSize) (hch : ch ≠ newline) :
    Cons.Shows { c with buf := Function.update c.buf (c.e % inputBufSize) ch, e := u32 (c.e + 1) }
      { t with line := t.line ++ [ch] } := by
  have hlength : (t.committed.drop t.taken ++ t.line).length < inputBufSize := by
    rw [List.length_append, List.length_drop]
    exact hroom
  have hpush := h.window.push inputBufSize_dvd hlength ch
  rw [List.append_assoc] at hpush
  refine ⟨hpush, h.commit, h.taken, ?_⟩
  rw [List.mem_append, List.mem_singleton]
  rintro (hmem | heq)
  · exact h.line hmem
  · exact hch heq.symm

/-- A character is stored and ends the line. -/
lemma commitLine (h : c.Shows t) (hroom : t.pending < inputBufSize) :
    Cons.Shows
      { c with buf := Function.update c.buf (c.e % inputBufSize) ch, e := u32 (c.e + 1), w := u32 (c.e + 1) }
      { t with committed := t.committed ++ (t.line ++ [ch]), line := [] } := by
  have hlength : (t.committed.drop t.taken ++ t.line).length < inputBufSize := by
    rw [List.length_append, List.length_drop]
    exact hroom
  have hpush := h.window.push inputBufSize_dvd hlength ch
  have hall : (t.committed ++ (t.line ++ [ch])).drop t.taken = t.committed.drop t.taken ++ t.line ++ [ch] := by
    rw [List.drop_append_of_le_length h.taken, List.append_assoc]
  refine ⟨?_, ?_, ?_, by simp⟩
  · dsimp only
    rw [hall, List.append_nil]
    exact hpush
  · have hlast := hpush.last
    have hlength : t.taken + (t.committed.drop t.taken ++ t.line ++ [ch]).length =
        (t.committed ++ (t.line ++ [ch])).length := by
      have := h.length_drop
      simp only [List.length_append] at *
      omega
    rw [hlength] at hlast
    exact hlast
  · have := h.taken
    simp only [List.length_append]
    omega

/-- Backspace. -/
lemma backspace (h : c.Shows t) :
    Cons.Shows (if c.e != c.w then { c with e := c.back } else c) { t with line := t.line.dropLast } := by
  rcases List.eq_nil_or_concat t.line with hnil | ⟨l, ch, hl⟩
  · have heq : c.e = c.w := h.line_nil.mpr hnil
    have hsame : ({ t with line := t.line.dropLast } : Tty) = t := by rw [hnil, List.dropLast_nil, ← hnil]
    rw [if_neg (by simp [heq]), hsame]
    exact h
  · have hne : c.e ≠ c.w := by
      rw [Ne, h.line_nil, hl]
      simp
    rw [if_pos (by simp [hne]), hl, List.concat_eq_append, List.dropLast_concat]
    exact (h.erase (hl.trans List.concat_eq_append)).1

/-- A character that is not for editing, when there is room. -/
lemma typed (h : c.Shows t) (hroom : t.pending < inputBufSize) (ch : UInt8) :
    let c' := { c with buf := Function.update c.buf (c.e % inputBufSize) ch, e := u32 (c.e + 1) }
    Cons.Shows (if ch = newline ∨ ch = ctrlD ∨ c'.pending = inputBufSize then { c' with w := c'.e } else c')
      (if ch = newline ∨ ch = ctrlD ∨ t.pending + 1 = inputBufSize then
        { t with committed := t.committed ++ (t.line ++ [ch]), line := [] }
      else { t with line := t.line ++ [ch] }) := by
  intro c'
  by_cases hch : ch = newline
  · rw [if_pos (.inl hch), if_pos (.inl hch)]
    exact h.commitLine hroom
  · have hstore := h.store hroom hch
    have hpending : c'.pending = t.pending + 1 := by
      rw [hstore.pending, Tty.pending, Tty.pending, List.length_append, List.length_singleton]
      rfl
    rw [hpending]
    split
    · exact h.commitLine hroom
    · exact hstore

lemma consoleintr (h : c.Shows t) (ch : UInt8) : Cons.Shows (consoleintr c ch) (t.type ch) := by
  unfold FogOS.Kernel.consoleintr Tty.type
  have hle : t.pending ≤ inputBufSize := h.pending ▸ h.bounds.2
  by_cases hP : ch = ctrlP
  · rw [if_pos hP, if_pos hP]
    exact h
  rw [if_neg hP, if_neg hP]
  by_cases hU : ch = ctrlU
  · have hfuel : u32 (c.e + 2 ^ 32 - c.w) = t.line.length := h.edited.length_eq inputBufSize_lt
    rw [if_pos hU, if_pos hU, hfuel]
    exact h.killLine rfl
  rw [if_neg hU, if_neg hU]
  by_cases hH : ch = ctrlH ∨ ch = delete
  · rw [if_pos hH, if_pos hH]
    exact h.backspace
  rw [if_neg hH, if_neg hH, h.pending]
  by_cases hroom : ch ≠ 0 ∧ t.pending < inputBufSize
  · have hkeep : ¬ (ch = 0 ∨ t.pending = inputBufSize) := by
      rintro (hzero | hfull)
      · exact hroom.1 hzero
      · omega
    rw [if_pos hroom, if_neg hkeep]
    exact h.typed hroom.2 _
  · have hdrop : ch = 0 ∨ t.pending = inputBufSize := by
      by_contra hno
      push Not at hno
      exact hroom ⟨hno.1, by omega⟩
    rw [if_neg hroom, if_pos hdrop]
    exact h

/-- A character is read. -/
lemma take (h : c.Shows t) (hnext : t.next = some ch) :
    Cons.Shows { c with r := u32 (c.r + 1) } { t with taken := t.taken + 1 } ∧
      c.buf (c.r % inputBufSize) = ch ∧ u32 (u32 (c.r + 1) + 2 ^ 32 - 1) = c.r := by
  have hget : t.committed[t.taken]? = some ch := hnext
  obtain ⟨hlt, hch⟩ := List.getElem?_eq_some_iff.mp hget
  have hdrop : t.committed.drop t.taken = ch :: t.committed.drop (t.taken + 1) := by
    rw [List.drop_eq_getElem_cons hlt, hch]
  have hwindow := h.window
  rw [hdrop, List.cons_append] at hwindow
  refine ⟨⟨hwindow.pop, h.commit, hlt, h.line⟩, hwindow.front inputBufSize_dvd, ?_⟩
  have hr : c.r < 2 ^ 32 := by
    rw [hwindow.first]
    exact Nat.mod_lt _ (by decide)
  unfold u32
  omega

end Cons.Shows

/-! ### Readers -/

/-- What a step of `consoleread` gives after `evs`: the events, how it ends, and the console. -/
structure Reads (id target : Nat) (evs : List ConsEvent) (out : List ConsEvent × ConsExit × Cons) : Prop where
  shows : out.2.2.Shows (tty (evs ++ out.1))
  orderly : Orderly (evs ++ out.1)
  other : ∀ id', id' ≠ id → callBytes id' out.1 = []
  left : ∀ n, out.2.1 = .sleep n → (callBytes id (evs ++ out.1)).length + n = target

variable {target : Nat} {e : ConsEvent} {exit : ConsExit}

/-- A step of one event. -/
lemma Reads.single (h : Orderly evs) (he : Follows evs e) (hshows : c.Shows ((tty evs).event e))
    (hnone : ∀ id', callBytes id' [e] = [])
    (hleft : ∀ n, exit = .sleep n → (callBytes id evs).length + n = target) :
    Reads id target evs ([e], exit, c) := by
  refine ⟨?_, h.concat he, fun id' _ => hnone id', fun n hn => ?_⟩
  · dsimp only
    rw [tty_concat]
    exact hshows
  · dsimp only
    rw [callBytes_append, hnone, List.append_nil]
    exact hleft n hn

/-- A byte, and then the rest. -/
lemma Reads.cons {ch : UInt8} {new : List ConsEvent}
    (h : Reads id target (evs ++ [.data id ch]) (new, exit, c)) :
    Reads id target evs (.data id ch :: new, exit, c) := by
  obtain ⟨hshows, horderly, hother, hleft⟩ := h
  rw [List.append_assoc] at hshows horderly
  refine ⟨hshows, horderly, fun id' hid' => ?_, fun n hn => ?_⟩
  · have hnone : callBytes id' [.data id ch] = [] := by simp [callBytes, Ne.symm hid']
    have happend := callBytes_append id' [.data id ch] new
    rw [hnone, hother id' hid'] at happend
    exact happend
  · have hn' := hleft n hn
    rw [List.append_assoc] at hn'
    exact hn'

lemma callBytes_data (id : Nat) (ch : UInt8) (evs : List ConsEvent) :
    callBytes id (evs ++ [.data id ch]) = callBytes id evs ++ [ch] := by
  simp [callBytes]

lemma consolereadLoop_ok {n : Nat} (h : c.Shows (tty evs)) (ho : Orderly evs)
    (hn : (callBytes id evs).length + n = target) (hpos : 0 < target) :
    Reads id target evs (consolereadLoop id (fun _ _ => true) false target n c) := by
  induction n generalizing c evs with
  | zero =>
    have hne : (target : Int) ≠ 0 := by omega
    refine .single ho ⟨by omega, fun hzero => absurd hzero hne⟩ ?_ (fun _ => rfl) (by rintro n ⟨⟩)
    rw [Tty.event, if_neg hne]
    exact h
  | succ n ih =>
    rw [consolereadLoop]
    by_cases hempty : c.r = c.w
    · rw [if_pos hempty, if_neg (by decide)]
      refine .single ho (h.next_none.mp hempty) h (fun _ => rfl) ?_
      rintro m ⟨⟩
      exact hn
    rw [if_neg hempty]
    obtain ⟨ch, hnext⟩ : ∃ ch, (tty evs).next = some ch :=
      Option.ne_none_iff_exists'.mp fun hnone => hempty (h.next_none.mpr hnone)
    obtain ⟨htake, hch, hback⟩ := h.take hnext
    dsimp only
    rw [hch]
    by_cases hD : ch = ctrlD
    · subst hD
      rw [if_pos rfl, hback]
      refine .single ho ⟨by omega, fun _ => hnext⟩ ?_ (fun _ => rfl) (by rintro m ⟨⟩)
      by_cases hdata : n + 1 < target
      · -- the `^D` is left for a read that has got nothing
        rw [if_pos hdata, Tty.event, if_neg (by omega)]
        exact h
      · rw [if_neg hdata, Tty.event, if_pos (by omega)]
        exact htake
    rw [if_neg hD, if_neg (by decide)]
    have hdata : Orderly (evs ++ [.data id ch]) := ho.concat ⟨hnext, hD⟩
    have hshows : Cons.Shows { c with r := u32 (c.r + 1) } (tty (evs ++ [.data id ch])) := by
      rw [tty_concat]
      exact htake
    have hgot : (callBytes id (evs ++ [.data id ch])).length + n = target := by
      rw [callBytes_data, List.length_append, List.length_singleton]
      omega
    by_cases hnl : ch = newline
    · rw [if_pos hnl]
      have hne : (target : Int) - n ≠ 0 := by
        rw [callBytes_data, List.length_append, List.length_singleton] at hgot
        omega
      refine .cons (.single hdata ⟨by omega, fun hzero => absurd hzero hne⟩ ?_ (fun _ => rfl) (by rintro m ⟨⟩))
      rw [Tty.event, if_neg hne]
      exact hshows
    · rw [if_neg hnl]
      exact .cons (ih hshows hdata hgot)

/-! ### Runs -/

/-- A call has got the bytes it does not still want. -/
def ConsCall.Got (call : ConsCall) (got : Nat) : Prop :=
  match call with
  | .fresh => got = 0
  | .reading target n => got + n = target ∧ 0 < target
  | .done _ => True

structure Consoles.Inv (s : Consoles) (evs : List ConsEvent) : Prop where
  shows : s.cons.Shows (tty evs)
  orderly : Orderly evs
  calls : ∀ id, (s.calls id).Got (callBytes id evs).length

namespace Consoles

variable {s s' : Consoles} {new : List ConsEvent}

/-- A step of one call leaves the others where they are. -/
lemma read_other {id' n : Nat} (s : Consoles) (hid : id' ≠ id) : (s.read id target n).2.calls id' = s.calls id' := by
  unfold Consoles.read
  split
  · exact Function.update_of_ne hid _ _
  · exact Function.update_of_ne hid _ _

lemma Inv.read {n : Nat} (h : s.Inv evs) (hn : (callBytes id evs).length + n = target) (hpos : 0 < target) :
    (s.read id target n).2.Inv (evs ++ (s.read id target n).1) := by
  have hreads := consolereadLoop_ok h.shows h.orderly hn hpos
  unfold Consoles.read
  revert hreads
  obtain ⟨new, exit, c⟩ := consolereadLoop id (fun _ _ => true) false target n s.cons
  intro hreads
  have hother : ∀ id', id' ≠ id → (s.calls id').Got (callBytes id' (evs ++ new)).length := by
    intro id' hid'
    rw [callBytes_append, hreads.other id' hid', List.append_nil]
    exact h.calls id'
  cases exit with
  | sleep m =>
    refine ⟨hreads.shows, hreads.orderly, fun id' => ?_⟩
    by_cases hid : id' = id
    · subst hid
      dsimp only
      rw [Function.update_self]
      exact ⟨hreads.left m rfl, hpos⟩
    · dsimp only
      rw [Function.update_of_ne hid]
      exact hother id' hid
  | ret r =>
    refine ⟨hreads.shows, hreads.orderly, fun id' => ?_⟩
    by_cases hid : id' = id
    · subst hid
      dsimp only
      rw [Function.update_self]
      trivial
    · dsimp only
      rw [Function.update_of_ne hid]
      exact hother id' hid

lemma Inv.step (h : s.Inv evs) (hstep : Step s new s') : s'.Inv (evs ++ new) := by
  cases hstep with
  | consoleintr ch =>
    refine ⟨?_, h.orderly.concat trivial, fun id => ?_⟩
    · rw [tty_concat]
      exact h.shows.consoleintr ch
    · rw [callBytes_append]
      exact (List.append_nil (callBytes id evs)).symm ▸ h.calls id
  | @consoleread id n hid hn =>
    have hgot : (callBytes id evs).length = 0 := by simpa [ConsCall.Got, hid] using h.calls id
    exact h.read (by omega) (by omega)
  | @readOn id target n hid =>
    have hgot : (callBytes id evs).length + n = target ∧ 0 < target := by
      simpa [ConsCall.Got, hid] using h.calls id
    exact h.read hgot.1 hgot.2

lemma inv_initial : initial.Inv [] := by
  refine ⟨⟨Window.nil _ 0, rfl, le_refl _, by simp [tty]⟩, fun p e hp => ?_, fun _ => rfl⟩
  simp at hp

lemma inv_of_steps {l : List (List ConsEvent)} (h : Steps Step initial l s) : s.Inv l.flatten := by
  induction h with
  | nil => exact inv_initial
  | snoc _ hstep ih =>
    rw [List.flatten_concat]
    exact ih.step hstep

end Consoles

/-- The line discipline. However characters and readers interleave: the indices keep their order and
their distance; at every moment of the history what has been committed stays, what was read is the
first part of it, with a `^D` for each read of no bytes, and the bytes that calls got are those apart
from the `^D`s; and each event is in order. -/
theorem console_line_discipline {l : List (List ConsEvent)} {s : Consoles}
    (h : Steps Consoles.Step Consoles.initial l s) :
    (u32 (s.cons.w + 2 ^ 32 - s.cons.r) ≤ s.cons.pending ∧ s.cons.pending ≤ inputBufSize) ∧
      (∀ p, p <+: l.flatten → (tty p).committed <+: (tty l.flatten).committed ∧
        consumed p <+: (tty p).committed ∧ readBytes p <+: (tty p).committed.filter (· ≠ ctrlD)) ∧
      ∀ p e, p ++ [e] <+: l.flatten → Follows p e := by
  have hinv := Consoles.inv_of_steps h
  refine ⟨hinv.shows.bounds, fun p hp => ?_, hinv.orderly⟩
  have horderly := hinv.orderly.of_prefix hp
  have hconsumed : consumed p <+: (tty p).committed := by
    rw [horderly.consumed.1]
    exact List.take_prefix _ _
  refine ⟨?_, hconsumed, ?_⟩
  · obtain ⟨q, hq⟩ := hp
    rw [← hq]
    exact committed_append p q
  · rw [horderly.readBytes]
    exact hconsumed.filter _

/-- Someone types `hj`, a backspace, `i` and `^D`, and two calls read. -/
theorem console_line_discipline_hi :
    ∃ s, Steps Consoles.Step Consoles.initial
        [[.key 104], [.key 106], [.key 8], [.key 105], [.key 4], [.data 0 104, .data 0 105, .ret 0 2], [.ret 1 0]] s ∧
      consumed [.key 104, .key 106, .key 8, .key 105, .key 4, .data 0 104, .data 0 105, .ret 0 2, .ret 1 0] <+:
        [104, 105, 4] := by
  obtain ⟨s₁, hs₁⟩ : ∃ s : Consoles,
      s = ⟨[104, 106, 8, 105, 4].foldl consoleintr Consoles.initial.cons, Consoles.initial.calls⟩ := ⟨_, rfl⟩
  obtain ⟨s₂, hs₂⟩ : ∃ s, s = (s₁.read 0 10 10).2 := ⟨_, rfl⟩
  have hlabels : (s₁.read 0 10 10).1 = [.data 0 104, .data 0 105, .ret 0 2] ∧ (s₂.read 1 10 10).1 = [.ret 1 0] := by
    rw [hs₂, hs₁]
    decide
  have hcommitted : (tty [.key 104, .key 106, .key 8, .key 105, .key 4, .data 0 104, .data 0 105, .ret 0 2,
      .ret 1 0]).committed = [104, 105, 4] := by
    decide
  have hfresh : s₁.calls = Consoles.initial.calls := by rw [hs₁]
  have htyped : Steps Consoles.Step Consoles.initial [[.key 104], [.key 106], [.key 8], [.key 105], [.key 4]] s₁ := by
    rw [hs₁]
    exact (((((Steps.nil _).snoc (.consoleintr 104)).snoc (.consoleintr 106)).snoc (.consoleintr 8)).snoc
      (.consoleintr 105)).snoc (.consoleintr 4)
  have hfirst : Consoles.Step s₁ [.data 0 104, .data 0 105, .ret 0 2] s₂ := by
    rw [hs₂, ← hlabels.1]
    exact @Consoles.Step.consoleread s₁ 0 10 (congrFun hfresh 0) (by decide)
  have hsecond : Consoles.Step s₂ [.ret 1 0] (s₂.read 1 10 10).2 := by
    have hcall : s₂.calls 1 = .fresh := by rw [hs₂, s₁.read_other (by decide), hfresh, Consoles.initial]
    rw [← hlabels.2]
    exact @Consoles.Step.consoleread s₂ 1 10 hcall (by decide)
  have hrun := (htyped.snoc hfirst).snoc hsecond
  obtain ⟨-, hreads, -⟩ := console_line_discipline hrun
  refine ⟨_, hrun, ?_⟩
  rw [← hcommitted]
  exact (hreads _ (List.prefix_refl _)).2.1

end FogOS.Kernel
