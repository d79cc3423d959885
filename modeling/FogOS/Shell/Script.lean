import FogOS.Shell.Tokens
import FogOS.Shell.History

/-!
# Scripts and histories

What the main loop makes of its input: which lines it reads, which commands it runs, and what it
records. A line of a script is read in pieces of 255 bytes, and every piece is taken for a line.
-/

namespace FogOS.Shell

open Kernel

/-! ### The loop over lines that have been read -/

/-- The lines, or pieces of lines, that the loop reads, each with its offset. -/
def reads (read : Str → Option (Str × Str)) : Nat → Nat → Str → List (Nat × Str)
  | 0, _, _ => []
  | fuel + 1, off, input =>
    match read input with
    | none => []
    | some (buf, rest) =>
      (off, buf) :: reads read fuel (off + (input.length - rest.length)) rest

/-- The command `exit`. -/
def IsExit (line : Str) : Prop := (command line).head? = some exitWord

instance (line : Str) : Decidable (IsExit line) := inferInstanceAs (Decidable (_ = _))

/-- The lines with a command, up to the first `exit`; `none` if one has too many words. -/
def accepted : List (Nat × Str) → Option (List (Nat × Str))
  | [] => some []
  | l :: ls =>
    if command l.2 = [] then accepted ls
    else if 128 ≤ (command l.2).length then none
    else if IsExit l.2 then some [l]
    else (accepted ls).map (l :: ·)

/-- What goes into the history for a line. -/
def stored (line : Str) : Str := upToFirstWord (lineText line)

/-- Every read takes a byte at least. -/
def Reads (read : Str → Option (Str × Str)) : Prop :=
  (read [] = none) ∧ ∀ input ≠ [], ∃ buf rest, read input = some (buf, rest) ∧
    rest.length < input.length

lemma oneLine_none {s : State} {line : Str} (h : IsText line) (hc : command line = []) :
    oneLine s line = .ok (s, none) := by
  rw [oneLine, parseLine_eq h, if_pos hc]
  rfl

lemma oneLine_wild {s : State} {line : Str} (h : IsText line) (hc : command line ≠ [])
    (hlen : 128 ≤ (command line).length) : oneLine s line = .error .wild := by
  rw [oneLine, parseLine_eq h, if_neg hc, if_neg (not_lt.mpr hlen)]
  rfl

lemma oneLine_some {s : State} {line : Str} {cmds : List Str} (hs : s.Holds cmds)
    (hn : cmds.length + 1 < 2 ^ 31) (h : IsText line) (hc : command line ≠ [])
    (hlen : ¬ 128 ≤ (command line).length) : ∃ s', oneLine s line = .ok (s', some (command line)) ∧
      s'.Holds (cmds ++ [stored line]) := by
  obtain ⟨s', hrec, hs'⟩ := hs.record hn (stored line)
  refine ⟨s', ?_, hs'⟩
  rw [oneLine, parseLine_eq h, if_neg hc, if_pos (not_le.mp hlen), ok_bind]
  dsimp only
  rw [show upToFirstWord (lineText line) = stored line from rfl, hrec, ok_bind]
  rfl

section Rounds

variable {read : Str → Option (Str × Str)} {fuel off : Nat} {s s' : State} {input buf rest : Str}
  {tokens : List Str}

lemma mainLoop_none (hr : read input = none) :
    mainLoop read (fuel + 1) s off input = .ok (s, []) := by
  rw [mainLoop, hr]
  rfl

lemma mainLoop_some (hr : read input = some (buf, rest)) : mainLoop read (fuel + 1) s off input =
    (oneLine s buf).bind fun r =>
      r.2.elim (mainLoop read fuel r.1 (off + (input.length - rest.length)) rest) fun tokens =>
        if tokens.head? = some exitWord then .ok (r.1, [(off, tokens)])
        else (mainLoop read fuel r.1 (off + (input.length - rest.length)) rest).map
          fun q => (q.1, (off, tokens) :: q.2) := by
  rw [mainLoop, hr]
  dsimp only
  cases oneLine s buf with
  | error e => rfl
  | ok r =>
    obtain ⟨s', _ | tokens⟩ := r
    · rfl
    by_cases hexit : tokens.head? = some exitWord
    · simp only [ok_bind, Except.bind, Option.elim, if_pos hexit]
      rfl
    · simp only [ok_bind, Except.bind, Option.elim, if_neg hexit]
      cases mainLoop read fuel s' (off + (input.length - rest.length)) rest <;> rfl

lemma mainLoop_error {e : Stop} (hr : read input = some (buf, rest))
    (hone : oneLine s buf = .error e) : mainLoop read (fuel + 1) s off input = .error e := by
  rw [mainLoop_some hr, hone]
  rfl

lemma mainLoop_skip (hr : read input = some (buf, rest)) (hone : oneLine s buf = .ok (s', none)) :
    mainLoop read (fuel + 1) s off input =
      mainLoop read fuel s' (off + (input.length - rest.length)) rest := by
  rw [mainLoop_some hr, hone]
  rfl

lemma mainLoop_exit (hr : read input = some (buf, rest))
    (hone : oneLine s buf = .ok (s', some tokens)) (hexit : tokens.head? = some exitWord) :
    mainLoop read (fuel + 1) s off input = .ok (s', [(off, tokens)]) := by
  rw [mainLoop_some hr, hone]
  exact if_pos hexit

lemma mainLoop_run (hr : read input = some (buf, rest))
    (hone : oneLine s buf = .ok (s', some tokens)) (hexit : tokens.head? ≠ some exitWord) :
    mainLoop read (fuel + 1) s off input =
      (mainLoop read fuel s' (off + (input.length - rest.length)) rest).map
        fun r => (r.1, (off, tokens) :: r.2) := by
  rw [mainLoop_some hr, hone]
  exact if_neg hexit

end Rounds

/-- How many of the lines have a command. -/
def commandCount (lines : List Str) : Nat := lines.countP fun line => command line ≠ []

lemma commandCount_cons (line : Str) (lines : List Str) : commandCount (line :: lines) =
    commandCount lines + if command line = [] then 0 else 1 := by
  rw [commandCount, List.countP_cons, commandCount]
  congr 1
  by_cases h : command line = [] <;> simp [h]

lemma length_reads {read : Str → Option (Str × Str)} (hread : Reads read) (fuel off : Nat)
    (input : Str) : (reads read fuel off input).length ≤ input.length := by
  induction fuel generalizing off input with
  | zero => exact Nat.zero_le _
  | succ fuel ih =>
    by_cases hnil : input = []
    · subst hnil
      rw [reads, hread.1]
      exact Nat.zero_le _
    obtain ⟨buf, rest, hr, hlt⟩ := hread.2 input hnil
    rw [reads, hr]
    dsimp only
    have hle := ih (off + (input.length - rest.length)) rest
    rw [List.length_cons]
    omega

/-- The loop runs the commands of the accepted lines and records them. -/
lemma mainLoop_eq {read : Str → Option (Str × Str)} (hread : Reads read) {fuel : Nat} {s : State}
    {cmds : List Str} {off : Nat} {input : Str} (hs : s.Holds cmds) (hfuel : input.length < fuel)
    (hn : cmds.length + commandCount ((reads read fuel off input).map (·.2)) < 2 ^ 31)
    (htext : ∀ l ∈ reads read fuel off input, IsText l.2) :
    match accepted (reads read fuel off input) with
    | none => mainLoop read fuel s off input = .error .wild
    | some ls => ∃ s', mainLoop read fuel s off input =
        .ok (s', ls.map fun l => (l.1, command l.2)) ∧ s'.Holds (cmds ++ ls.map (stored ·.2)) := by
  induction fuel generalizing s cmds off input with
  | zero => omega
  | succ fuel ih =>
    rw [reads] at htext hn ⊢
    by_cases hnil : input = []
    · subst hnil
      rw [hread.1]
      exact ⟨s, mainLoop_none hread.1, by simpa using hs⟩
    obtain ⟨buf, rest, hr, hlt⟩ := hread.2 input hnil
    rw [hr] at htext hn ⊢
    dsimp only at htext hn ⊢
    rw [List.map_cons, commandCount_cons] at hn
    have hbuf : IsText buf := htext _ List.mem_cons_self
    have hrest : ∀ l ∈ reads read fuel (off + (input.length - rest.length)) rest, IsText l.2 :=
      fun l hl => htext l (List.mem_cons_of_mem _ hl)
    rw [accepted]
    dsimp only
    by_cases hc : command buf = []
    · rw [if_pos hc] at hn
      rw [if_pos hc, mainLoop_skip hr (oneLine_none hbuf hc)]
      exact ih hs (by omega) hn hrest
    rw [if_neg hc] at hn
    by_cases hlen : 128 ≤ (command buf).length
    · rw [if_neg hc, if_pos hlen]
      exact mainLoop_error hr (oneLine_wild hbuf hc hlen)
    obtain ⟨s', hone, hs'⟩ := oneLine_some hs (by omega) hbuf hc hlen
    rw [if_neg hc, if_neg hlen]
    by_cases hexit : IsExit buf
    · rw [if_pos hexit]
      exact ⟨s', mainLoop_exit hr hone hexit, by simpa using hs'⟩
    · rw [if_neg hexit, mainLoop_run hr hone hexit]
      have hgo := ih hs' (by omega)
        (by simp only [List.length_append, List.length_singleton]; omega) hrest
      cases hacc : accepted (reads read fuel (off + (input.length - rest.length)) rest) with
      | none =>
        rw [hacc] at hgo
        rw [show mainLoop _ _ _ _ _ = _ from hgo]
        rfl
      | some ls =>
        rw [hacc] at hgo
        obtain ⟨s'', hloop, hs''⟩ := hgo
        refine ⟨s'', ?_, by simpa using hs''⟩
        rw [hloop]
        rfl

/-! ### Reading a script -/

/-- A line in pieces of 255 bytes. -/
def pieces (line : Str) : List Str :=
  if line = [] then [] else line.take 255 :: pieces (line.drop 255)
termination_by line.length
decreasing_by
  rename_i h
  have := List.length_pos_of_ne_nil h
  simp only [List.length_drop]
  omega

lemma pieces_nil : pieces [] = [] := by rw [pieces, if_pos rfl]

lemma pieces_of_ne_nil {line : Str} (h : line ≠ []) :
    pieces line = line.take 255 :: pieces (line.drop 255) := by rw [pieces, if_neg h]

/-- A line that fits into the buffer is read as one. -/
lemma pieces_short {line : Str} (h : line ≠ []) (hlen : line.length ≤ 255) :
    pieces line = [line] := by
  rw [pieces_of_ne_nil h, List.take_of_length_le hlen, List.drop_eq_nil_of_le hlen, pieces_nil]

lemma pieces_flatten (line : Str) : (pieces line).flatten = line := by
  induction line using pieces.induct with
  | case1 => rw [pieces_nil, List.flatten_nil]
  | case2 line h ih =>
    rw [pieces_of_ne_nil h, List.flatten_cons, ih, List.take_append_drop]

/-- What follows the first line of an input, and the lines that are in it. -/
def Follows (tail : Str) (ls : List Str) : Prop :=
  (tail = [] ∧ ls = []) ∨ ∃ t, tail = 10 :: t ∧ ls = t.splitOn 10

lemma splitOn_append {r tail : Str} {ls : List Str} (hr : 10 ∉ r) (ht : Follows tail ls) :
    (r ++ tail).splitOn 10 = r :: ls := by
  rcases ht with ⟨rfl, rfl⟩ | ⟨t, rfl, rfl⟩
  · rw [List.append_nil, List.splitOn_eq_singleton hr]
  · exact List.splitOn_append_cons_self_of_not_mem hr t

lemma exists_first (input : Str) : ∃ r tail ls, input = r ++ tail ∧ 10 ∉ r ∧ Follows tail ls := by
  by_cases h : 10 ∈ input
  · obtain ⟨r, t, rfl, hr⟩ := List.eq_append_cons_of_mem h
    exact ⟨r, 10 :: t, _, rfl, hr, Or.inr ⟨t, rfl, rfl⟩⟩
  · exact ⟨input, [], [], (List.append_nil input).symm, h, Or.inl ⟨rfl, rfl⟩⟩

lemma readLoop_eq (n : Nat) {r tail : Str} {ls : List Str} (hr : 10 ∉ r) (ht : Follows tail ls) :
    readLoop n (r ++ tail) =
      (r.take n, if r.length < n then tail.drop 1 else r.drop n ++ tail) := by
  induction n generalizing r with
  | zero => simp [readLoop]
  | succ n ih =>
    cases r with
    | nil =>
      rcases ht with ⟨rfl, -⟩ | ⟨t, rfl, -⟩
      · rfl
      · simp [readLoop]
    | cons c r =>
      rw [List.mem_cons, not_or] at hr
      rw [List.cons_append, readLoop, if_neg (Ne.symm hr.1), ih hr.2]
      simp

lemma readLine_eq {input : Str} (h : input ≠ []) : readLine input = some (readLoop 255 input) := by
  cases input with
  | nil => exact absurd rfl h
  | cons c input => rfl

lemma reads_readLine : Reads readLine := by
  refine ⟨rfl, fun input hne => ?_⟩
  obtain ⟨r, tail, ls, rfl, hr, ht⟩ := exists_first input
  refine ⟨_, _, (readLine_eq hne).trans (congrArg some (readLoop_eq 255 hr ht)), ?_⟩
  have hpos := List.length_pos_of_ne_nil hne
  rw [List.length_append] at hpos ⊢
  split <;> simp only [List.length_drop, List.length_append] <;> omega

/-- The number of the line, from 0, that the byte at an offset belongs to. -/
def lineOf (content : Str) (off : Nat) : Nat := (content.take off).count 10

/-- The pieces of the lines, each with the number of its line. -/
def linePieces (lines : List (Str × Nat)) : List (Nat × Str) :=
  lines.flatMap fun l => (pieces l.1).map fun p => (l.2, p)

lemma linePieces_cons (l : Str) (i : Nat) (lines : List (Str × Nat)) :
    linePieces ((l, i) :: lines) = (pieces l).map (fun p => (i, p)) ++ linePieces lines := rfl

/-- What is read of a script, empty pieces apart, are the pieces of its lines. -/
lemma reads_script {fuel : Nat} {input : Str} (before : Str) (hfuel : input.length < fuel) :
    ((reads readLine fuel before.length input).filter fun l => l.2 ≠ []).map
        (fun l => (lineOf (before ++ input) l.1, l.2)) =
      linePieces ((input.splitOn 10).zipIdx (before.count 10)) := by
  induction fuel generalizing before input with
  | zero => omega
  | succ fuel ih =>
    by_cases hnil : input = []
    · subst hnil
      simp [reads, readLine, linePieces, pieces_nil, List.splitOn]
    obtain ⟨r, tail, ls, rfl, hr, ht⟩ := exists_first input
    have hline : lineOf (before ++ (r ++ tail)) before.length = before.count 10 := by
      rw [lineOf, List.take_left]
    rw [reads, readLine_eq hnil, readLoop_eq 255 hr ht, splitOn_append hr ht, List.zipIdx_cons,
      linePieces_cons]
    dsimp only
    simp only [List.length_append] at hfuel
    by_cases hlong : 255 ≤ r.length
    · -- the buffer is full before the line ends
      have hne : r ≠ [] := by
        rintro rfl
        simp at hlong
      have htake : (r.take 255).length = 255 := by simp [hlong]
      have hnew : 10 ∉ r.take 255 := fun h => hr (List.mem_of_mem_take h)
      have hgo := @ih (r.drop 255 ++ tail) (before ++ r.take 255)
        (by simp only [List.length_append, List.length_drop]; omega)
      have hoff : before.length + ((r ++ tail).length - (r.drop 255 ++ tail).length) =
          (before ++ r.take 255).length := by
        simp only [List.length_append, List.length_drop, htake]
        omega
      have hcat : before ++ r.take 255 ++ (r.drop 255 ++ tail) = before ++ (r ++ tail) := by
        rw [List.append_assoc, ← List.append_assoc (r.take 255), List.take_append_drop]
      rw [hcat, List.count_append, List.count_eq_zero_of_not_mem hnew, Nat.add_zero,
        splitOn_append (fun h => hr (List.mem_of_mem_drop h)) ht, List.zipIdx_cons,
        linePieces_cons] at hgo
      have hkeep : decide ((r.take 255) ≠ []) = true := by
        simp [hne]
      rw [if_neg (not_lt.mpr hlong), hoff, List.filter_cons, if_pos hkeep, List.map_cons, hgo,
        hline, pieces_of_ne_nil hne]
      rfl
    · -- the line ends, and with it the round
      have htake : r.take 255 = r := List.take_of_length_le (by omega)
      have hgo : ((reads readLine fuel (before.length + ((r ++ tail).length - (tail.drop 1).length))
          (tail.drop 1)).filter fun l => l.2 ≠ []).map
            (fun l => (lineOf (before ++ (r ++ tail)) l.1, l.2)) =
          linePieces (ls.zipIdx (before.count 10 + 1)) := by
        rcases ht with ⟨rfl, rfl⟩ | ⟨t, rfl, rfl⟩
        · cases fuel <;> rfl
        · have hrest := @ih t (before ++ (r ++ [10]))
            (by simp only [List.length_cons] at hfuel; omega)
          have hoff : before.length + ((r ++ 10 :: t).length - t.length) =
              (before ++ (r ++ [10])).length := by
            simp only [List.length_append, List.length_cons, List.length_nil]
            omega
          have hcount : (before ++ (r ++ [10])).count 10 = before.count 10 + 1 := by
            simp [List.count_eq_zero_of_not_mem hr]
          have hcat : before ++ (r ++ [10]) ++ t = before ++ (r ++ 10 :: t) := by simp
          rw [hcount, hcat] at hrest
          rw [List.drop_one, List.tail_cons, hoff]
          exact hrest
      rw [if_pos (not_le.mp hlong), htake, List.filter_cons]
      by_cases hne : r = []
      · subst hne
        rw [if_neg (by simp), hgo, pieces_nil]
        rfl
      · rw [if_pos (by simpa using hne), List.map_cons, hgo, hline, pieces_short hne (by omega)]
        rfl

lemma readLoop_mem {n : Nat} {input : Str} : (∀ c ∈ (readLoop n input).1, c ∈ input ∧ c ≠ 10) ∧
    ∀ c ∈ (readLoop n input).2, c ∈ input := by
  induction n generalizing input with
  | zero => simp [readLoop]
  | succ n ih =>
    cases input with
    | nil => simp [readLoop]
    | cons c input =>
      rw [readLoop]
      split
      · next hc => simpa using fun x hx => Or.inr hx
      · next hc =>
        obtain ⟨hbuf, hrest⟩ := @ih input
        refine ⟨fun x hx => ?_, fun x hx => List.mem_cons_of_mem c (hrest x hx)⟩
        rcases List.mem_cons.mp hx with rfl | hx
        · exact ⟨List.mem_cons_self, hc⟩
        · exact ⟨List.mem_cons_of_mem c (hbuf x hx).1, (hbuf x hx).2⟩

/-- What is read of a script without NUL bytes is text. -/
lemma isText_reads {fuel off : Nat} {input : Str} (h : 0 ∉ input) :
    ∀ l ∈ reads readLine fuel off input, IsText l.2 := by
  induction fuel generalizing off input with
  | zero => simp [reads]
  | succ fuel ih =>
    by_cases hnil : input = []
    · subst hnil
      simp [reads, readLine]
    rw [reads, readLine_eq hnil]
    dsimp only
    intro l hl
    rcases List.mem_cons.mp hl with rfl | hl
    · intro c hc
      obtain ⟨hin, hne⟩ := readLoop_mem.1 c hc
      exact ⟨fun h0 => h (h0 ▸ hin), hne⟩
    · exact ih (fun h0 => h (readLoop_mem.2 0 h0)) l hl

/-- Lines without a command may be left out. -/
lemma accepted_filter (ls : List (Nat × Str)) :
    accepted (ls.filter fun l => l.2 ≠ []) = accepted ls := by
  induction ls with
  | nil => rfl
  | cons l ls ih =>
    rw [List.filter_cons]
    split
    · rw [accepted, accepted, ih]
    · next hl =>
      have hnil : l.2 = [] := by simpa using hl
      have hc : command l.2 = [] := by
        rw [hnil]
        exact words_nil
      rw [accepted, if_pos hc, ih]

/-- The labels do not matter to what is accepted. -/
lemma accepted_map (f : Nat → Nat) (ls : List (Nat × Str)) :
    accepted (ls.map fun l => (f l.1, l.2)) =
      (accepted ls).map fun ls => ls.map fun l => (f l.1, l.2) := by
  induction ls with
  | nil => rfl
  | cons l ls ih =>
    rw [List.map_cons, accepted, accepted]
    dsimp only
    split
    · exact ih
    · split
      · rfl
      · split
        · rfl
        · rw [ih]
          cases accepted ls <;> rfl

end FogOS.Shell
