import FogOS.Shell.Record

/-!
# Room for tokens, and the end of the input

A line of 255 bytes can have 128 words, and then the null pointer behind the tokens has no room. At the
end of a script the main loop is left; standard input that has ended gives empty lines for ever.
-/

namespace FogOS.Shell

open Kernel

/-! ### The number of words -/

/-- Words of single bytes, with single blanks between them. -/
def alternates : Str → Bool
  | [] => false
  | [c] => !isBlank c
  | c :: d :: text => !isBlank c && isBlank d && alternates text

/-- A word and a blank take two bytes at least. -/
lemma length_words_le (text : Str) : 2 * (words text).length ≤ text.length + 1 := by
  induction hn : text.length using Nat.strong_induction_on generalizing text with
  | _ n ih =>
    subst hn
    rcases blank_or_word text with hblank | ⟨b, w, t, rfl, hb, hne, hw, ht⟩
    · rw [words_blank hblank]
      exact Nat.zero_le _
    have hpos : 0 < w.length := List.length_pos_of_ne_nil hne
    rw [words_of_word hb hne hw ht, List.length_cons]
    rcases ht with rfl | ⟨c, t, rfl, hc⟩
    · rw [words_nil]
      simp only [List.length_append, List.length_nil]
      omega
    · have hlt : t.length < (b ++ (w ++ c :: t)).length := by
        simp only [List.length_append, List.length_cons]
        omega
      have hle := ih _ hlt t rfl
      rw [words_blank_cons hc]
      simp only [List.length_append, List.length_cons] at hle ⊢
      omega

/-- The lines with the most words. -/
lemma length_words_eq {text : Str} : 2 * (words text).length = text.length + 1 ↔ alternates text = true := by
  constructor
  · intro h
    induction hn : text.length using Nat.strong_induction_on generalizing text with
    | _ n ih =>
      subst hn
      rcases blank_or_word text with hblank | ⟨b, w, t, rfl, hb, hne, hw, ht⟩
      · rw [words_blank hblank] at h
        exact absurd h (by simp)
      have hpos : 0 < w.length := List.length_pos_of_ne_nil hne
      rw [words_of_word hb hne hw ht, List.length_cons] at h
      have hle := length_words_le t
      -- neither blanks before the word nor a second byte in it
      have hshort : b = [] ∧ w.length = 1 := by
        rcases ht with rfl | ⟨c, t, rfl, hc⟩
        · rw [words_nil] at h
          simp only [List.length_append, List.length_nil] at h
          exact ⟨List.length_eq_zero_iff.mp (by omega), by omega⟩
        · rw [words_blank_cons hc] at h
          have hle' := length_words_le t
          simp only [List.length_append, List.length_cons] at h
          exact ⟨List.length_eq_zero_iff.mp (by omega), by omega⟩
      obtain ⟨rfl, hone⟩ := hshort
      obtain ⟨x, rfl⟩ := List.length_eq_one_iff.mp hone
      have hx := hw x (List.mem_singleton_self x)
      rcases ht with rfl | ⟨c, t, rfl, hc⟩
      · simp [alternates, hx]
      · rw [words_blank_cons hc] at h
        simp only [List.nil_append, List.length_append, List.length_cons, List.length_nil] at h
        have hrest := @ih t.length (by simp) t (by omega) rfl
        simp [alternates, hx, hc, hrest]
  · intro h
    induction text using alternates.induct with
    | case1 => cases h
    | case2 c =>
      have hc : isBlank c = false := by simpa [alternates] using h
      rw [words_word (by simpa using hc) (List.cons_ne_nil c [])]
      rfl
    | case3 c d text ih =>
      simp only [alternates, Bool.and_eq_true, Bool.not_eq_true'] at h
      obtain ⟨⟨hc, hd⟩, hrest⟩ := h
      have hwords : words (c :: d :: text) = [c] :: words text :=
        words_word_cons (w := [c]) (by simpa using hc) (List.cons_ne_nil c []) hd
      rw [hwords]
      simp only [List.length_cons]
      have := ih hrest
      omega

/-! ### Lines that are read -/

lemma getsLoop_mem {n : Nat} {input : Str} : ∀ c ∈ (getsLoop n input).1.dropLast, c ≠ 10 := by
  induction n generalizing input with
  | zero => simp [getsLoop]
  | succ n ih =>
    cases input with
    | nil => simp [getsLoop]
    | cons c input =>
      rw [getsLoop]
      split
      · simp
      · next hc =>
        have hrest := @ih input
        obtain ⟨hne, -⟩ := not_or.mp hc
        cases hbuf : (getsLoop n input).1 with
        | nil => simp [hbuf]
        | cons d buf =>
          rw [hbuf] at hrest
          simp only [hbuf, List.dropLast_cons_cons]
          rintro x hx
          rcases List.mem_cons.mp hx with rfl | hx
          · exact hne
          · exact hrest x hx

lemma getsLoop_le (n : Nat) (input : Str) : (getsLoop n input).1.length ≤ n := by
  induction n generalizing input with
  | zero => simp [getsLoop]
  | succ n ih =>
    cases input with
    | nil => simp [getsLoop]
    | cons c input =>
      rw [getsLoop]
      split
      · simp
      · have := ih input
        simp only [List.length_cons]
        omega

lemma readLoop_le (n : Nat) (input : Str) : (readLoop n input).1.length ≤ n := by
  induction n generalizing input with
  | zero => simp [readLoop]
  | succ n ih =>
    cases input with
    | nil => simp [readLoop]
    | cons c input =>
      rw [readLoop]
      split
      · simp
      · have := ih input
        simp only [List.length_cons]
        omega

/-- A line that is read has no newline, and fits into the buffer. -/
lemma Mode.read_line {mode : Mode} {input buf rest : Str} (h : mode.read input = some (buf, rest)) :
    10 ∉ buf ∧ buf.length ≤ 255 := by
  have hne : input ≠ [] := by
    rintro rfl
    rw [mode.reads_read.1] at h
    cases h
  cases mode with
  | script =>
    change readLine input = _ at h
    rw [readLine_eq hne] at h
    have hbuf : (readLoop 255 input).1 = buf := congrArg Prod.fst (Option.some.inj h)
    rw [← hbuf]
    exact ⟨fun h10 => (readLoop_mem.1 10 h10).2 rfl, readLoop_le 255 input⟩
  | console =>
    change getLine input = _ at h
    rw [getLine_eq hne] at h
    obtain ⟨p, hp⟩ : ∃ p, p = cstr (getsLoop 255 input).1 0 := ⟨_, rfl⟩
    rw [← hp] at h
    have hpre : ∃ q, (getsLoop 255 input).1 = p ++ q := by
      obtain ⟨q, hq, -, -⟩ := cstr_append_ends (getsLoop 255 input).1
      rw [← hp] at hq
      exact ⟨q, hq⟩
    obtain ⟨q, hq⟩ := hpre
    have hlen := getsLoop_le 255 input
    have hmem := @getsLoop_mem 255 input
    rw [hq] at hlen hmem
    rw [List.length_append] at hlen
    have hinit : ∀ c ∈ p.dropLast, c ≠ 10 := by
      intro c hc
      refine hmem c ?_
      cases q with
      | nil => rwa [List.append_nil]
      | cons d q =>
        rw [List.dropLast_append_of_ne_nil (List.cons_ne_nil d q)]
        exact List.mem_append_left _ (List.mem_of_mem_dropLast hc)
    obtain ⟨hbuf, -⟩ := Prod.mk.inj (Option.some.inj h)
    rw [← hbuf]
    split
    · exact ⟨fun h10 => hinit 10 h10 rfl, by rw [List.length_dropLast]; omega⟩
    · next hlast =>
      refine ⟨fun h10 => ?_, by omega⟩
      have hne' : p ≠ [] := List.ne_nil_of_mem h10
      rw [← List.dropLast_append_getLast hne', List.mem_append, List.mem_singleton] at h10
      rcases h10 with h10 | h10
      · exact hinit 10 h10 rfl
      · exact hlast (by rw [List.getLast?_eq_getLast_of_ne_nil hne', ← h10])

/-- The tokens of the line and the null pointer behind them have room. -/
lemma parseLine_ok_iff {line : Str} (h : 10 ∉ line) : (∃ r, parseLine line = .ok r) ↔ (lineWords line).length < 128 := by
  rw [parseLine_words h]
  constructor
  · rintro ⟨r, hr⟩
    split at hr
    · next hnil =>
      rw [hnil]
      decide
    split at hr
    · assumption
    · cases hr
  · intro hlt
    split
    · exact ⟨_, rfl⟩
    · exact ⟨_, rfl⟩

/-- A line of 255 bytes, with no comment and no NUL in it, that alternates. -/
def Overruns (line : Str) : Prop := line.length = 255 ∧ alternates line = true ∧ 0 ∉ line ∧ 35 ∉ line

instance (line : Str) : Decidable (Overruns line) := inferInstanceAs (Decidable (_ ∧ _ ∧ _ ∧ _))

lemma lineWords_eq {line : Str} (h0 : 0 ∉ line) (h35 : 35 ∉ line) : lineWords line = words line := by
  have hcut : cutComment line = line := by
    rw [cutComment, List.takeWhile_eq_self_iff]
    intro c hc
    have hne : c ≠ 35 := by
      rintro rfl
      exact h35 hc
    simpa using hne
  have hcstr : cstr (trimEnd line) 0 = trimEnd line := by
    rw [cstr, List.drop_zero, List.takeWhile_eq_self_iff]
    intro c hc
    have hin : c ∈ line := by
      rw [← trimEnd_append line]
      exact List.mem_append_left _ hc
    have hne : c ≠ 0 := by
      rintro rfl
      exact h0 hin
    simpa using hne
  rw [lineWords, lineText, hcut, hcstr, words_trimEnd]

/-- The string that is tokenized is a first part of the line. -/
lemma cstr_lineText_prefix (line : Str) : cstr (lineText line) 0 <+: line := by
  have h1 : cstr (lineText line) 0 <+: lineText line := by
    rw [cstr, List.drop_zero]
    exact List.takeWhile_prefix _
  have h2 : lineText line <+: cutComment line := ⟨_, trimEnd_append (cutComment line)⟩
  exact h1.trans (h2.trans (List.takeWhile_prefix _))

lemma overruns_iff {line : Str} (hlen : line.length ≤ 255) : Overruns line ↔ 128 ≤ (lineWords line).length := by
  constructor
  · rintro ⟨hfull, halt, h0, h35⟩
    rw [lineWords_eq h0 h35]
    have := length_words_eq.mpr halt
    omega
  · intro hlong
    have hle := length_words_le (cstr (lineText line) 0)
    have hpre := cstr_lineText_prefix line
    have hshort := hpre.length_le
    change 2 * (lineWords line).length ≤ _ at hle
    have hfull : cstr (lineText line) 0 = line := hpre.eq_of_length (by omega)
    have htext : lineText line = line := by
      have h1 : lineText line <+: cutComment line := ⟨_, trimEnd_append (cutComment line)⟩
      refine (h1.trans (List.takeWhile_prefix _)).eq_of_length ?_
      have h2 : (cstr (lineText line) 0).length ≤ (lineText line).length := by
        rw [cstr, List.drop_zero]
        exact (List.takeWhile_prefix _).length_le
      have h3 := (h1.trans (List.takeWhile_prefix _)).length_le
      rw [hfull] at h2
      omega
    have hne : ∀ c ∈ line, c ≠ 0 := by
      obtain ⟨-, -, -, hne⟩ := cstr_append_ends (lineText line)
      rwa [hfull] at hne
    have h35 : 35 ∉ line := by
      intro hin
      rw [← htext] at hin
      have hcut : (35 : UInt8) ∈ cutComment line := by
        rw [← trimEnd_append (cutComment line)]
        exact List.mem_append_left _ hin
      simpa using List.mem_takeWhile_imp hcut
    have hwords : lineWords line = words line := by rw [lineWords, hfull]
    refine ⟨by omega, length_words_eq.mp ?_, fun h0 => hne 0 h0 rfl, h35⟩
    rw [← hwords]
    rw [hfull] at hle
    omega

/-- The array of tokens is not overrun, but by a line of 255 bytes that alternates single bytes and
blanks. -/
theorem tokens_fit_iff {mode : Mode} {input buf rest : Str} (h : mode.read input = some (buf, rest)) :
    (∃ r, parseLine buf = .ok r) ↔ ¬ Overruns buf := by
  obtain ⟨hline, hlen⟩ := mode.read_line h
  rw [parseLine_ok_iff hline, overruns_iff hlen, not_le]

/-- `"a b"`. -/
theorem tokens_fit_two : ∃ r, parseLine [97, 32, 98] = .ok r :=
  (@tokens_fit_iff .script [97, 32, 98, 10] _ [] rfl).mpr (by decide)

/-- `"a a … a"`, with 128 words. -/
def longestLine : Str := (List.replicate 127 [97, 32]).flatten ++ [97]

theorem tokens_overrun : Mode.script.read (longestLine ++ [10]) = some (longestLine, [10]) ∧
    Mode.console.read (longestLine ++ [10]) = some (longestLine, [10]) ∧ parseLine longestLine = .error .wild := by
  have hlong : 128 ≤ (lineWords longestLine).length := (overruns_iff (by decide +kernel)).mp (by decide +kernel)
  have hne : lineWords longestLine ≠ [] := by
    intro hnil
    rw [hnil] at hlong
    cases hlong
  refine ⟨by decide +kernel, by decide +kernel, ?_⟩
  rw [parseLine_words (by decide), if_neg hne, if_neg (not_lt.mpr hlong)]

/-! ### The end of the input -/

/-- A line of standard input, which may have ended: then `gets` finds nothing to read. -/
def getLineEof (input : Str) : Str × Str :=
  let (buf, rest) := getsLoop 255 input
  let buf := cstr buf 0
  (if buf.getLast? = some 10 then buf.dropLast else buf, rest)

/-- How a line is read from an input that may have ended; `none` where the loop is left. -/
def Mode.readEof : Mode → Str → Option (Str × Str)
  | script, input => readLine input
  | console, input => some (getLineEof input)

lemma Mode.readEof_eq {mode : Mode} {input : Str} (h : input ≠ []) : mode.readEof input = mode.read input := by
  cases mode with
  | script => rfl
  | console => exact (getLine_eq h).symm

/-- The lines of the input that have a command, up to the first `exit`. -/
def commandsOf (lines : List Str) : List Str :=
  upTo (fun line => (lineWords line).head? = some exitWord) (lines.filter fun line => lineWords line ≠ [])

/-- The lines that are read until the input has ended. -/
def Mode.lines (mode : Mode) (input : Str) : List Str := (reads mode.read (input.length + 1) 0 input).map (·.2)

/-- The main loop is left after some number of rounds. -/
def Stops (mode : Mode) (s : State) (off : Nat) (input : Str) : Prop :=
  ∃ fuel r, mainLoop mode.readEof fuel s off input = .ok r

section Stops

variable {mode : Mode} {s s' : State} {off : Nat} {input buf rest : Str} {tokens : List Str}

lemma stops_skip (hr : mode.readEof input = some (buf, rest)) (hone : oneLine s buf = .ok (s', none)) :
    Stops mode s off input ↔ Stops mode s' (off + (input.length - rest.length)) rest := by
  constructor
  · rintro ⟨fuel, r, h⟩
    cases fuel with
    | zero => cases h
    | succ fuel =>
      rw [mainLoop_skip hr hone] at h
      exact ⟨fuel, r, h⟩
  · rintro ⟨fuel, r, h⟩
    exact ⟨fuel + 1, r, by rw [mainLoop_skip hr hone, h]⟩

lemma stops_run (hr : mode.readEof input = some (buf, rest)) (hone : oneLine s buf = .ok (s', some tokens))
    (hexit : tokens.head? ≠ some exitWord) :
    Stops mode s off input ↔ Stops mode s' (off + (input.length - rest.length)) rest := by
  constructor
  · rintro ⟨fuel, r, h⟩
    cases fuel with
    | zero => cases h
    | succ fuel =>
      rw [mainLoop_run hr hone hexit] at h
      cases hrest : mainLoop mode.readEof fuel s' (off + (input.length - rest.length)) rest with
      | error e =>
        rw [hrest] at h
        cases h
      | ok r' => exact ⟨fuel, r', hrest⟩
  · rintro ⟨fuel, r, h⟩
    exact ⟨fuel + 1, _, by rw [mainLoop_run hr hone hexit, h]; rfl⟩

lemma stops_exit (hr : mode.readEof input = some (buf, rest)) (hone : oneLine s buf = .ok (s', some tokens))
    (hexit : tokens.head? = some exitWord) : Stops mode s off input :=
  ⟨1, _, mainLoop_exit hr hone hexit⟩

lemma not_stops {e : Stop} (hr : mode.readEof input = some (buf, rest)) (hone : oneLine s buf = .error e) :
    ¬ Stops mode s off input := by
  rintro ⟨fuel, r, h⟩
  cases fuel with
  | zero => cases h
  | succ fuel =>
    rw [mainLoop_error hr hone] at h
    cases h

/-- At the end of a script the loop is left; at the end of standard input it goes round for ever. -/
lemma stops_nil : Stops mode s off [] ↔ mode = .script := by
  cases mode with
  | script => exact ⟨fun _ => rfl, fun _ => ⟨1, _, mainLoop_none rfl⟩⟩
  | console =>
    refine ⟨?_, fun h => by cases h⟩
    rintro ⟨fuel, r, h⟩
    induction fuel generalizing off with
    | zero => cases h
    | succ fuel ih =>
      have hr : Mode.console.readEof [] = some ([], []) := rfl
      have hone : oneLine s [] = .ok (s, none) := rfl
      rw [mainLoop_skip hr hone] at h
      exact ih h

/-- After `2 ^ 31 - 1` commands the number of the next one is out of range. -/
lemma record_full {cmds : List Str} (hs : s.Holds cmds) (hlen : cmds.length + 1 = 2 ^ 31) (cmd : Str) :
    s.record cmd = .error .wild := by
  have hnum : s.cmdNum = -2 ^ 31 := by
    rw [hs.num]
    have : (cmds.length : Int) + 1 = 2 ^ 31 := by exact_mod_cast hlen
    rw [this]
    decide
  rw [State.record, State.addToHistory, hnum, if_pos (by decide)]
  rfl

lemma oneLine_words (h : 10 ∉ buf) : oneLine s buf =
    if lineWords buf = [] then .ok (s, none)
    else if (lineWords buf).length < 128 then
      (s.record (upToFirstWord (cstr (lineText buf) 0))).map fun s => (s, some (lineWords buf))
    else .error .wild := by
  rw [oneLine, parseLine_words h]
  split
  · rfl
  split
  · rw [ok_bind]
    dsimp only
    cases s.record (upToFirstWord (cstr (lineText buf) 0)) <;> rfl
  · rfl

/-- The loop over the lines that are read. -/
lemma stops_iff {cmds : List Str} {fuel : Nat} (hs : s.Holds cmds) (hcmds : cmds.length < 2 ^ 31)
    (hfuel : input.length < fuel) :
    Stops mode s off input ↔
      (∀ line ∈ commandsOf ((reads mode.read fuel off input).map (·.2)), (lineWords line).length < 128) ∧
        cmds.length + (commandsOf ((reads mode.read fuel off input).map (·.2))).length < 2 ^ 31 ∧
        (mode = .script ∨ ∃ line ∈ commandsOf ((reads mode.read fuel off input).map (·.2)),
          (lineWords line).head? = some exitWord) := by
  induction fuel generalizing s cmds off input with
  | zero => omega
  | succ fuel ih =>
    rw [reads]
    by_cases hnil : input = []
    · subst hnil
      rw [mode.reads_read.1, stops_nil]
      refine ⟨fun h => ⟨by simp [commandsOf, upTo], hcmds, .inl h⟩, ?_⟩
      rintro ⟨-, -, h | ⟨line, hin, -⟩⟩
      · exact h
      · cases hin
    obtain ⟨buf, rest, hr, hlt⟩ := mode.reads_read.2 input hnil
    obtain ⟨hline, -⟩ := mode.read_line hr
    have hrEof : mode.readEof input = some (buf, rest) := by rw [mode.readEof_eq hnil, hr]
    have hone := oneLine_words (s := s) hline
    rw [hr]
    simp only [List.map_cons]
    obtain ⟨lines, hlines⟩ : ∃ lines,
        lines = (reads mode.read fuel (off + (input.length - rest.length)) rest).map (·.2) := ⟨_, rfl⟩
    rw [← hlines]
    by_cases hc : lineWords buf = []
    · rw [if_pos hc] at hone
      have hskip : commandsOf (buf :: lines) = commandsOf lines := by
        rw [commandsOf, List.filter_cons, if_neg (by simpa using hc), commandsOf]
      rw [hskip, stops_skip hrEof hone, hlines]
      exact ih hs hcmds (by omega)
    rw [if_neg hc] at hone
    have hcommands : commandsOf (buf :: lines) =
        if (lineWords buf).head? = some exitWord then [buf] else buf :: commandsOf lines := by
      rw [commandsOf, List.filter_cons, if_pos (by simpa using hc), upTo]
      rfl
    have hin : buf ∈ commandsOf (buf :: lines) := by
      rw [hcommands]
      split <;> exact List.mem_cons_self
    by_cases hlong : (lineWords buf).length < 128
    · rw [if_pos hlong] at hone
      by_cases hfull : cmds.length + 1 = 2 ^ 31
      · rw [record_full hs hfull] at hone
        refine iff_of_false (not_stops hrEof hone) ?_
        rintro ⟨-, hcount, -⟩
        have hpos := List.length_pos_of_mem hin
        omega
      obtain ⟨s', hrec, hs'⟩ := hs.record (by omega) (upToFirstWord (cstr (lineText buf) 0))
      rw [hrec] at hone
      by_cases hexit : (lineWords buf).head? = some exitWord
      · rw [hcommands, if_pos hexit]
        refine iff_of_true (stops_exit hrEof hone hexit) ⟨?_, ?_, .inr ⟨buf, List.mem_cons_self, hexit⟩⟩
        · intro line hin'
          rw [List.mem_singleton.mp hin']
          exact hlong
        · rw [List.length_singleton]
          omega
      · rw [hcommands, if_neg hexit, stops_run hrEof hone hexit, ih hs' (by simp; omega) (by omega), ← hlines]
        simp only [List.length_append, List.length_cons, List.length_nil, List.forall_mem_cons,
          List.exists_mem_cons_iff, hexit, hlong, true_and, false_or]
        rw [show cmds.length + (0 + 1) + (commandsOf lines).length = cmds.length + ((commandsOf lines).length + 1) by omega]
    · rw [if_neg hlong] at hone
      exact iff_of_false (not_stops hrEof hone) fun h => hlong (h.1 buf hin)

end Stops

/-- The main loop is left if and only if the input is a script, or a line from standard input is `exit`; up
to there no line may have 128 words, and there may be no more than `2 ^ 31 - 1` commands. -/
theorem main_loop_stops_iff (mode : Mode) (input : Str) :
    Stops mode .initial 0 input ↔
      (∀ line ∈ commandsOf (mode.lines input), (lineWords line).length < 128) ∧
        (commandsOf (mode.lines input)).length < 2 ^ 31 ∧
        (mode = .script ∨ ∃ line ∈ commandsOf (mode.lines input), (lineWords line).head? = some exitWord) := by
  have h := @stops_iff mode _ 0 input _ _ State.holds_initial (by decide) (Nat.lt_succ_self input.length)
  rwa [List.length_nil, Nat.zero_add] at h

/-- Standard input that has ended is read for ever. -/
theorem main_loop_runs_on : ¬ Stops .console .initial 0 [] := by
  rw [stops_nil]
  rintro ⟨⟩

end FogOS.Shell
