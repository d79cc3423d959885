import FogOS.Shell.Lines

/-!
# What the history records

The line is tokenized in place before it is stored, so the history gets it up to the end of its
first word. Of a line that does not fit into the buffer every piece is taken for a line.
-/

namespace FogOS.Shell

open Kernel

/-- Where the lines come from. -/
inductive Mode
  | script
  | console

/-- How a line is read. -/
def Mode.read : Mode → Str → Option (Str × Str)
  | script => readLine
  | console => getLine

/-- The lines as input: those of a script stand between newlines, and those typed at the console
end in one. -/
def Mode.input : Mode → List Str → Str
  | script, lines => [10].intercalate lines
  | console, lines => (lines.map (· ++ [10])).flatten

/-- A line has no NUL byte, and one from the console no carriage return. -/
structure Mode.IsLine (mode : Mode) (line : Str) : Prop where
  text : IsText line
  cr : mode = .console → 13 ∉ line

/-! ### The lines that are read -/

/-- What is read, empty lines apart. -/
def readTexts (mode : Mode) (fuel off : Nat) (input : Str) : List Str :=
  ((reads mode.read fuel off input).filter fun l => l.2 ≠ []).map (·.2)

/-- The lines that are read, empty ones apart, are the pieces of the lines of the input. -/
def ReadsLines (mode : Mode) (lines : List Str) : Prop :=
  ∀ fuel off, (mode.input lines).length < fuel →
    readTexts mode fuel off (mode.input lines) = lines.flatMap pieces

lemma readTexts_nil (mode : Mode) (fuel off : Nat) : readTexts mode fuel off [] = [] := by
  cases fuel with
  | zero => rfl
  | succ fuel => cases mode <;> rfl

lemma readTexts_cons {mode : Mode} {fuel off : Nat} {input line rest : Str}
    (h : mode.read input = some (line, rest)) : readTexts mode (fuel + 1) off input =
      [line].filter (· ≠ []) ++
        readTexts mode fuel (off + (input.length - rest.length)) rest := by
  rw [readTexts, reads, h, List.filter_cons, readTexts]
  by_cases hnil : line = [] <;> simp [hnil]

lemma getsLoop_line (n : Nat) {line t : Str} (hline : ∀ c ∈ line, c ≠ 10 ∧ c ≠ 13) :
    getsLoop n (line ++ 10 :: t) = if line.length < n then (line ++ [10], t)
      else (line.take n, line.drop n ++ 10 :: t) := by
  induction n generalizing line with
  | zero => simp [getsLoop]
  | succ n ih =>
    cases line with
    | nil => simp [getsLoop]
    | cons c line =>
      have hc := hline c List.mem_cons_self
      rw [List.cons_append, getsLoop, if_neg (not_or.mpr hc),
        ih fun x hx => hline x (List.mem_cons_of_mem c hx)]
      simp only [List.length_cons, Nat.add_lt_add_iff_right]
      split <;> rfl

lemma getsLoop_length (n : Nat) (input : Str) : (getsLoop n input).2.length ≤ input.length := by
  induction n generalizing input with
  | zero => simp [getsLoop]
  | succ n ih =>
    cases input with
    | nil => simp [getsLoop]
    | cons c input =>
      rw [getsLoop]
      split
      · simp
      · exact (ih input).trans (Nat.le_succ _)

lemma reads_getLine : Reads getLine := by
  refine ⟨rfl, fun input hne => ?_⟩
  obtain ⟨c, input, rfl⟩ := List.exists_cons_of_ne_nil hne
  refine ⟨_, _, rfl, ?_⟩
  show (getsLoop (254 + 1) (c :: input)).2.length < _
  rw [getsLoop]
  split
  · simp
  · exact Nat.lt_succ_of_le (getsLoop_length 254 input)

lemma Mode.reads_read (mode : Mode) : Reads mode.read := by
  cases mode with
  | script => exact reads_readLine
  | console => exact reads_getLine

lemma getLine_cons (c : UInt8) (input : Str) : getLine (c :: input) =
    some (if (cstr (getsLoop 255 (c :: input)).1 0).getLast? = some 10 then
      (cstr (getsLoop 255 (c :: input)).1 0).dropLast else cstr (getsLoop 255 (c :: input)).1 0,
      (getsLoop 255 (c :: input)).2) := rfl

lemma getLine_eq {input : Str} (h : input ≠ []) : getLine input =
    some (if (cstr (getsLoop 255 input).1 0).getLast? = some 10 then
      (cstr (getsLoop 255 input).1 0).dropLast else cstr (getsLoop 255 input).1 0,
      (getsLoop 255 input).2) := by
  obtain ⟨c, input, rfl⟩ := List.exists_cons_of_ne_nil h
  exact getLine_cons c input

section Console

variable {line t : Str}

lemma Mode.IsLine.not_newline {mode : Mode} (h : mode.IsLine line) : 10 ∉ line :=
  fun hin => (h.text 10 hin).2 rfl

lemma Mode.IsLine.stops (h : Mode.console.IsLine line) : ∀ c ∈ line, c ≠ 10 ∧ c ≠ 13 :=
  fun c hc => ⟨(h.text c hc).2, fun he => h.cr rfl (he ▸ hc)⟩

/-- A line of less than 255 bytes is read with its newline. -/
lemma getLine_short (h : Mode.console.IsLine line) (hlen : line.length < 255) :
    getLine (line ++ 10 :: t) = some (line, t) := by
  have hbuf : cstr (line ++ [10]) 0 = line ++ [10] := by
    refine @cstr_end [] _ fun c hc => ?_
    rcases List.mem_append.mp hc with hc | hc
    · exact (h.text c hc).1
    · rw [List.mem_singleton.mp hc]
      decide
  rw [getLine_eq (by simp), getsLoop_line 255 h.stops, if_pos hlen]
  dsimp only
  rw [hbuf]
  simp

/-- Of a longer line 255 bytes are read, and the rest is left for the next round. -/
lemma getLine_full (h : Mode.console.IsLine line) (hlen : 255 ≤ line.length) :
    getLine (line ++ 10 :: t) = some (line.take 255, line.drop 255 ++ 10 :: t) := by
  have hbuf : cstr (line.take 255) 0 = line.take 255 :=
    @cstr_end [] _ fun c hc => (h.text c (List.mem_of_mem_take hc)).1
  have hlast : ¬ (line.take 255).getLast? = some 10 := fun he =>
    h.not_newline (List.mem_of_mem_take (List.mem_of_getLast? he))
  rw [getLine_eq (by simp), getsLoop_line 255 h.stops, if_neg (not_lt.mpr hlen)]
  dsimp only
  rw [hbuf, if_neg hlast]

lemma Mode.IsLine.drop {mode : Mode} (h : mode.IsLine line) (n : Nat) :
    mode.IsLine (line.drop n) :=
  ⟨fun c hc => h.text c (List.mem_of_mem_drop hc),
    fun hm hin => h.cr hm (List.mem_of_mem_drop hin)⟩

lemma Mode.isLine_nil (mode : Mode) : mode.IsLine [] := ⟨by simp [IsText], by simp⟩

/-- The pieces of a line are read, and then what is behind it. -/
lemma readTexts_line {texts : List Str} (h : Mode.console.IsLine line)
    (ht : ∀ fuel off, t.length < fuel → readTexts .console fuel off t = texts) :
    ∀ fuel off, (line ++ 10 :: t).length < fuel →
      readTexts .console fuel off (line ++ 10 :: t) = pieces line ++ texts := by
  induction line using pieces.induct with
  | case1 =>
    intro fuel off hfuel
    have hread : Mode.console.read ([] ++ 10 :: t) = some ([], t) :=
      getLine_short (Mode.isLine_nil _) (by simp)
    rw [List.nil_append] at hread hfuel ⊢
    obtain ⟨fuel, rfl⟩ : ∃ f, fuel = f + 1 := ⟨fuel - 1, by omega⟩
    rw [List.length_cons] at hfuel
    rw [readTexts_cons hread, ht _ _ (by omega), pieces_nil]
    rfl
  | case2 line hne ih =>
    intro fuel off hfuel
    obtain ⟨fuel, rfl⟩ : ∃ f, fuel = f + 1 := ⟨fuel - 1, by omega⟩
    simp only [List.length_append, List.length_cons] at hfuel
    by_cases hlen : line.length < 255
    · have hread : Mode.console.read (line ++ 10 :: t) = some (line, t) := getLine_short h hlen
      rw [readTexts_cons hread, ht _ _ (by omega), pieces_short hne hlen.le]
      simp [hne]
    · have hread : Mode.console.read (line ++ 10 :: t) = _ := getLine_full h (not_lt.mp hlen)
      have hrest := ih (h.drop 255) fuel (off + ((line ++ 10 :: t).length -
        (line.drop 255 ++ 10 :: t).length)) (by
          simp only [List.length_append, List.length_cons, List.length_drop]
          omega)
      rw [readTexts_cons hread, hrest, pieces_of_ne_nil hne]
      simp [hne]

end Console

lemma readsLines_console {lines : List Str} (h : ∀ line ∈ lines, Mode.console.IsLine line) :
    ReadsLines .console lines := by
  induction lines with
  | nil => exact fun fuel off _ => readTexts_nil _ fuel off
  | cons line lines ih =>
    have hinput : Mode.console.input (line :: lines) =
        line ++ 10 :: Mode.console.input lines := by
      simp [Mode.input]
    unfold ReadsLines
    rw [hinput, List.flatMap_cons]
    exact readTexts_line (h line List.mem_cons_self)
      (ih fun l hl => h l (List.mem_cons_of_mem line hl))

lemma map_linePieces (lines : List (Str × Nat)) :
    (linePieces lines).map (·.2) = (lines.map (·.1)).flatMap pieces := by
  induction lines with
  | nil => rfl
  | cons l lines ih =>
    rw [linePieces_cons, List.map_append, ih, List.map_cons, List.flatMap_cons, List.map_map]
    simp

lemma readsLines_script {lines : List Str} (h : ∀ line ∈ lines, Mode.script.IsLine line) :
    ReadsLines .script lines := by
  intro fuel off hfuel
  have hreads := reads_script (List.replicate off 0) hfuel
  rw [List.length_replicate] at hreads
  have hsnd := congrArg (List.map (·.2)) hreads
  rw [List.map_map] at hsnd
  refine hsnd.trans ?_
  by_cases hnil : lines = []
  · subst hnil
    simp [Mode.input, List.splitOn, linePieces, pieces_nil]
  · have hsplit : (Mode.script.input lines).splitOn 10 = lines :=
      List.splitOn_intercalate 10 (fun l hl => (h l hl).not_newline) hnil
    rw [hsplit, map_linePieces, List.zipIdx_map_fst]

lemma readsLines {mode : Mode} {lines : List Str} (h : ∀ line ∈ lines, mode.IsLine line) :
    ReadsLines mode lines := by
  cases mode with
  | script => exact readsLines_script h
  | console => exact readsLines_console h

/-! ### What is recorded -/

/-- The lines with a command, up to the first `exit`. -/
def commandLines (lines : List Str) : List Str :=
  (upTo IsExit lines).filter fun line => command line ≠ []

lemma commandLines_cons (line : Str) (lines : List Str) : commandLines (line :: lines) =
    if command line = [] then commandLines lines
    else if IsExit line then [line] else line :: commandLines lines := by
  have hnil : command line = [] → ¬ IsExit line := by
    intro hc he
    rw [IsExit, hc] at he
    cases he
  rw [commandLines, upTo]
  by_cases hc : command line = []
  · rw [if_neg (hnil hc), if_pos hc, List.filter_cons, if_neg (by simpa using hc)]
    rfl
  · rw [if_neg hc]
    split
    · simp [hc]
    · rw [List.filter_cons, if_pos (by simpa using hc)]
      rfl

lemma command_nil : command [] = [] := words_nil

lemma commandLines_filter (lines : List Str) :
    commandLines (lines.filter (· ≠ [])) = commandLines lines := by
  induction lines with
  | nil => rfl
  | cons line lines ih =>
    rw [List.filter_cons]
    by_cases hnil : line = []
    · subst hnil
      rw [if_neg (by simp), commandLines_cons, if_pos command_nil, ih]
    · rw [if_pos (by simpa using hnil), commandLines_cons, commandLines_cons, ih]

lemma commandCount_filter (lines : List Str) :
    commandCount (lines.filter (· ≠ [])) = commandCount lines := by
  induction lines with
  | nil => rfl
  | cons line lines ih =>
    rw [List.filter_cons]
    by_cases hnil : line = []
    · subst hnil
      rw [if_neg (by simp), commandCount_cons, if_pos command_nil, ih, Nat.add_zero]
    · rw [if_pos (by simpa using hnil), commandCount_cons, commandCount_cons, ih]

/-- The shell accepts the lines with a command, as long as none has too many words. -/
lemma accepted_lines (ls : List (Nat × Str)) :
    match accepted ls with
    | none => ∃ line ∈ commandLines (ls.map (·.2)), 128 ≤ (command line).length
    | some items => items.map (·.2) = commandLines (ls.map (·.2)) := by
  induction ls with
  | nil => rfl
  | cons l ls ih =>
    rw [accepted, List.map_cons, commandLines_cons]
    by_cases hc : command l.2 = []
    · rw [if_pos hc, if_pos hc]
      exact ih
    rw [if_neg hc, if_neg hc]
    by_cases hlen : 128 ≤ (command l.2).length
    · rw [if_pos hlen]
      refine ⟨l.2, ?_, hlen⟩
      split
      · exact List.mem_singleton_self _
      · exact List.mem_cons_self
    rw [if_neg hlen]
    by_cases hexit : IsExit l.2
    · rw [if_pos hexit, if_pos hexit]
      rfl
    rw [if_neg hexit, if_neg hexit]
    cases hacc : accepted ls with
    | none =>
      rw [hacc] at ih
      obtain ⟨line, hline, hle⟩ := ih
      exact ⟨line, List.mem_cons_of_mem _ hline, hle⟩
    | some items =>
      rw [hacc] at ih
      exact congrArg (l.2 :: ·) ih

/-- The shell reads the lines. -/
def Mode.run (mode : Mode) (lines : List Str) : Except Stop (State × List (Nat × List Str)) :=
  mainLoop mode.read ((mode.input lines).length + 1) .initial 0 (mode.input lines)

/-- After the lines there are as many numbers as lines with a command, and the last of them leads to
the full text of the last such line. -/
def Recorded (mode : Mode) (lines : List Str) : Prop :=
  ∃ s cmds, mode.run lines = .ok (s, cmds) ∧ s.historyCount = (commandLines lines).length ∧
    s.getHistoryByNum (commandLines lines).length = (commandLines lines).getLast?.map lineText

/-- The pieces of lines are text. -/
lemma isText_pieces {line p : Str} (h : IsText line) (hp : p ∈ pieces line) : IsText p := by
  intro c hc
  refine h c ?_
  rw [← pieces_flatten line]
  exact List.mem_flatten.mpr ⟨p, hp, hc⟩

/-- What a run stores for each piece with a command is the beginning of it. -/
lemma run_lines {mode : Mode} {lines : List Str} (h : ∀ line ∈ lines, mode.IsLine line)
    (hlen : commandCount (lines.flatMap pieces) < 2 ^ 31) :
    (∃ s cmds, mode.run lines = .ok (s, cmds) ∧
      s.Holds ((commandLines (lines.flatMap pieces)).map stored)) ∨
      (mode.run lines = .error .wild ∧
        ∃ p ∈ commandLines (lines.flatMap pieces), 128 ≤ (command p).length) := by
  have hreads := readsLines h _ 0 (Nat.lt_succ_self _)
  unfold readTexts at hreads
  have htext : ∀ l ∈ reads mode.read ((mode.input lines).length + 1) 0 (mode.input lines),
      IsText l.2 := by
    intro l hl
    by_cases hnil : l.2 = []
    · rw [hnil]
      simp [IsText]
    · have hin : l.2 ∈ lines.flatMap pieces := by
        rw [← hreads]
        exact List.mem_map_of_mem (List.mem_filter.mpr ⟨hl, by simpa using hnil⟩)
      obtain ⟨line, hline, hp⟩ := List.mem_flatMap.mp hin
      exact isText_pieces (h line hline).text hp
  have hmap : ((reads mode.read ((mode.input lines).length + 1) 0 (mode.input lines)).map
      (·.2)).filter (· ≠ []) = lines.flatMap pieces := by
    rw [← hreads, List.filter_map]
    rfl
  have hcount : ([] : List Str).length + commandCount
      ((reads mode.read ((mode.input lines).length + 1) 0 (mode.input lines)).map (·.2)) <
        2 ^ 31 := by
    rw [List.length_nil, Nat.zero_add, ← commandCount_filter, hmap]
    exact hlen
  have hloop := mainLoop_eq mode.reads_read State.holds_initial (Nat.lt_succ_self _) hcount htext
  have hacc := accepted_lines
    (reads mode.read ((mode.input lines).length + 1) 0 (mode.input lines))
  rw [← commandLines_filter, hmap] at hacc
  cases hitems : accepted (reads mode.read ((mode.input lines).length + 1) 0 (mode.input lines)) with
  | none =>
    rw [hitems] at hloop hacc
    exact Or.inr ⟨hloop, hacc⟩
  | some items =>
    rw [hitems] at hloop hacc
    obtain ⟨s, hs, hholds⟩ := hloop
    refine Or.inl ⟨s, _, hs, ?_⟩
    have hmap : items.map (stored ·.2) = (commandLines (lines.flatMap pieces)).map stored := by
      rw [← show items.map (·.2) = _ from hacc, List.map_map]
      rfl
    rwa [List.nil_append, hmap] at hholds

/-- The history gets the full text of a command exactly when it is a single word. -/
lemma stored_eq_iff {line : Str} (hc : command line ≠ []) :
    stored line = lineText line ↔ (command line).length = 1 := by
  have hwords : words (lineText line) = command line := words_trimEnd _
  rw [← hwords] at hc ⊢
  rcases blank_or_word (lineText line) with hblank | ⟨b, w, t, htext, hb, hne, hw, ht⟩
  · exact absurd (words_blank hblank) hc
  · rw [stored, htext, upToFirstWord_word hb hne hw ht, words_of_word hb hne hw ht,
      List.length_cons]
    constructor
    · intro heq
      obtain rfl : t = [] := by simpa using heq
      rw [words_nil]
      rfl
    · intro hlen
      have hnil : words t = [] := List.length_eq_zero_iff.mp (by omega)
      rcases ht with rfl | ⟨c, t, rfl, hcb⟩
      · rw [List.append_nil]
      · -- the trimmed text does not end in a blank
        have hne' : lineText line ≠ [] := by
          rw [htext]
          simp
        have hlast := List.rdropWhile_last_not isBlank (cutComment line) hne'
        have hend : (lineText line).getLast hne' ∈ c :: t := by
          simp only [htext]
          rw [List.getLast_append_of_ne_nil _ (by simp), List.getLast_append_of_ne_nil _ (by simp)]
          exact List.getLast_mem _
        exact absurd (words_eq_nil_iff.mp hnil _ hend) hlast

/-! ### Lines and their pieces -/

lemma commandLines_singleton (line : Str) :
    commandLines [line] = if command line = [] then [] else [line] := by
  rw [commandLines_cons]
  split
  · rfl
  · split <;> rfl

/-- After an `exit` nothing is accepted. -/
lemma commandLines_append_exit {a : List Str} (b : List Str) (h : ∃ line ∈ a, IsExit line) :
    commandLines (a ++ b) = commandLines a := by
  induction a with
  | nil => simp at h
  | cons line a ih =>
    rw [List.cons_append, commandLines_cons, commandLines_cons]
    by_cases hexit : IsExit line
    · have hc : command line ≠ [] := by
        intro hnil
        rw [IsExit, hnil] at hexit
        cases hexit
      rw [if_neg hc, if_neg hc, if_pos hexit, if_pos hexit]
    · rw [ih (by simpa [hexit] using h)]

lemma commandLines_append {a : List Str} (b : List Str) (h : ∀ line ∈ a, ¬ IsExit line) :
    commandLines (a ++ b) = commandLines a ++ commandLines b := by
  induction a with
  | nil => rfl
  | cons line a ih =>
    rw [List.cons_append, commandLines_cons, commandLines_cons, if_neg (h line List.mem_cons_self),
      if_neg (h line List.mem_cons_self), ih fun l hl => h l (List.mem_cons_of_mem line hl)]
    split <;> rfl

lemma commandLines_eq_nil {ps : List Str} (h : ∀ p ∈ ps, command p = []) : commandLines ps = [] := by
  induction ps with
  | nil => rfl
  | cons p ps ih =>
    rw [commandLines_cons, if_pos (h p List.mem_cons_self)]
    exact ih fun q hq => h q (List.mem_cons_of_mem p hq)

/-- Where the first piece with a command stands. -/
lemma commandLines_first {pre post : List Str} {p : Str} (hpre : ∀ q ∈ pre, command q = [])
    (hp : command p ≠ []) : commandLines (pre ++ p :: post) =
      if IsExit p then [p] else p :: commandLines post := by
  have hnot : ∀ q ∈ pre, ¬ IsExit q := by
    intro q hq hexit
    rw [IsExit, hpre q hq] at hexit
    cases hexit
  rw [commandLines_append _ hnot, commandLines_eq_nil hpre, List.nil_append, commandLines_cons,
    if_neg hp]

/-- Trailing blanks only are trimmed. -/
lemma trimEnd_append_of_last {a : Str} (h : ∀ ha : a ≠ [], isBlank (a.getLast ha) = false) (b : Str) :
    ∃ rest, trimEnd (a ++ b) = a ++ rest := by
  induction b using List.reverseRecOn with
  | nil =>
    refine ⟨[], ?_⟩
    rw [List.append_nil]
    refine List.rdropWhile_eq_self_iff.mpr fun ha => ?_
    simp [h ha]
  | append_singleton b c ih =>
    rw [← List.append_assoc, trimEnd, List.rdropWhile_concat]
    split
    · exact ih
    · exact ⟨b ++ [c], List.append_assoc a b [c]⟩

lemma trimEnd_append_blank (a : Str) {b : Str} (h : Blank b) : trimEnd (a ++ b) = trimEnd a := by
  induction b using List.reverseRecOn with
  | nil => rw [List.append_nil]
  | append_singleton b c ih =>
    rw [← List.append_assoc, trimEnd, List.rdropWhile_concat,
      if_pos (h c (List.mem_append_right b (List.mem_singleton_self c)))]
    exact ih fun x hx => h x (List.mem_append_left [c] hx)

lemma words_lineText (line : Str) : words (lineText line) = command line := words_trimEnd _

/-- The text of a line goes on behind what is stored for its first piece with a command. -/
lemma lineText_append {a p : Str} (ha : Blank a) (hp : command p ≠ []) (b : Str) :
    ∃ rest, lineText (a ++ (p ++ b)) = a ++ (stored p ++ rest) := by
  rcases blank_or_word (lineText p) with hblank | ⟨x, w, t, htext, hx, hne, hw, ht⟩
  · exact absurd ((words_lineText p).symm.trans (words_blank hblank)) hp
  · have hstored : stored p = x ++ w := by
      rw [stored, htext, upToFirstWord_word hx hne hw ht]
    obtain ⟨y, hy⟩ : ∃ y, cutComment (p ++ b) = stored p ++ y := by
      have hcut : cutComment p = stored p ++ (t ++ (cutComment p).rtakeWhile isBlank) := by
        have hsplit := trimEnd_append (cutComment p)
        change lineText p ++ _ = _ at hsplit
        rw [htext] at hsplit
        rw [hstored]
        refine hsplit.symm.trans ?_
        simp only [List.append_assoc]
      by_cases hhash : 35 ∈ p
      · exact ⟨_, (cutComment_append_of_mem hhash b).trans hcut⟩
      · have hp := (cutComment_eq hhash).symm.trans hcut
        rw [cutComment_append hhash]
        exact ⟨_, (congrArg (· ++ cutComment b) hp).trans (List.append_assoc _ _ _)⟩
    rw [lineText, cutComment_append ha.hash, hy, ← List.append_assoc]
    have hlast : ∀ hw' : a ++ stored p ≠ [], isBlank ((a ++ stored p).getLast hw') = false := by
      intro hw'
      have hlast : (a ++ stored p).getLast hw' = w.getLast hne := by
        simp only [hstored]
        rw [List.getLast_append_of_ne_nil _ (by simp [hne]), List.getLast_append_of_ne_nil _ hne]
      rw [hlast]
      exact hw _ (List.getLast_mem hne)
    obtain ⟨rest, hrest⟩ := trimEnd_append_of_last hlast y
    exact ⟨rest, by rw [hrest, List.append_assoc]⟩

lemma cutComment_comment (line : Str) (n : Nat) :
    cutComment ((line.dropWhile (· ≠ 35)).take n) = [] := by
  induction line with
  | nil =>
    rw [List.dropWhile_nil, List.take_nil]
    rfl
  | cons c line ih =>
    by_cases hc : c = 35
    · subst hc
      cases n <;> rfl
    · rw [List.dropWhile_cons_of_pos (by simpa using hc)]
      exact ih

lemma length_lineText_le (line : Str) : (lineText line).length ≤ line.length :=
  (List.IsPrefix.length_le (List.rdropWhile_prefix _ _)).trans
    (List.IsPrefix.length_le (List.takeWhile_prefix _))

/-- A line whose text ends in its first piece has all of it there. -/
lemma lineText_take {line : Str} (h : (lineText line).length ≤ 255) :
    lineText (line.take 255) = lineText line := by
  have hsplit : line = lineText line ++ ((cutComment line).rtakeWhile isBlank ++
      line.dropWhile (· ≠ 35)) := by
    rw [← List.append_assoc]
    change line = trimEnd (cutComment line) ++ _ ++ _
    rw [trimEnd_append]
    exact (List.takeWhile_append_dropWhile (p := (· ≠ 35)) (l := line)).symm
  have hblank : Blank ((cutComment line).rtakeWhile isBlank) :=
    fun _ hc => List.mem_rtakeWhile_imp hc
  have hhash : 35 ∉ lineText line := by
    intro hin
    have hcut : (35 : UInt8) ∈ cutComment line := by
      rw [← trimEnd_append (cutComment line)]
      exact List.mem_append_left _ hin
    exact absurd (List.mem_takeWhile_imp hcut) (by decide)
  have htake : line.take 255 = lineText line ++
      (((cutComment line).rtakeWhile isBlank).take (255 - (lineText line).length) ++
        (line.dropWhile (· ≠ 35)).take
          (255 - (lineText line).length - ((cutComment line).rtakeWhile isBlank).length)) := by
    conv_lhs => rw [hsplit]
    rw [List.take_append, List.take_of_length_le h, List.take_append]
  have hshort : Blank (((cutComment line).rtakeWhile isBlank).take (255 - (lineText line).length)) :=
    fun c hc => hblank c (List.mem_of_mem_take hc)
  conv_lhs => rw [htake]
  rw [lineText, cutComment_append hhash, cutComment_append hshort.hash, cutComment_comment, List.append_nil,
    trimEnd_append_blank _ hshort]
  exact List.rdropWhile_idempotent isBlank (cutComment line)

/-- The history gets the line: its command is one word that ends in the first piece, and there is no
command in the other pieces, which are not read if it is `exit`. If there is no command in the
line there is none in any piece. -/
def Kept (line : Str) : Prop :=
  if command line = [] then ∀ p ∈ pieces line, command p = []
  else (command line).length = 1 ∧ (lineText line).length ≤ 255 ∧
    (IsExit line ∨ ∀ p ∈ pieces (line.drop 255), command p = [])

/-- A line that fits into the buffer must have one word at most. -/
lemma kept_of_length {line : Str} (h : line.length ≤ 255) (hc : (command line).length ≤ 1) :
    Kept line := by
  by_cases hnil : line = []
  · subst hnil
    rw [Kept, if_pos command_nil, pieces_nil]
    simp
  · unfold Kept
    split
    · next hcommand =>
      rw [pieces_short hnil h]
      simpa using hcommand
    · next hcommand =>
      have hpos := List.length_pos_of_ne_nil hcommand
      have htext := length_lineText_le line
      refine ⟨by omega, by omega, Or.inr ?_⟩
      rw [List.drop_eq_nil_of_le h, pieces_nil]
      simp

namespace Kept

variable {line : Str}

/-- Of the pieces of a line with a command the first has it. -/
lemma first (h : Kept line) (hc : command line ≠ []) :
    pieces line = line.take 255 :: pieces (line.drop 255) ∧
    command (line.take 255) = command line ∧ stored (line.take 255) = lineText line ∧
    commandLines (pieces line) = [line.take 255] := by
  rw [Kept, if_neg hc] at h
  obtain ⟨hone, hlen, hrest⟩ := h
  have hne : line ≠ [] := by
    rintro rfl
    exact hc command_nil
  have htext := lineText_take hlen
  have hcommand : command (line.take 255) = command line := by
    rw [← words_lineText, htext, words_lineText]
  have hstored : stored (line.take 255) = lineText line := by
    rw [stored, htext]
    exact (stored_eq_iff hc).mpr hone
  refine ⟨pieces_of_ne_nil hne, hcommand, hstored, ?_⟩
  rw [pieces_of_ne_nil hne, commandLines_cons, hcommand, if_neg hc]
  split
  · rfl
  · next hexit =>
    rw [IsExit, hcommand] at hexit
    rw [commandLines_eq_nil (hrest.resolve_left hexit)]

lemma stored_eq (h : Kept line) :
    (commandLines (pieces line)).map stored = (commandLines [line]).map lineText := by
  rw [commandLines_singleton]
  by_cases hc : command line = []
  · rw [Kept, if_pos hc] at h
    rw [commandLines_eq_nil h, if_pos hc]
    rfl
  · obtain ⟨-, -, hstored, hlines⟩ := h.first hc
    rw [hlines, if_neg hc, List.map_singleton, List.map_singleton, hstored]

lemma length_eq (h : Kept line) : ∀ p ∈ commandLines (pieces line), (command p).length = 1 := by
  by_cases hc : command line = []
  · rw [Kept, if_pos hc] at h
    rw [commandLines_eq_nil h]
    simp
  · obtain ⟨-, hcommand, -, hlines⟩ := h.first hc
    rw [Kept, if_neg hc] at h
    rw [hlines]
    simpa [hcommand] using h.1

/-- One of the pieces is `exit` if and only if the line is. -/
lemma exit_iff (h : Kept line) : (∃ p ∈ pieces line, IsExit p) ↔ IsExit line := by
  have hnil : ∀ {l : Str}, command l = [] → ¬ IsExit l := by
    intro l hl hexit
    rw [IsExit, hl] at hexit
    cases hexit
  by_cases hc : command line = []
  · rw [Kept, if_pos hc] at h
    refine ⟨fun hp => ?_, fun hexit => absurd hexit (hnil hc)⟩
    obtain ⟨p, hp, hexit⟩ := hp
    exact absurd hexit (hnil (h p hp))
  · obtain ⟨hpieces, hcommand, -, -⟩ := h.first hc
    rw [Kept, if_neg hc] at h
    have hfirst : IsExit (line.take 255) ↔ IsExit line := by rw [IsExit, IsExit, hcommand]
    rw [hpieces]
    refine ⟨fun hp => ?_, fun hexit => ⟨_, List.mem_cons_self, hfirst.mpr hexit⟩⟩
    obtain ⟨p, hp, hexit⟩ := hp
    rcases List.mem_cons.mp hp with rfl | hp
    · exact hfirst.mp hexit
    · exact h.2.2.resolve_right fun hall => hnil (hall p hp) hexit

end Kept

/-- If the history gets the text of the line, and nothing else of it, then it is kept. -/
lemma kept_of_stored {line : Str}
    (h : (commandLines (pieces line)).map stored = (commandLines [line]).map lineText) :
    Kept line := by
  rw [commandLines_singleton] at h
  rcases first_command (pieces line) with hall | ⟨pre, p, post, hps, hpre, hp⟩
  · have hline : command line = [] := by
      rw [← pieces_flatten line]
      exact command_flatten_nil hall
    rw [Kept, if_pos hline]
    exact hall
  · rw [hps, commandLines_first hpre hp] at h
    have hc : command line ≠ [] := by
      intro hnil
      rw [if_pos hnil] at h
      split at h <;> cases h
    rw [if_neg hc] at h
    have hblank : ∀ q ∈ pre, Blank q := by
      by_contra hnot
      apply hc
      rw [← pieces_flatten line, hps, List.flatten_append]
      exact command_comment hpre hnot _
    obtain ⟨rest, hrest⟩ := lineText_append (blank_flatten hblank) hp post.flatten
    have hflat : line = pre.flatten ++ (p ++ post.flatten) := by
      rw [← List.flatten_cons, ← List.flatten_append, ← hps, pieces_flatten]
    rw [← hflat] at hrest
    have hstored : stored p = lineText line ∧ (IsExit p ∨ commandLines post = []) := by
      split at h
      · next hexit =>
        simp only [List.map_cons, List.map_nil, List.cons.injEq, and_true] at h
        exact ⟨h, Or.inl hexit⟩
      · simp only [List.map_cons, List.map_nil, List.cons.injEq, List.map_eq_nil_iff] at h
        exact ⟨h.1, Or.inr h.2⟩
    obtain ⟨hstored, hother⟩ := hstored
    -- nothing is before the piece, as the text would have it too
    have hlen := congrArg List.length hrest
    rw [← hstored, List.length_append, List.length_append] at hlen
    have hpre' : pre = [] := by
      cases pre with
      | nil => rfl
      | cons q pre =>
        have hq : q ≠ [] := by
          have hne : line ≠ [] := by
            rintro rfl
            exact hc command_nil
          rw [pieces_of_ne_nil hne] at hps
          rw [← (List.cons.inj hps).1]
          simp [hne]
        have hpos := List.length_pos_of_ne_nil hq
        rw [List.flatten_cons, List.length_append] at hlen
        omega
    subst hpre'
    have hne : line ≠ [] := by
      rintro rfl
      exact hc command_nil
    rw [List.nil_append, pieces_of_ne_nil hne] at hps
    obtain ⟨hfirst, hpost⟩ := List.cons.inj hps
    have hle : (lineText line).length ≤ 255 := by
      rw [← hstored, stored]
      have hprefix : (upToFirstWord (lineText p)).length ≤ (lineText p).length := by
        have hsplit := List.takeWhile_append_dropWhile (p := isBlank) (l := lineText p)
        have hword := List.takeWhile_prefix (fun c => !isBlank c) (l := (lineText p).dropWhile isBlank)
        have hle := hword.length_le
        have htotal := congrArg List.length hsplit
        rw [List.length_append] at htotal
        rw [upToFirstWord, List.length_append]
        omega
      have htext := length_lineText_le p
      have hp' : p.length ≤ 255 := by
        rw [← hfirst, List.length_take]
        exact Nat.min_le_left _ _
      omega
    have hsame : command p = command line := by
      rw [← words_lineText, ← words_lineText, ← hfirst, lineText_take hle]
    have hexit : IsExit p ↔ IsExit line := by rw [IsExit, IsExit, hsame]
    rw [Kept, if_neg hc]
    refine ⟨?_, hle, ?_⟩
    · have hstored' : stored line = lineText line := by
        rw [← hstored, stored, stored, ← hfirst, lineText_take hle]
      exact (stored_eq_iff hc).mp hstored'
    · refine hother.imp hexit.mp fun hnone q hq => ?_
      rw [hpost] at hq
      by_contra hcq
      by_cases hall : ∀ x ∈ post, command x = []
      · exact hcq (hall q hq)
      · obtain ⟨pre', p', post', rfl, hpre', hp'⟩ := (first_command post).resolve_left hall
        rw [commandLines_first hpre' hp'] at hnone
        split at hnone <;> cases hnone

/-! ### All lines -/

lemma mem_upTo {α : Type} {p : α → Prop} [DecidablePred p] {a : α} {l : List α} (h : a ∈ upTo p l) :
    ∃ pre post, l = pre ++ a :: post ∧ ∀ b ∈ pre, ¬ p b := by
  induction l with
  | nil => cases h
  | cons b l ih =>
    rw [upTo] at h
    split at h
    · obtain rfl := List.mem_singleton.mp h
      exact ⟨[], l, rfl, by simp⟩
    · next hb =>
      rcases List.mem_cons.mp h with rfl | h
      · exact ⟨[], l, rfl, by simp⟩
      · obtain ⟨pre, post, rfl, hpre⟩ := ih h
        exact ⟨b :: pre, post, rfl, List.forall_mem_cons.mpr ⟨hb, hpre⟩⟩

lemma upTo_take {α : Type} {p : α → Prop} [DecidablePred p] (l : List α) (k : Nat) :
    upTo p (l.take k) <+: upTo p l := by
  induction l generalizing k with
  | nil => simp [upTo]
  | cons a l ih =>
    cases k with
    | zero => exact List.nil_prefix
    | succ k =>
      rw [List.take_succ_cons, upTo, upTo]
      split
      · exact List.prefix_rfl
      · exact List.cons_prefix_cons.mpr ⟨rfl, ih k⟩

/-- Lines that are kept are stored one by one. -/
lemma stored_lines {lines : List Str} (h : ∀ line ∈ upTo IsExit lines, Kept line) :
    (commandLines (lines.flatMap pieces)).map stored = (commandLines lines).map lineText ∧
      ∀ p ∈ commandLines (lines.flatMap pieces), (command p).length = 1 := by
  induction lines with
  | nil => exact ⟨rfl, by simp [commandLines, upTo]⟩
  | cons line lines ih =>
    rw [upTo] at h
    have hline : Kept line := by
      refine h line ?_
      split <;> exact List.mem_cons_self
    rw [List.flatMap_cons, ← List.singleton_append (l := lines)]
    by_cases hexit : IsExit line
    · rw [commandLines_append_exit _ (hline.exit_iff.mpr hexit),
        commandLines_append_exit lines ⟨line, List.mem_singleton_self line, hexit⟩]
      exact ⟨hline.stored_eq, hline.length_eq⟩
    · rw [if_neg hexit] at h
      obtain ⟨hstored, hlength⟩ := ih fun l hl => h l (List.mem_cons_of_mem line hl)
      have hnone : ∀ p ∈ pieces line, ¬ IsExit p := fun p hp he =>
        hexit (hline.exit_iff.mp ⟨p, hp, he⟩)
      rw [commandLines_append _ hnone, commandLines_append lines (by simpa using hexit),
        List.map_append, List.map_append, hline.stored_eq, hstored]
      refine ⟨rfl, fun p hp => ?_⟩
      rcases List.mem_append.mp hp with hp | hp
      · exact hline.length_eq p hp
      · exact hlength p hp

/-- The number of the last command leads to what was stored for it. -/
lemma State.Holds.getHistoryByNum_last {cmds : List Str} {s : State} (h : s.Holds cmds) :
    s.getHistoryByNum cmds.length = cmds.getLast? := by
  rw [← h.getLastHistory, State.getLastHistory, h.count]
  split
  · next hzero =>
    rw [hzero]
    rfl
  · rfl

section Recording

variable {mode : Mode} {lines : List Str}

lemma Recorded.of_stored (h : ∀ line ∈ lines, mode.IsLine line)
    (hlen : commandCount (lines.flatMap pieces) < 2 ^ 31)
    (hkept : ∀ line ∈ upTo IsExit lines, Kept line) : Recorded mode lines := by
  obtain ⟨hstored, hlength⟩ := stored_lines hkept
  rcases run_lines h hlen with ⟨s, cmds, hs, hholds⟩ | ⟨-, p, hp, hle⟩
  · rw [hstored] at hholds
    have hnum := hholds.getHistoryByNum_last
    rw [List.length_map, List.getLast?_map] at hnum
    exact ⟨s, cmds, hs, by simpa using hholds.count, hnum⟩
  · have := hlength p hp
    omega

/-- What has been recorded are the texts of as many lines as pieces. -/
lemma Recorded.stored (hrec : Recorded mode lines) (h : ∀ line ∈ lines, mode.IsLine line)
    (hlen : commandCount (lines.flatMap pieces) < 2 ^ 31) :
    (commandLines (lines.flatMap pieces)).length = (commandLines lines).length ∧
      (commandLines (lines.flatMap pieces)).getLast?.map stored =
        (commandLines lines).getLast?.map lineText := by
  obtain ⟨s, cmds, hs, hcount, hlast⟩ := hrec
  rcases run_lines h hlen with ⟨s', cmds', hs', hholds⟩ | ⟨hwild, -⟩
  · obtain ⟨rfl, -⟩ := Prod.mk.inj (Except.ok.inj (hs.symm.trans hs'))
    have hnum := hholds.getHistoryByNum_last
    have hcount' := hholds.count
    rw [List.length_map] at hnum hcount'
    have heq : (commandLines (lines.flatMap pieces)).length = (commandLines lines).length := by
      rw [hcount] at hcount'
      exact_mod_cast hcount'.symm
    rw [heq, hlast, List.getLast?_map] at hnum
    exact ⟨heq, hnum.symm⟩
  · rw [hs] at hwild
    cases hwild

lemma commandCount_take (lines : List Str) (k : Nat) :
    commandCount ((lines.take k).flatMap pieces) ≤ commandCount (lines.flatMap pieces) := by
  refine List.Sublist.countP_le ?_
  conv_rhs => rw [← List.take_append_drop k lines, List.flatMap_append]
  exact List.sublist_append_left _ _

/-- A line behind others that are no `exit` is kept. -/
lemma kept_of_recorded (h : ∀ line ∈ lines, mode.IsLine line)
    (hlen : commandCount (lines.flatMap pieces) < 2 ^ 31)
    (hrec : ∀ k, Recorded mode (lines.take k)) {pre post : List Str} {line : Str}
    (hlines : lines = pre ++ line :: post) (hpre : ∀ l ∈ pre, ¬ IsExit l) : Kept line := by
  induction hn : pre.length using Nat.strong_induction_on generalizing pre line post with
  | _ n ih =>
    have hkept : ∀ l ∈ pre, Kept l := by
      intro l hl
      obtain ⟨a, b, rfl⟩ := List.append_of_mem hl
      refine ih a.length (by simp [← hn]) (hlines.trans (List.append_assoc _ _ _))
        (fun x hx => hpre x (List.mem_append_left _ hx)) rfl
    have hupTo : ∀ l ∈ upTo IsExit pre, Kept l := by
      intro l hl
      obtain ⟨a, b, hpre', -⟩ := mem_upTo hl
      exact hkept l (by simp [hpre'])
    have hstored := (stored_lines hupTo).1
    have hcounts := congrArg List.length hstored
    rw [List.length_map, List.length_map] at hcounts
    have hnone : ∀ p ∈ pre.flatMap pieces, ¬ IsExit p := by
      intro p hp hexit
      obtain ⟨l, hl, hp⟩ := List.mem_flatMap.mp hp
      exact hpre l hl ((hkept l hl).exit_iff.mp ⟨p, hp, hexit⟩)
    have htake : lines.take (pre.length + 1) = pre ++ [line] := by
      rw [hlines, List.take_append, List.take_of_length_le (by omega)]
      simp
    obtain ⟨hcount, hlast⟩ := (hrec (pre.length + 1)).stored
      (fun l hl => h l (List.mem_of_mem_take hl)) ((commandCount_take lines _).trans_lt hlen)
    rw [htake, List.flatMap_append, List.flatMap_singleton, commandLines_append _ hnone,
      commandLines_append _ hpre] at hcount hlast
    rw [List.length_append, List.length_append, hcounts] at hcount
    refine kept_of_stored ?_
    rw [commandLines_singleton] at hcount hlast ⊢
    by_cases hc : command line = []
    · rw [if_pos hc] at hcount ⊢
      rw [List.length_nil] at hcount
      rw [List.length_eq_zero_iff.mp (Nat.add_left_cancel hcount)]
      rfl
    · rw [if_neg hc] at hcount hlast ⊢
      obtain ⟨p, hp⟩ := List.length_eq_one_iff.mp (Nat.add_left_cancel hcount)
      rw [hp] at hlast ⊢
      simpa using hlast

/-- Over all lines, the history has the full text of each line with a command when it has been given
exactly if every line up to the first `exit` is kept. -/
theorem history_records_iff (h : ∀ line ∈ lines, mode.IsLine line)
    (hlen : commandCount (lines.flatMap pieces) < 2 ^ 31) :
    (∀ k, Recorded mode (lines.take k)) ↔ ∀ line ∈ upTo IsExit lines, Kept line := by
  constructor
  · intro hrec line hline
    obtain ⟨pre, post, hlines, hpre⟩ := mem_upTo hline
    exact kept_of_recorded h hlen hrec hlines hpre
  · intro hkept k
    refine .of_stored (fun l hl => h l (List.mem_of_mem_take hl))
      ((commandCount_take lines k).trans_lt hlen) fun line hline => ?_
    exact hkept line ((upTo_take lines k).subset hline)

end Recording

lemma length_pieces_le (line : Str) : (pieces line).length ≤ line.length := by
  induction line using pieces.induct with
  | case1 =>
    rw [pieces_nil]
    exact le_rfl
  | case2 line hne ih =>
    have hpos := List.length_pos_of_ne_nil hne
    rw [pieces_of_ne_nil hne, List.length_cons]
    rw [List.length_drop] at ih
    omega

/-- The lines `ls`, `# x`, `pwd` with a comment in the second piece of the line, and `exit`, and
after these a line of 300 bytes. -/
def wordLines : List Str :=
  [[108, 115], [35, 32, 120], [112, 119, 100] ++ List.replicate 260 32 ++ [35], exitWord,
    List.replicate 300 97]

/-- They are typed at the console. -/
theorem history_records_words : Recorded .console (wordLines.take 5) := by
  have hlines : upTo IsExit wordLines = wordLines.take 4 := by decide +kernel
  have hlong : ([112, 119, 100] ++ List.replicate 260 32 ++ [35] : Str).drop 255 =
      List.replicate 8 32 ++ [35] := by decide
  have hkept : ∀ line ∈ upTo IsExit wordLines, Kept line := by
    rw [hlines]
    simp only [wordLines, List.take_succ_cons, List.take_zero, List.forall_mem_cons]
    refine ⟨kept_of_length (by decide) (by decide), kept_of_length (by decide) (by decide), ?_,
      kept_of_length (by decide) (by decide), by simp⟩
    rw [Kept, if_neg (by decide), hlong, pieces_short (by decide) (by decide)]
    refine ⟨by decide, by decide +kernel, Or.inr ?_⟩
    simpa using (by decide : command (List.replicate 8 32 ++ [35]) = [])
  have htext : ∀ line ∈ wordLines, Mode.console.IsLine line := by
    have hbytes : ∀ line ∈ wordLines, line.all fun c => c ≠ 0 ∧ c ≠ 10 ∧ c ≠ 13 := by
      decide +kernel
    intro line hline
    have hbyte : ∀ c ∈ line, c ≠ 0 ∧ c ≠ 10 ∧ c ≠ 13 := fun c hc =>
      of_decide_eq_true (List.all_eq_true.mp (hbytes line hline) c hc)
    exact ⟨fun c hc => ⟨(hbyte c hc).1, (hbyte c hc).2.1⟩, fun _ hin => (hbyte 13 hin).2.2 rfl⟩
  have hcount : commandCount (wordLines.flatMap pieces) < 2 ^ 31 := by
    have hpieces : (wordLines.flatMap pieces).length ≤ (wordLines.map List.length).sum := by
      rw [List.length_flatMap]
      exact List.sum_le_sum fun line _ => length_pieces_le line
    exact (List.countP_le_length.trans hpieces).trans_lt (by decide +kernel)
  exact (history_records_iff htext hcount).mpr hkept 5

/-- `echo Command 000`. -/
def echoLine : Str := [101, 99, 104, 111, 32, 67, 111, 109, 109, 97, 110, 100, 32, 48, 48, 48]

/-- Of the line the history keeps `echo`. -/
theorem history_loses_arguments :
    ((Mode.script.run [echoLine]).map fun r => r.1.getHistoryByNum 1) =
      .ok (some [101, 99, 104, 111]) ∧ lineText echoLine = echoLine ∧
    ¬ Recorded .script [echoLine] := by
  have hrun : ((Mode.script.run [echoLine]).map fun r => r.1.getHistoryByNum 1) =
      .ok (some [101, 99, 104, 111]) := by rfl
  refine ⟨hrun, by decide, ?_⟩
  rintro ⟨s, cmds, hs, -, hlast⟩
  rw [hs] at hrun
  have hnum : s.getHistoryByNum 1 = some [101, 99, 104, 111] := Except.ok.inj hrun
  have hlines : commandLines [echoLine] = [echoLine] := by decide
  rw [hlines] at hlast
  exact absurd (hnum.symm.trans hlast) (by decide)

end FogOS.Shell
