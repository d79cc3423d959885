import Mathlib.Data.List.TakeWhile
import FogOS.Shell.Parser

/-!
# Tokens of sh

The tokens of a line, apart from the code, and a scanner that reads them from their list. Parsing
with it comes to the same as parsing with the scanner on the line.
-/

namespace FogOS.Shell.Sh

open Kernel

/-! ### Tokens -/

/-- The bytes that a word is made of. -/
def isWord (c : UInt8) : Bool := !strchr whitespace c && !strchr symbols c

/-- The tokens of a text that begins at the `n`-th byte of its line, each as long as possible. -/
def lex (n : Nat) : Str → List Token
  | [] => []
  | c :: text =>
    if strchr whitespace c then lex (n + 1) text
    else
      match single c with
      | some kind => ⟨kind, n, n + 1⟩ :: lex (n + 1) text
      | none =>
        if c = 62 then
          if text.head? = some 62 then ⟨.append, n, n + 2⟩ :: lex (n + 2) text.tail
          else ⟨.gt, n, n + 1⟩ :: lex (n + 1) text
        else
          ⟨.word, n, n + 1 + (text.takeWhile isWord).length⟩ ::
            lex (n + 1 + (text.takeWhile isWord).length) (text.dropWhile isWord)
  termination_by text => text.length
  decreasing_by
    all_goals simp only [List.length_cons]
    · omega
    · omega
    · rw [List.length_tail]
      omega
    · omega
    · have := List.length_dropWhile_le isWord text
      omega

/-- The byte with which a token begins, where it is not a word. -/
def Kind.byte : Kind → Option UInt8
  | .eof => none
  | .word => none
  | .append => some 62
  | .pipe => some 124
  | .lparen => some 40
  | .rparen => some 41
  | .semi => some 59
  | .amp => some 38
  | .lt => some 60
  | .gt => some 62

/-- Whether the next token begins with one of the symbols. -/
def next (toks : Str) : List Token → Bool
  | [] => false
  | t :: _ => t.kind.byte.any (strchr toks)

/-- The scanner that reads the tokens from a list. -/
def listed (es : Nat) : Scanner (List Token) where
  gettoken
    | [] => pure (⟨.eof, es, es⟩, [])
    | t :: ts => pure (t, ts)
  peek toks ts := pure (next toks ts, ts)

/-! ### Two scanners -/

section Agreement

variable {σ τ α β : Type} {R : σ → τ → Prop}

/-- Both results are the same failure, or the same value with related rests. -/
inductive Agree (R : σ → τ → Prop) : Except Failure (α × σ) → Except Failure (α × τ) → Prop
  | error (e : Failure) : Agree R (.error e) (.error e)
  | ok {s : σ} {t : τ} (a : α) (h : R s t) : Agree R (.ok (a, s)) (.ok (a, t))

lemma Agree.bind {x : Except Failure (α × σ)} {y : Except Failure (α × τ)}
    {f : α × σ → Except Failure (β × σ)} {g : α × τ → Except Failure (β × τ)} (h : Agree R x y)
    (hfg : ∀ a s t, R s t → Agree R (f (a, s)) (g (a, t))) : Agree R (x >>= f) (y >>= g) := by
  cases h with
  | error e => exact Agree.error e
  | ok a h => exact hfg a _ _ h

/-- The scanners agree as long as only symbols are looked for. -/
structure Simulates (R : σ → τ → Prop) (S : Scanner σ) (T : Scanner τ) : Prop where
  gettoken : ∀ {s t}, R s t → Agree R (S.gettoken s) (T.gettoken t)
  peek : ∀ {s t} {toks : Str}, toks ⊆ symbols → R s t → Agree R (S.peek toks s) (T.peek toks t)

variable {S : Scanner σ} {T : Scanner τ} (h : Simulates R S T)
include h

lemma Simulates.parseredirs (k : Nat) (redirs : List Redir) {s : σ} {t : τ} (hr : R s t) :
    Agree R (parseredirs S k redirs s) (parseredirs T k redirs t) := by
  induction k generalizing redirs s t with
  | zero => exact Agree.error _
  | succ k ih =>
    rw [Sh.parseredirs, Sh.parseredirs]
    refine (h.peek (by decide) hr).bind fun more s t hr => ?_
    dsimp only
    split
    · refine (h.gettoken hr).bind fun tok s t hr => ?_
      refine (h.gettoken hr).bind fun file s t hr => ?_
      dsimp only
      split
      · exact Agree.error _
      · exact ih _ hr
    · exact Agree.ok _ hr

lemma Simulates.parseargs (k : Nat) (args : List (Nat × Nat)) (redirs : List Redir) {s : σ} {t : τ}
    (hr : R s t) : Agree R (parseargs S k args redirs s) (parseargs T k args redirs t) := by
  induction k generalizing args redirs s t with
  | zero => exact Agree.error _
  | succ k ih =>
    rw [Sh.parseargs, Sh.parseargs]
    refine (h.peek (by decide) hr).bind fun done s t hr => ?_
    dsimp only
    split
    · exact Agree.ok _ hr
    · refine (h.gettoken hr).bind fun tok s t hr => ?_
      dsimp only
      split
      · exact Agree.ok _ hr
      · split
        · exact Agree.error _
        · split
          · exact Agree.error _
          · refine (h.parseredirs k redirs hr).bind fun redirs s t hr => ?_
            exact ih _ _ hr

lemma Simulates.parsebacks (k : Nat) (cmd : Cmd) {s : σ} {t : τ} (hr : R s t) :
    Agree R (parsebacks S k cmd s) (parsebacks T k cmd t) := by
  induction k generalizing cmd s t with
  | zero => exact Agree.error _
  | succ k ih =>
    rw [Sh.parsebacks, Sh.parsebacks]
    refine (h.peek (by decide) hr).bind fun more s t hr => ?_
    dsimp only
    split
    · refine (h.gettoken hr).bind fun tok s t hr => ?_
      exact ih _ hr
    · exact Agree.ok _ hr

/-- The four functions that call each other, together. -/
lemma Simulates.parse (fuel : Nat) {s : σ} {t : τ} (hr : R s t) :
    Agree R (parseline S fuel s) (parseline T fuel t) ∧
    Agree R (parsepipe S fuel s) (parsepipe T fuel t) ∧
    Agree R (parseblock S fuel s) (parseblock T fuel t) ∧
    Agree R (parseexec S fuel s) (parseexec T fuel t) := by
  induction fuel generalizing s t with
  | zero => exact ⟨Agree.error _, Agree.error _, Agree.error _, Agree.error _⟩
  | succ fuel ih =>
    refine ⟨?_, ?_, ?_, ?_⟩
    · rw [parseline, parseline]
      refine (ih hr).2.1.bind fun cmd s t hr => ?_
      refine (h.parsebacks fuel cmd hr).bind fun cmd s t hr => ?_
      refine (h.peek (by decide) hr).bind fun more s t hr => ?_
      dsimp only
      split
      · refine (h.gettoken hr).bind fun _ s t hr => ?_
        refine (ih hr).1.bind fun right s t hr => ?_
        exact Agree.ok _ hr
      · exact Agree.ok _ hr
    · rw [parsepipe, parsepipe]
      refine (ih hr).2.2.2.bind fun cmd s t hr => ?_
      refine (h.peek (by decide) hr).bind fun more s t hr => ?_
      dsimp only
      split
      · refine (h.gettoken hr).bind fun _ s t hr => ?_
        refine (ih hr).2.1.bind fun right s t hr => ?_
        exact Agree.ok _ hr
      · exact Agree.ok _ hr
    · rw [parseblock, parseblock]
      refine (h.peek (by decide) hr).bind fun opens s t hr => ?_
      dsimp only
      split
      · exact Agree.error _
      · refine (h.gettoken hr).bind fun _ s t hr => ?_
        refine (ih hr).1.bind fun cmd s t hr => ?_
        refine (h.peek (by decide) hr).bind fun closes s t hr => ?_
        dsimp only
        split
        · exact Agree.error _
        · refine (h.gettoken hr).bind fun _ s t hr => ?_
          refine (h.parseredirs fuel [] hr).bind fun redirs s t hr => ?_
          exact Agree.ok _ hr
    · rw [parseexec, parseexec]
      refine (h.peek (by decide) hr).bind fun opens s t hr => ?_
      dsimp only
      split
      · exact (ih hr).2.2.1
      · refine (h.parseredirs fuel [] hr).bind fun redirs s t hr => ?_
        refine (h.parseargs fuel [] redirs hr).bind fun args s t hr => ?_
        exact Agree.ok _ hr

end Agreement

/-! ### The line and its tokens -/

section Line

variable {input text : Str} {s n : Nat} {c : UInt8} {toks : List Token}

/-- From the cursor on, the line has these tokens. -/
def At (input : Str) (s : Nat) (toks : List Token) : Prop :=
  s ≤ input.length ∧ lex s (input.drop s) = toks

lemma load_eq (h : s < input.length) : load (input ++ [0]) s = .ok (input[s]) := by
  rw [load, List.getElem?_append_left h, List.getElem?_eq_getElem h]
  rfl

lemma load_end (input : Str) : load (input ++ [0]) input.length = .ok 0 := by
  rw [load, List.getElem?_append_right le_rfl, Nat.sub_self]
  rfl

/-- A loop that skips bytes stops at the first that it does not skip, or at the end. -/
lemma skip_eq (p : UInt8 → Bool) (h : s ≤ input.length) :
    skip (input ++ [0]) input.length p s = .ok (s + ((input.drop s).takeWhile p).length) := by
  rw [skip]
  obtain ⟨k, hk⟩ : ∃ k, k = input.length - s := ⟨_, rfl⟩
  rw [← hk]
  induction k generalizing s with
  | zero =>
    rw [List.drop_eq_nil_of_le (by omega)]
    rfl
  | succ k ih =>
    have hlt : s < input.length := by omega
    rw [skipLoop, if_pos hlt, load_eq hlt, ok_bind, List.drop_eq_getElem_cons hlt]
    by_cases hp : p input[s]
    · rw [if_pos hp, List.takeWhile_cons_of_pos hp, ih (by omega) (by omega), List.length_cons]
      congr 1
      omega
    · rw [if_neg hp, List.takeWhile_cons_of_neg hp]
      rfl

lemma drop_skipped (p : UInt8 → Bool) (input : Str) (s : Nat) :
    input.drop (s + ((input.drop s).takeWhile p).length) = (input.drop s).dropWhile p := by
  rw [← List.drop_drop]
  obtain ⟨text, htext⟩ : ∃ text, input.drop s = text := ⟨_, rfl⟩
  rw [htext]
  have hsplit := List.takeWhile_append_dropWhile (p := p) (l := text)
  nth_rewrite 2 [← hsplit]
  exact List.drop_left

lemma lex_white (n : Nat) (text : Str) :
    lex (n + (text.takeWhile (strchr whitespace)).length) (text.dropWhile (strchr whitespace)) =
      lex n text := by
  induction text generalizing n with
  | nil => rfl
  | cons c text ih =>
    by_cases hc : strchr whitespace c
    · rw [List.takeWhile_cons_of_pos hc, List.dropWhile_cons_of_pos hc, lex, if_pos hc, ← ih,
        List.length_cons]
      congr 1
      omega
    · rw [List.takeWhile_cons_of_neg hc, List.dropWhile_cons_of_neg hc]
      rfl

/-- Whitespace in front of a token is passed over. -/
lemma At.skip (h : At input s toks) :
    ∃ s', skip (input ++ [0]) input.length (strchr whitespace) s = .ok s' ∧ At input s' toks ∧
      ∀ c ∈ (input.drop s').head?, strchr whitespace c = false := by
  obtain ⟨hs, rfl⟩ := h
  refine ⟨_, skip_eq _ hs, ⟨?_, ?_⟩, ?_⟩
  · have hle := (List.takeWhile_prefix (strchr whitespace) (l := input.drop s)).length_le
    rw [List.length_drop] at hle
    omega
  · rw [drop_skipped, lex_white]
  · intro c hc
    rw [drop_skipped] at hc
    have hnot := List.head?_dropWhile_not (strchr whitespace) (input.drop s)
    rw [Option.mem_def.mp hc] at hnot
    simpa using hnot

lemma single_some {kind : Kind} (h : single c = some kind) :
    c ∈ symbols ∧ kind.byte = some c ∧ c ≠ 0 ∧ c ≠ 62 := by
  unfold single at h
  split_ifs at h
  all_goals
    cases h
    subst c
    decide

lemma single_none (h : single c = none) (hgt : c ≠ 62) : strchr symbols c = false := by
  rw [strchr, List.contains_eq_mem, decide_eq_false_iff_not]
  intro hmem
  simp only [symbols, List.mem_cons, List.not_mem_nil, or_false] at hmem
  rcases hmem with rfl | rfl | rfl | rfl | rfl | rfl | rfl
  all_goals first | exact hgt rfl | cases h

/-- The byte at the cursor: the first of the rest, or the NUL. -/
lemma load_drop (h : s ≤ input.length) :
    load (input ++ [0]) s = .ok ((input.drop s).headD 0) := by
  rcases Nat.lt_or_ge s input.length with hlt | hge
  · rw [load_eq hlt, List.drop_eq_getElem_cons hlt]
    rfl
  · obtain rfl : s = input.length := by omega
    rw [load_end, List.drop_length]
    rfl

/-- The first byte of a text that does not begin with whitespace tells what token comes. -/
lemma lex_cons (hc : strchr whitespace c = false) :
    lex n (c :: text) =
      match single c with
      | some kind => ⟨kind, n, n + 1⟩ :: lex (n + 1) text
      | none =>
        if c = 62 then
          if text.head? = some 62 then ⟨.append, n, n + 2⟩ :: lex (n + 2) text.tail
          else ⟨.gt, n, n + 1⟩ :: lex (n + 1) text
        else
          ⟨.word, n, n + 1 + (text.takeWhile isWord).length⟩ ::
            lex (n + 1 + (text.takeWhile isWord).length) (text.dropWhile isWord) := by
  rw [lex, hc, if_neg Bool.false_ne_true]

/-- The symbols that are looked for are those of the next token. -/
lemma At.peek {set : Str} (hset : set ⊆ symbols) (h0 : 0 ∉ input) (h : At input s toks) :
    Agree (At input) (peek (input ++ [0]) input.length set s) (pure (next set toks, toks)) := by
  obtain ⟨s', hskip, hat, hhead⟩ := h.skip
  rw [Sh.peek, hskip, ok_bind, load_drop hat.1, ok_bind]
  have hb : (decide ((input.drop s').headD 0 ≠ 0) && strchr set ((input.drop s').headD 0)) =
      next set toks := by
    obtain ⟨hle, rfl⟩ := hat
    cases htext : input.drop s' with
    | nil =>
      rw [lex]
      rfl
    | cons c text =>
      rw [htext] at hhead
      have hc0 : c ≠ 0 := by
        rintro rfl
        exact h0 (List.mem_of_mem_drop (htext ▸ List.mem_cons_self))
      rw [lex_cons (hhead c rfl)]
      simp only [List.headD_cons, hc0, ne_eq, not_false_eq_true, decide_true, Bool.true_and]
      cases hsingle : single c with
      | some kind => simp [next, (single_some hsingle).2.1]
      | none =>
        by_cases hgt : c = 62
        · subst hgt
          by_cases htwo : text.head? = some 62
          · simp [htwo, next, Kind.byte]
          · simp [htwo, next, Kind.byte]
        · have hmem := single_none hsingle hgt
          have hnot : strchr set c = false := by
            simp only [strchr, List.contains_eq_mem, decide_eq_false_iff_not] at hmem ⊢
            exact fun hin => hmem (hset hin)
          simp [hgt, next, Kind.byte, hnot]
  rw [hb]
  exact Agree.ok _ hat

/-- What `classify` makes of the text at the cursor is its first token, which ends where the other
tokens begin. -/
lemma classify_eq (h0 : 0 ∉ input) (hs : s ≤ input.length) (htext : input.drop s = c :: text)
    (hc : strchr whitespace c = false) :
    ∃ kind e ts, classify (input ++ [0]) input.length s c = .ok (kind, e) ∧
      lex s (c :: text) = ⟨kind, s, e⟩ :: ts ∧ At input e ts := by
  have hlt : s < input.length := by
    by_contra hge
    rw [List.drop_eq_nil_of_le (by omega)] at htext
    cases htext
  have hnext : input.drop (s + 1) = text := by rw [← List.tail_drop, htext, List.tail_cons]
  have hc0 : c ≠ 0 := by
    rintro rfl
    exact h0 (List.mem_of_mem_drop (htext ▸ List.mem_cons_self))
  rw [classify, if_neg hc0, lex_cons hc]
  cases hsingle : single c with
  | some kind => exact ⟨kind, s + 1, _, rfl, rfl, hlt, by rw [hnext]⟩
  | none =>
    by_cases hgt : c = 62
    · simp only [hgt, if_true]
      rw [load_drop hlt, hnext, ok_bind]
      cases text with
      | nil => exact ⟨.gt, s + 1, _, rfl, rfl, hlt, by rw [hnext]⟩
      | cons d text =>
        by_cases hd : d = 62
        · subst hd
          refine ⟨.append, s + 2, _, rfl, rfl, ?_, ?_⟩
          · have := congrArg List.length hnext
            rw [List.length_drop, List.length_cons] at this
            omega
          · rw [← List.tail_drop, hnext]
        · refine ⟨.gt, s + 1, lex (s + 1) (d :: text), ?_, ?_, hlt, by rw [hnext]⟩
          · simp [hd]
            rfl
          · simp [hd]
    · have hword : isWord c = true := by simp [isWord, hc, single_none hsingle hgt]
      have hskip := skip_eq isWord hs
      have hdrop := drop_skipped isWord input s
      rw [htext, List.takeWhile_cons_of_pos hword, List.length_cons] at hskip hdrop
      rw [List.dropWhile_cons_of_pos hword] at hdrop
      rw [show s + ((text.takeWhile isWord).length + 1) = s + 1 + (text.takeWhile isWord).length by
        omega] at hskip hdrop
      simp only [hgt, if_false]
      refine ⟨.word, s + 1 + (text.takeWhile isWord).length, _, ?_, rfl, ?_, by rw [hdrop]⟩
      · rw [show (fun c => !strchr whitespace c && !strchr symbols c) = isWord from rfl, hskip]
        rfl
      · have hle := (List.takeWhile_prefix isWord (l := text)).length_le
        have hlen := congrArg List.length hnext
        rw [List.length_drop] at hlen
        omega

lemma At.gettoken (h0 : 0 ∉ input) (h : At input s toks) :
    Agree (At input) (gettoken (input ++ [0]) input.length s)
      ((listed input.length).gettoken toks) := by
  obtain ⟨s', hskip, hat, hhead⟩ := h.skip
  rw [Sh.gettoken, hskip, ok_bind, load_drop hat.1, ok_bind]
  cases htext : input.drop s' with
  | nil =>
    obtain ⟨hle, rfl⟩ := hat
    have hs' : s' = input.length := by
      have := congrArg List.length htext
      rw [List.length_drop, List.length_nil] at this
      omega
    have hend : lex s' (input.drop s') = [] := by rw [htext, lex]
    have hstay := skip_eq (strchr whitespace) hle
    rw [htext, List.takeWhile_nil, List.length_nil, Nat.add_zero] at hstay
    rw [List.headD_nil, classify, if_pos rfl, pure_bind]
    dsimp only
    rw [hstay, hend, hs']
    exact Agree.ok _ ⟨le_rfl, by rw [List.drop_length, lex]⟩
  | cons c text =>
    rw [htext] at hhead
    obtain ⟨kind, e, ts, hclass, hlex, hrest⟩ := classify_eq h0 hat.1 htext (hhead c rfl)
    obtain ⟨s₂, hskip₂, hat₂, -⟩ := hrest.skip
    rw [← hat.2, htext, hlex, List.headD_cons, hclass, ok_bind]
    dsimp only
    rw [hskip₂]
    exact Agree.ok _ hat₂

/-- The scanner of the line and the one of its tokens. -/
lemma scanner_simulates (h0 : 0 ∉ input) :
    Simulates (At input) (scanner (input ++ [0]) input.length) (listed input.length) where
  gettoken := fun h => h.gettoken h0
  peek := fun hset h => h.peek hset h0

end Line

end FogOS.Shell.Sh
