import FogOS.Shell.Crash

/-!
# Lines and tokens

What the shell's handling of one line comes to: the words of the text before the comment are the
tokens, and the history gets the text up to the end of the first word, where tokenizing has put a
NUL.
-/

namespace FogOS.Shell

open Kernel

/-- The maximal runs of bytes that are not blank. -/
def words (text : Str) : List Str := (text.splitOnP isBlank).filter (· ≠ [])

/-- A text of a line: it has neither a NUL nor a newline. -/
def IsText (text : Str) : Prop := ∀ c ∈ text, c ≠ 0 ∧ c ≠ 10

/-! ### Words -/

lemma words_blank_cons {c : UInt8} {text : Str} (hc : isBlank c = true) :
    words (c :: text) = words text := by
  simp [words, List.splitOnP_cons_eq_if_modifyHead, hc]

lemma words_blank_append {b text : Str} (hb : ∀ c ∈ b, isBlank c = true) :
    words (b ++ text) = words text := by
  induction b with
  | nil => rfl
  | cons c b ih =>
    rw [List.cons_append, words_blank_cons (hb c List.mem_cons_self),
      ih fun x hx => hb x (List.mem_cons_of_mem c hx)]

lemma words_nil : words [] = [] := by simp [words]

lemma words_blank {b : Str} (hb : ∀ c ∈ b, isBlank c = true) : words b = [] := by
  have h := @words_blank_append b [] hb
  rwa [List.append_nil, words_nil] at h

lemma words_word {w : Str} (hw : ∀ c ∈ w, isBlank c = false) (hne : w ≠ []) : words w = [w] := by
  simp [words, List.splitOnP_eq_singleton hw, hne]

lemma words_word_cons {w text : Str} {c : UInt8} (hw : ∀ c ∈ w, isBlank c = false) (hne : w ≠ [])
    (hc : isBlank c = true) : words (w ++ c :: text) = w :: words text := by
  simp [words, List.splitOnP_append_cons_of_forall_mem hw c hc, hne]

/-- Blanks at the end do not matter. -/
lemma words_append_blank {b text : Str} (hb : ∀ c ∈ b, isBlank c = true) :
    words (text ++ b) = words text := by
  cases b with
  | nil => rw [List.append_nil]
  | cons c b =>
    have hc := hb c List.mem_cons_self
    have hrest : words b = [] := words_blank fun x hx => hb x (List.mem_cons_of_mem c hx)
    rw [words] at hrest ⊢
    rw [List.splitOnP_append_cons _ _ hc, List.filter_append, hrest, List.append_nil, words]

/-- A text is blank, or it has a first word. -/
lemma blank_or_word (text : Str) : (∀ c ∈ text, isBlank c = true) ∨
    ∃ b w t, text = b ++ (w ++ t) ∧ (∀ c ∈ b, isBlank c = true) ∧ w ≠ [] ∧
      (∀ c ∈ w, isBlank c = false) ∧ (t = [] ∨ ∃ c t', t = c :: t' ∧ isBlank c = true) := by
  cases hr : text.dropWhile isBlank with
  | nil => exact Or.inl (List.dropWhile_eq_nil_iff.mp hr)
  | cons c r =>
    refine Or.inr ⟨text.takeWhile isBlank, (c :: r).takeWhile fun x => !isBlank x,
      (c :: r).dropWhile fun x => !isBlank x, ?_, ?_, ?_, ?_, ?_⟩
    · rw [List.takeWhile_append_dropWhile, ← hr, List.takeWhile_append_dropWhile]
    · exact fun x hx => List.mem_takeWhile_imp hx
    · have hc := List.head_dropWhile_not isBlank (l := text) (by simp [hr])
      simp only [hr, List.head_cons] at hc
      simp [hc]
    · intro x hx
      simpa using List.mem_takeWhile_imp hx
    · cases ht : (c :: r).dropWhile fun x => !isBlank x with
      | nil => exact Or.inl rfl
      | cons x t =>
        have hx := List.head_dropWhile_not (fun x => !isBlank x) (l := c :: r) (by simp [ht])
        simp only [ht, List.head_cons, Bool.not_eq_false'] at hx
        exact Or.inr ⟨x, t, rfl, hx⟩

lemma words_of_word {b w t : Str} (hb : ∀ c ∈ b, isBlank c = true) (hne : w ≠ [])
    (hw : ∀ c ∈ w, isBlank c = false) (ht : t = [] ∨ ∃ c t', t = c :: t' ∧ isBlank c = true) :
    words (b ++ (w ++ t)) = w :: words t := by
  rw [words_blank_append hb]
  rcases ht with rfl | ⟨c, t, rfl, hc⟩
  · rw [List.append_nil, words_word hw hne, words_nil]
  · rw [words_word_cons hw hne hc, words_blank_cons hc]

/-- A text has no words if it is blank. -/
lemma words_eq_nil_iff {text : Str} : words text = [] ↔ ∀ c ∈ text, isBlank c = true := by
  refine ⟨fun h => ?_, words_blank⟩
  rcases blank_or_word text with hblank | ⟨b, w, t, rfl, hb, hne, hw, ht⟩
  · exact hblank
  · rw [words_of_word hb hne hw ht] at h
    cases h

/-! ### Tokenizing -/

lemma mem_delims {c : UInt8} (hc : c ≠ 10) : c ∈ delims ↔ isBlank c = true := by
  simp [delims, isBlank, hc]

lemma takeWhile_prefix {p : UInt8 → Bool} {b t : Str} (hb : ∀ c ∈ b, p c = true)
    (ht : ∀ c, t[0]? = some c → p c = false) : (b ++ t).takeWhile p = b := by
  rw [List.takeWhile_append_of_pos hb]
  cases t with
  | nil => simp
  | cons c t => simp [ht c rfl]

section

variable {delim : Str} {c : UInt8}

lemma scan_end (hd : 0 ∉ delim) (c : UInt8) :
    scan c (delim ++ [0]) = .ok (decide (c = 0 ∨ c ∈ delim)) := by
  induction delim with
  | nil =>
    rw [List.nil_append, scan]
    by_cases hc : c = 0
    · simp [hc]
      rfl
    · simp [hc, Ne.symm hc]
      rfl
  | cons d delim ih =>
    rw [List.mem_cons, not_or] at hd
    rw [List.cons_append, scan]
    by_cases hdc : d = c
    · simp [hdc]
      rfl
    · rw [if_neg hdc, if_neg (Ne.symm hd.1), ih hd.2]
      simp [Ne.symm hdc]

/-- `strspn` gives the length of the longest prefix of delimiters. -/
lemma strspn_end (hd : 0 ∉ delim) (str : Str) :
    strspn (delim ++ [0]) (str ++ [0]) = .ok (str.takeWhile fun c => c ≠ 0 ∧ c ∈ delim).length := by
  induction str with
  | nil => rfl
  | cons c str ih =>
    rw [List.cons_append, strspn, List.takeWhile_cons]
    by_cases hc : c = 0
    · rw [if_pos hc, if_neg (by simp [hc])]
      rfl
    · rw [if_neg hc, scan_end hd, ok_bind]
      by_cases hmem : c ∈ delim
      · simp only [hc, hmem, or_true, not_false_eq_true, ne_eq, and_self, decide_true, if_true, ih, ok_bind]
        rfl
      · simp only [hc, hmem, or_self, and_false, decide_false, Bool.false_eq_true, if_false]
        rfl

/-- `strcspn` gives the length of the longest prefix without a delimiter. -/
lemma strcspn_end (hd : 0 ∉ delim) (str : Str) :
    strcspn (delim ++ [0]) (str ++ [0]) = .ok (str.takeWhile fun c => c ≠ 0 ∧ c ∉ delim).length := by
  induction str with
  | nil =>
    rw [List.nil_append, strcspn, scan_end hd, ok_bind]
    rfl
  | cons c str ih =>
    rw [List.cons_append, strcspn, scan_end hd, ok_bind, List.takeWhile_cons]
    by_cases hc : c = 0 ∨ c ∈ delim
    · simp only [hc, decide_true, if_true, ← not_or, not_true_eq_false, decide_false, Bool.false_eq_true, if_false, ne_eq]
      rfl
    · simp only [hc, decide_false, Bool.false_eq_true, if_false, ih, ok_bind, ne_eq, ← not_or, not_false_eq_true, decide_true, if_true]
      rfl

end

/-- The text up to the end of its first word. -/
def upToFirstWord (text : Str) : Str :=
  text.takeWhile isBlank ++ (text.dropWhile isBlank).takeWhile fun c => !isBlank c

lemma upToFirstWord_blank {text : Str} (h : ∀ c ∈ text, isBlank c = true) :
    upToFirstWord text = text := by
  rw [upToFirstWord, List.takeWhile_eq_self_iff.mpr h, List.dropWhile_eq_nil_iff.mpr h]
  simp

lemma upToFirstWord_word {b w t : Str} (hb : ∀ c ∈ b, isBlank c = true) (hne : w ≠ [])
    (hw : ∀ c ∈ w, isBlank c = false) (ht : t = [] ∨ ∃ c t', t = c :: t' ∧ isBlank c = true) :
    upToFirstWord (b ++ (w ++ t)) = b ++ w := by
  obtain ⟨x, w', rfl⟩ := List.exists_cons_of_ne_nil hne
  have hx := hw x List.mem_cons_self
  have hw' : ∀ c ∈ x :: w', (!isBlank c) = true := fun c hc => by simp [hw c hc]
  have htake : (b ++ ((x :: w') ++ t)).takeWhile isBlank = b := by
    rw [List.takeWhile_append_of_pos hb]
    simp [hx]
  have hdrop : (b ++ ((x :: w') ++ t)).dropWhile isBlank = (x :: w') ++ t := by
    rw [List.dropWhile_append_of_pos hb]
    simp [hx]
  rw [upToFirstWord, htake, hdrop, List.takeWhile_append_of_pos hw']
  rcases ht with rfl | ⟨c, t, rfl, hc⟩
  · simp
  · simp [hc]

lemma cstr_append {pre text t : Str} (h : ∀ c ∈ text, c ≠ 0) :
    cstr (pre ++ (text ++ 0 :: t)) pre.length = text := by
  have h' : ∀ c ∈ text, decide (c ≠ 0) = true := fun c hc => by simpa using h c hc
  rw [cstr, List.drop_left, List.takeWhile_append_of_pos h']
  simp

/-- The end of a string: the end of the buffer, or a NUL. -/
def Ends (junk : Str) : Prop := junk = [] ∨ ∃ t, junk = 0 :: t

lemma cstr_ends {pre text junk : Str} (h : ∀ c ∈ text, c ≠ 0) (hj : Ends junk) :
    cstr (pre ++ (text ++ junk)) pre.length = text := by
  rcases hj with rfl | ⟨t, rfl⟩
  · have h' : ∀ c ∈ text, decide (c ≠ 0) = true := fun c hc => by simpa using h c hc
    rw [cstr, List.drop_left, List.append_nil, List.takeWhile_eq_self_iff.mpr h']
  · exact cstr_append h

lemma cstr_end {pre text : Str} (h : ∀ c ∈ text, c ≠ 0) : cstr (pre ++ text) pre.length = text := by
  simpa using @cstr_ends pre _ _ h (Or.inl rfl)

/-- A buffer holds a string and what is behind it. -/
lemma cstr_append_ends (buf : Str) : ∃ junk, buf = cstr buf 0 ++ junk ∧ Ends junk ∧ ∀ c ∈ cstr buf 0, c ≠ 0 := by
  refine ⟨buf.dropWhile (· ≠ 0), ?_, ?_, fun c hc => ?_⟩
  · rw [cstr, List.drop_zero, List.takeWhile_append_dropWhile]
  · cases hd : buf.dropWhile (· ≠ 0) with
    | nil => exact Or.inl rfl
    | cons c t =>
      have hc := List.head_dropWhile_not (fun c : UInt8 => decide (c ≠ 0)) (l := buf) (by rw [hd]; simp)
      simp only [hd, List.head_cons] at hc
      exact Or.inr ⟨t, by simpa using hc⟩
  · simpa using List.mem_takeWhile_imp hc

section NextToken

variable {pre b w t junk : Str} {c : UInt8}

/-- Where `next_token` finds the first word. -/
lemma token_spans (hb : ∀ c ∈ b, c ≠ 0 ∧ c ∈ delims) (hw : ∀ c ∈ w, c ≠ 0 ∧ c ∉ delims)
    (hwt : ∀ c, (w ++ t)[0]? = some c → c = 0 ∨ c ∉ delims) (ht : ∀ c, t[0]? = some c → c = 0 ∨ c ∈ delims) :
    strspn (delims ++ [0]) ((pre ++ (b ++ (w ++ t)) ++ [0]).drop pre.length) = .ok b.length ∧
      strcspn (delims ++ [0]) ((pre ++ (b ++ (w ++ t)) ++ [0]).drop (pre.length + b.length)) = .ok w.length := by
  constructor
  · rw [List.append_assoc, List.drop_left, strspn_end (by decide), takeWhile_prefix]
    · simpa using hb
    · intro c hc
      simpa using (hwt c hc).elim (fun h0 hne => absurd h0 hne) fun hnot _ => hnot
  · have hbuf : pre ++ (b ++ (w ++ t)) ++ [0] = pre ++ b ++ (w ++ t ++ [0]) := by simp
    rw [hbuf, ← List.length_append, List.drop_left, strcspn_end (by decide), takeWhile_prefix]
    · simpa using hw
    · intro c hc
      simpa using (ht c hc).elim (fun h0 hne => absurd h0 hne) fun hmem _ => hmem

lemma Ends.head (hj : Ends junk) (h : junk[0]? = some c) : c = 0 := by
  rcases hj with rfl | ⟨t, rfl⟩
  · cases h
  · exact (Option.some.inj h).symm

lemma nextToken_blank (hb : ∀ c ∈ b, c ≠ 0 ∧ c ∈ delims) (hj : Ends junk) :
    nextToken (delims ++ [0]) (pre ++ (b ++ junk) ++ [0]) (some pre.length) =
      .ok (none, none, pre ++ (b ++ junk) ++ [0]) := by
  obtain ⟨hstart, hend⟩ := @token_spans pre b [] junk hb (by simp) (fun c hc => Or.inl (hj.head hc))
    fun c hc => Or.inl (hj.head hc)
  rw [List.nil_append] at hstart hend
  rw [nextToken, hstart, ok_bind, hend, ok_bind]
  rfl

lemma word_head {r : Str} (hw : ∀ c ∈ w, c ≠ 0 ∧ c ∉ delims) (hne : w ≠ []) (h : (w ++ r)[0]? = some c) :
    c ∉ delims := by
  obtain ⟨x, w', rfl⟩ := List.exists_cons_of_ne_nil hne
  obtain rfl : x = c := by simpa using h
  exact (hw x List.mem_cons_self).2

lemma nextToken_end (hb : ∀ c ∈ b, c ≠ 0 ∧ c ∈ delims) (hw : ∀ c ∈ w, c ≠ 0 ∧ c ∉ delims)
    (hne : w ≠ []) (hj : Ends junk) :
    nextToken (delims ++ [0]) (pre ++ (b ++ (w ++ junk)) ++ [0]) (some pre.length) =
      .ok (some (pre.length + b.length), none, pre ++ (b ++ (w ++ junk)) ++ [0]) := by
  obtain ⟨hstart, hend⟩ := @token_spans pre b w junk hb hw (fun c hc => Or.inr (word_head hw hne hc))
    fun c hc => Or.inl (hj.head hc)
  have hlen : w.length ≠ 0 := by simpa using hne
  have hbuf : pre ++ (b ++ (w ++ junk)) ++ [0] = (pre ++ b ++ w) ++ (junk ++ [0]) := by simp
  have hpos : pre.length + (b.length + w.length) = (pre ++ b ++ w).length := by simp
  have hnul : (pre ++ (b ++ (w ++ junk)) ++ [0])[pre.length + (b.length + w.length)]? = some 0 := by
    rw [hbuf, hpos, List.getElem?_append_right le_rfl, Nat.sub_self]
    rcases hj with rfl | ⟨t, rfl⟩ <;> rfl
  rw [nextToken, hstart, ok_bind, hend, ok_bind, if_neg hlen]
  dsimp only
  rw [hnul]
  rfl

lemma nextToken_word (hb : ∀ c ∈ b, c ≠ 0 ∧ c ∈ delims) (hw : ∀ c ∈ w, c ≠ 0 ∧ c ∉ delims)
    (hne : w ≠ []) (hc : c ≠ 0 ∧ c ∈ delims) :
    nextToken (delims ++ [0]) (pre ++ (b ++ (w ++ c :: t)) ++ [0]) (some pre.length) =
      .ok (some (pre.length + b.length), some (pre ++ (b ++ (w ++ [0]))).length,
        pre ++ (b ++ (w ++ [0])) ++ t ++ [0]) := by
  obtain ⟨hstart, hend⟩ := @token_spans pre b w (c :: t) hb hw (fun c hc => Or.inr (word_head hw hne hc))
    fun d hd => Or.inr ((Option.some.inj hd) ▸ hc.2)
  have hlen : w.length ≠ 0 := by simpa using hne
  have hbuf : pre ++ (b ++ (w ++ c :: t)) ++ [0] = (pre ++ b ++ w) ++ c :: (t ++ [0]) := by simp
  have hpos : pre.length + (b.length + w.length) = (pre ++ b ++ w).length := by simp
  have hget : (pre ++ (b ++ (w ++ c :: t)) ++ [0])[pre.length + (b.length + w.length)]? = some c := by
    rw [hbuf, hpos, List.getElem?_append_right le_rfl, Nat.sub_self]
    rfl
  rw [nextToken, hstart, ok_bind, hend, ok_bind, if_neg hlen]
  dsimp only
  rw [hget]
  dsimp only
  rw [if_neg hc.1, hbuf, hpos, List.set_append_right _ _ le_rfl, Nat.sub_self]
  simp
  rfl

end NextToken

lemma tokenizeLoop_null (fuel : Nat) (buf : Str) (toks : List Nat) :
    tokenizeLoop (fuel + 1) buf none toks =
      if toks.length < 128 then .ok (toks, buf) else .error .wild := by
  rw [tokenizeLoop, nextToken]
  change (if toks.length < 128 then Except.ok (toks, (buf ++ [0]).dropLast) else .error Stop.wild) = _
  rw [List.dropLast_concat]

/-- What comes of a text behind `pre`, up to the end of the string: the pointers lead to its words, and
before the first NUL stands the text up to the end of its first word. -/
def Tokenizes (fuel : Nat) (pre text junk : Str) (toks : List Nat) : Prop := ∃ ptrs text',
  tokenizeLoop fuel (pre ++ (text ++ junk)) (some pre.length) toks =
      (if toks.length + (words text).length < 128 then .ok (toks ++ ptrs, pre ++ (text' ++ junk)) else .error .wild) ∧
    ptrs.map (cstr (pre ++ (text' ++ junk))) = words text ∧
    (text' ++ junk).takeWhile (· ≠ 0) = upToFirstWord text

section Tokenizes

variable {fuel : Nat} {pre text b w t junk : Str} {toks : List Nat} {c : UInt8}

lemma takeWhile_ends (h : ∀ c ∈ text, c ≠ 0) (hj : Ends junk) : (text ++ junk).takeWhile (· ≠ 0) = text := by
  have hcstr := @cstr_ends [] _ _ h hj
  rwa [List.nil_append, cstr, List.length_nil, List.drop_zero] at hcstr

lemma IsText.delim (h : IsText text) (hc : c ∈ text) : c ∈ delims ↔ isBlank c = true := mem_delims (h c hc).2

/-- Blanks of a text. -/
lemma IsText.blanks (h : IsText text) (hb : ∀ c ∈ b, isBlank c = true) (hsub : ∀ c ∈ b, c ∈ text) :
    ∀ c ∈ b, c ≠ 0 ∧ c ∈ delims :=
  fun c hc => ⟨(h c (hsub c hc)).1, (h.delim (hsub c hc)).mpr (hb c hc)⟩

/-- A word of a text. -/
lemma IsText.word (h : IsText text) (hw : ∀ c ∈ w, isBlank c = false) (hsub : ∀ c ∈ w, c ∈ text) :
    ∀ c ∈ w, c ≠ 0 ∧ c ∉ delims := by
  intro c hc
  refine ⟨(h c (hsub c hc)).1, fun hd => ?_⟩
  rw [h.delim (hsub c hc), hw c hc] at hd
  cases hd

/-- No word is left. -/
lemma tokenizes_blank (htext : IsText text) (hblank : ∀ c ∈ text, isBlank c = true) (hj : Ends junk) :
    Tokenizes (fuel + 1) pre text junk toks := by
  refine ⟨[], text, ?_, ?_, ?_⟩
  · rw [tokenizeLoop, nextToken_blank (htext.blanks hblank fun _ hc => hc) hj, words_blank hblank, List.append_nil,
      ok_bind]
    dsimp only
    rw [List.dropLast_concat]
    rfl
  · rw [words_blank hblank]
    rfl
  · rw [takeWhile_ends (fun c hc => (htext c hc).1) hj, upToFirstWord_blank hblank]

/-- The last word. -/
lemma tokenizes_last (htext : IsText (b ++ w)) (hb : ∀ c ∈ b, isBlank c = true) (hne : w ≠ [])
    (hw : ∀ c ∈ w, isBlank c = false) (hj : Ends junk) : Tokenizes (fuel + 2) pre (b ++ w) junk toks := by
  have hbd := htext.blanks hb fun c hc => List.mem_append_left w hc
  have hwd := htext.word hw fun c hc => List.mem_append_right b hc
  have hwords := words_of_word hb hne hw (Or.inl (rfl : ([] : Str) = []))
  have hfirst := upToFirstWord_word hb hne hw (Or.inl (rfl : ([] : Str) = []))
  rw [List.append_nil, words_nil] at hwords
  rw [List.append_nil] at hfirst
  refine ⟨[pre.length + b.length], b ++ w, ?_, ?_, ?_⟩
  · rw [List.append_assoc, tokenizeLoop, nextToken_end hbd hwd hne hj, hwords, ok_bind]
    dsimp only
    rw [List.dropLast_concat, tokenizeLoop_null, List.length_append]
    simp only [List.length_singleton]
    by_cases hlt : toks.length < 128
    · rw [if_pos hlt]
    · rw [if_neg hlt, if_neg (by omega)]
      rfl
  · rw [hwords, List.map_singleton, List.append_assoc, ← List.append_assoc pre, ← List.length_append,
      cstr_ends (fun c hc => (hwd c hc).1) hj]
  · rw [takeWhile_ends (fun c hc => (htext c hc).1) hj, hfirst]

/-- A word with a delimiter behind it, which becomes a NUL. -/
lemma tokenizes_word (htext : IsText (b ++ (w ++ c :: t))) (hb : ∀ c ∈ b, isBlank c = true) (hne : w ≠ [])
    (hw : ∀ c ∈ w, isBlank c = false) (hc : isBlank c = true)
    (h : Tokenizes fuel (pre ++ (b ++ (w ++ [0]))) t junk (toks ++ [pre.length + b.length])) :
    Tokenizes (fuel + 1) pre (b ++ (w ++ c :: t)) junk toks := by
  have hbd := htext.blanks hb fun c hc => by simp [hc]
  have hwd := htext.word hw fun c hc => by simp [hc]
  have hcin : c ∈ b ++ (w ++ c :: t) := by simp
  have hcd : c ≠ 0 ∧ c ∈ delims := ⟨(htext c hcin).1, (htext.delim hcin).mpr hc⟩
  have hwords := words_of_word hb hne hw (Or.inr ⟨c, t, rfl, hc⟩)
  have hfirst := upToFirstWord_word hb hne hw (Or.inr ⟨c, t, rfl, hc⟩)
  rw [words_blank_cons hc] at hwords
  obtain ⟨ptrs, t', hloop, hptrs, -⟩ := h
  have hassoc : pre ++ (b ++ (w ++ [0])) ++ (t' ++ junk) = (pre ++ b) ++ (w ++ 0 :: (t' ++ junk)) := by simp
  have hout : pre ++ (b ++ (w ++ 0 :: t') ++ junk) = (pre ++ b) ++ (w ++ 0 :: (t' ++ junk)) := by simp
  have hin : pre ++ (b ++ (w ++ c :: t) ++ junk) = pre ++ (b ++ (w ++ c :: (t ++ junk))) := by simp
  refine ⟨(pre.length + b.length) :: ptrs, b ++ (w ++ 0 :: t'), ?_, ?_, ?_⟩
  · rw [hin, hout, tokenizeLoop, nextToken_word hbd hwd hne hcd, hwords, ok_bind]
    dsimp only
    rw [List.dropLast_concat, hloop]
    simp only [List.length_append, List.length_cons]
    by_cases hlt : toks.length < 128
    · rw [if_pos hlt, hassoc]
      simp [Nat.add_assoc, Nat.add_comm]
    · rw [if_neg hlt, if_neg (by omega)]
      rfl
  · rw [hassoc] at hptrs
    rw [hout, List.map_cons, hptrs, ← List.length_append, cstr_append fun c hc => (hwd c hc).1, hwords]
  · rw [hfirst]
    have hpos : ∀ x ∈ b ++ w, decide (x ≠ 0) = true := by
      intro x hx
      have hx' : x ∈ b ++ (w ++ c :: t) := by
        rw [← List.append_assoc]
        exact List.mem_append_left _ hx
      simpa using (htext x hx').1
    have hout' : b ++ (w ++ 0 :: t') ++ junk = (b ++ w) ++ 0 :: (t' ++ junk) := by simp
    rw [hout', List.takeWhile_append_of_pos hpos]
    simp

lemma tokenizeLoop_eq (pre : Str) (htext : IsText text) (hj : Ends junk) (hfuel : text.length < fuel)
    (toks : List Nat) : Tokenizes fuel pre text junk toks := by
  induction fuel generalizing pre text toks with
  | zero => omega
  | succ fuel ih =>
    rcases blank_or_word text with hblank | ⟨b, w, t, rfl, hb, hne, hw, ht⟩
    · exact tokenizes_blank htext hblank hj
    have hwpos : 0 < w.length := List.length_pos_of_ne_nil hne
    simp only [List.length_append] at hfuel
    rcases ht with rfl | ⟨c, t, rfl, hc⟩
    · rw [List.append_nil] at htext ⊢
      obtain ⟨fuel, rfl⟩ : ∃ f, fuel = f + 1 := ⟨fuel - 1, by omega⟩
      exact tokenizes_last htext hb hne hw hj
    · have ht : IsText t := fun x hx => htext x (by simp [hx])
      simp only [List.length_cons] at hfuel
      exact tokenizes_word htext hb hne hw hc (ih _ ht (by omega) _)

end Tokenizes

/-! ### One line -/

/-- The words of a line before its comment. -/
def command (line : Str) : List Str := words (cutComment line)

/-- The text of a line with the comment removed and trailing blanks trimmed. -/
def lineText (line : Str) : Str := trimEnd (cutComment line)

lemma IsText.cutComment {line : Str} (h : IsText line) : IsText (cutComment line) :=
  fun c hc => h c ((List.takeWhile_sublist _).subset hc)

lemma trimEnd_append (text : Str) : trimEnd text ++ text.rtakeWhile isBlank = text :=
  List.rdropWhile_append_rtakeWhile

lemma IsText.trimEnd {text : Str} (h : IsText text) : IsText (trimEnd text) := by
  intro c hc
  apply h c
  rw [← trimEnd_append text]
  exact List.mem_append_left _ hc

lemma words_trimEnd (text : Str) : words (trimEnd text) = words text := by
  have hblank : ∀ c ∈ text.rtakeWhile isBlank, isBlank c = true :=
    fun _ hc => List.mem_rtakeWhile_imp hc
  rw [← words_append_blank hblank, trimEnd_append]

/-- The words of the string in `buf` when it is cut into tokens. -/
def lineWords (line : Str) : List Str := words (cstr (lineText line) 0)

lemma isText_cstr {line : Str} (h : 10 ∉ line) : IsText (cstr (lineText line) 0) := by
  obtain ⟨junk, hbuf, -, hne⟩ := cstr_append_ends (lineText line)
  refine fun c hc => ⟨hne c hc, ?_⟩
  rintro rfl
  have hin : (10 : UInt8) ∈ lineText line := by
    rw [hbuf]
    exact List.mem_append_left _ hc
  have hin' : (10 : UInt8) ∈ cutComment line := by
    rw [← trimEnd_append (cutComment line)]
    exact List.mem_append_left _ hin
  exact h ((List.takeWhile_sublist _).subset hin')

lemma getD_zero_of_cstr {buf : Str} : buf.getD 0 0 = 0 ↔ cstr buf 0 = [] := by
  cases buf with
  | nil => simp [cstr]
  | cons c buf =>
    by_cases hc : c = 0 <;> simp [cstr, hc]

/-- The shell finds the words of the string in `buf`; a line of 128 words has no room in `tokens` for the
null pointer at the end. -/
lemma parseLine_words {line : Str} (h : 10 ∉ line) : parseLine line =
    if lineWords line = [] then .ok none
    else if (lineWords line).length < 128 then
      .ok (some (upToFirstWord (cstr (lineText line) 0), lineWords line))
    else .error .wild := by
  have hempty : cstr (lineText line) 0 = [] → lineWords line = [] := by
    intro he
    rw [lineWords, he, words_nil]
  unfold parseLine
  by_cases hnil : line.getD 0 0 = 0
  · have hnone : cstr (lineText line) 0 = [] := by
      rw [← getD_zero_of_cstr]
      cases line with
      | nil => rfl
      | cons c line =>
        obtain rfl : c = 0 := by simpa using hnil
        have hcut : cutComment (0 :: line) = 0 :: cutComment line := by simp [cutComment]
        have htrim : ∀ t : Str, (trimEnd (0 :: t)).getD 0 0 = 0 := by
          intro t
          unfold trimEnd
          have hlast := List.rdropWhile_append_rtakeWhile (p := isBlank) (l := 0 :: t)
          cases hd : (0 :: t).rdropWhile isBlank with
          | nil => rfl
          | cons x t' =>
            rw [hd, List.cons_append] at hlast
            obtain ⟨rfl, -⟩ := List.cons.inj hlast
            rfl
        rw [lineText, hcut]
        exact htrim _
    rw [if_pos hnil, if_pos (hempty hnone)]
    rfl
  rw [if_neg hnil]
  by_cases hhash : line.getD 0 0 = 35
  · have hcut : cutComment line = [] := by
      cases line with
      | nil => rfl
      | cons c line =>
        have hc : c = 35 := by simpa using hhash
        simp [cutComment, hc]
    have hnone : cstr (lineText line) 0 = [] := by
      rw [lineText, hcut]
      rfl
    rw [if_pos hhash, if_pos (hempty hnone)]
    rfl
  rw [if_neg hhash]
  show (if (lineText line).getD 0 0 = 0 then _ else _) = _
  by_cases htnil : (lineText line).getD 0 0 = 0
  · rw [if_pos htnil, if_pos (hempty (getD_zero_of_cstr.mp htnil))]
    rfl
  rw [if_neg htnil]
  obtain ⟨junk, hbuf, hj, -⟩ := cstr_append_ends (lineText line)
  have hfuel : (cstr (lineText line) 0).length < (lineText line).length + 1 := by
    have := congrArg List.length hbuf
    rw [List.length_append] at this
    omega
  obtain ⟨ptrs, text', hloop, hptrs, hfirst⟩ := tokenizeLoop_eq [] (isText_cstr h) hj hfuel []
  simp only [List.nil_append, List.length_nil, Nat.zero_add] at hloop hptrs
  rw [← hbuf] at hloop
  change _ = if (lineWords line).length < 128 then _ else _ at hloop
  change _ = lineWords line at hptrs
  have hlen : ptrs.length = (lineWords line).length := by rw [← hptrs, List.length_map]
  show (tokenizeLoop ((lineText line).length + 1) (lineText line) (some 0) [] >>= _) = _
  rw [hloop]
  by_cases hlt : (lineWords line).length < 128
  · rw [if_pos hlt, if_pos hlt, ok_bind]
    dsimp only
    by_cases hnone : lineWords line = []
    · rw [if_pos hnone, if_pos (by rw [hlen, hnone]; rfl)]
      rfl
    · have hcount : ¬ ptrs.length = 0 := by
        rw [hlen]
        exact mt List.length_eq_zero_iff.mp hnone
      rw [if_neg hcount, if_neg hnone, hptrs, cstr, List.drop_zero, hfirst]
      rfl
  · have hne : lineWords line ≠ [] := by
      intro he
      rw [he] at hlt
      exact hlt (by decide)
    rw [if_neg hlt, if_neg hlt, if_neg hne]
    rfl

/-- Without a NUL in the line these are the words before the comment. -/
lemma IsText.cstr_lineText {line : Str} (h : IsText line) : cstr (lineText line) 0 = lineText line := by
  have htext : IsText (lineText line) := h.cutComment.trimEnd
  rw [cstr, List.drop_zero, List.takeWhile_eq_self_iff]
  exact fun c hc => by simpa using (htext c hc).1

lemma parseLine_eq {line : Str} (h : IsText line) : parseLine line =
    if command line = [] then .ok none
    else if (command line).length < 128 then
      .ok (some (upToFirstWord (lineText line), command line))
    else .error .wild := by
  have hwords : lineWords line = command line := by
    rw [lineWords, h.cstr_lineText, lineText, words_trimEnd, command]
  rw [parseLine_words fun h10 => (h 10 h10).2 rfl, hwords, h.cstr_lineText]

end FogOS.Shell
