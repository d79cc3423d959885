import Mathlib.Data.List.GetD
import FogOS.Shell.Tokens

/-!
# Tokens in place

Tokenizing with any delimiters and a buffer that a NUL ends: the calls of `next_token` of
`user/crash.c` cut the text into its maximal runs of other bytes.
The counters are below `2 ^ 32`, as an array of that size does not fit into memory.
-/

namespace FogOS.Shell.InPlace

open Kernel

/-! ### All calls -/

/-- Call `next_token` until it returns a null pointer: the pointers it has returned, and the
buffer. -/
def tokenize (delim : Str) : Nat → Str → Option Nat → Except Stop (List Nat × Str)
  | 0, _, _ => throw .sleep
  | fuel + 1, buf, strPtr => do
    match ← nextToken delim buf strPtr with
    | (none, _, buf) => pure ([], buf)
    | (some tok, strPtr, buf) =>
      let (toks, buf) ← tokenize delim fuel buf strPtr
      pure (tok :: toks, buf)

/-! ### Prefixes -/

section Prefixes

variable {delim text : Str}

lemma takeWhile_text {q : UInt8 → Prop} [DecidablePred q] (ht : 0 ∉ text) :
    (text.takeWhile fun c => c ≠ 0 ∧ q c) = text.takeWhile (q ·) := by
  induction text with
  | nil => rfl
  | cons c text ih =>
    rw [List.mem_cons, not_or] at ht
    rw [List.takeWhile_cons, List.takeWhile_cons, ih ht.2]
    simp [Ne.symm ht.1]

lemma strspn_text (hd : 0 ∉ delim) (ht : 0 ∉ text) :
    strspn (delim ++ [0]) (text ++ [0]) = .ok (text.takeWhile (· ∈ delim)).length := by
  rw [strspn_end hd, takeWhile_text ht]

lemma strcspn_text (hd : 0 ∉ delim) (ht : 0 ∉ text) :
    strcspn (delim ++ [0]) (text ++ [0]) = .ok (text.takeWhile (· ∉ delim)).length := by
  rw [strcspn_end hd, takeWhile_text ht]

end Prefixes

/-! ### Runs -/

/-- From the `q`-th byte of the text on, `n` bytes are a maximal run of bytes that are not
delimiters. -/
structure IsRun (delim text : Str) (q n : Nat) : Prop where
  pos : 0 < n
  outside : ∀ i, q ≤ i → i < q + n → ∃ c, text[i]? = some c ∧ c ∉ delim
  left : ∀ i c, i + 1 = q → text[i]? = some c → c ∈ delim
  right : ∀ c, text[q + n]? = some c → c ∈ delim

section Runs

variable {delim text w : Str} {q n : Nat} {c : UInt8}

lemma not_isRun_nil : ¬ IsRun delim [] q n := by
  intro h
  obtain ⟨c, hc, -⟩ := h.outside q le_rfl (Nat.lt_add_of_pos_right h.pos)
  cases hc

/-- A delimiter in front shifts the runs. -/
lemma isRun_delim (hc : c ∈ delim) :
    IsRun delim (c :: text) q n ↔ ∃ q', q = q' + 1 ∧ IsRun delim text q' n := by
  constructor
  · intro h
    obtain ⟨d, hd, hdelim⟩ := h.outside q le_rfl (Nat.lt_add_of_pos_right h.pos)
    cases q with
    | zero =>
      obtain rfl : c = d := by simpa using hd
      exact absurd hc hdelim
    | succ q =>
      refine ⟨q, rfl, h.pos, ?_, ?_, ?_⟩
      · intro i hlo hhi
        simpa using h.outside (i + 1) (by omega) (by omega)
      · intro i d hi hd
        exact h.left (i + 1) d (by omega) (by simpa using hd)
      · intro d hd
        refine h.right d ?_
        rw [Nat.add_right_comm]
        simpa using hd
  · rintro ⟨q, rfl, h⟩
    refine ⟨h.pos, ?_, ?_, ?_⟩
    · intro i hlo hhi
      obtain ⟨i, rfl⟩ : ∃ j, i = j + 1 := ⟨i - 1, by omega⟩
      simpa using h.outside i (by omega) (by omega)
    · intro i d hi hd
      cases i with
      | zero =>
        obtain rfl : c = d := by simpa using hd
        exact hc
      | succ i => exact h.left i d (by omega) (by simpa using hd)
    · intro d hd
      rw [Nat.add_right_comm] at hd
      exact h.right d (by simpa using hd)

/-- A text that begins with a word up to a delimiter or to the end has this word as a run, and the
runs of the rest. -/
lemma isRun_word (hne : w ≠ []) (hw : ∀ c ∈ w, c ∉ delim)
    (ht : ∀ c, text[0]? = some c → c ∈ delim) :
    IsRun delim (w ++ text) q n ↔
      (q = 0 ∧ n = w.length) ∨ ∃ q', q = w.length + q' ∧ IsRun delim text q' n := by
  have hpos : 0 < w.length := List.length_pos_iff.mpr hne
  have hin : ∀ i, i < w.length → ∃ c, (w ++ text)[i]? = some c ∧ c ∉ delim := by
    intro i hi
    refine ⟨w[i], ?_, hw _ (List.getElem_mem hi)⟩
    rw [List.getElem?_append_left hi, List.getElem?_eq_getElem hi]
  have hafter : ∀ i, (w ++ text)[w.length + i]? = text[i]? := by
    intro i
    rw [List.getElem?_append_right (Nat.le_add_right _ _), Nat.add_sub_cancel_left]
  constructor
  · intro h
    by_cases hq : q < w.length
    · refine Or.inl ?_
      have hq0 : q = 0 := by
        by_contra hq0
        obtain ⟨c, hc, hcd⟩ := hin (q - 1) (by omega)
        exact hcd (h.left (q - 1) c (by omega) hc)
      subst hq0
      refine ⟨rfl, le_antisymm ?_ ?_⟩
      · by_contra hlt
        obtain ⟨c, hc, hcd⟩ := h.outside w.length (Nat.zero_le _) (by omega)
        rw [← Nat.add_zero w.length, hafter] at hc
        exact hcd (ht c hc)
      · by_contra hlt
        obtain ⟨c, hc, hcd⟩ := hin n (by omega)
        exact hcd (h.right c (by simpa using hc))
    · refine Or.inr ⟨q - w.length, by omega, h.pos, ?_, ?_, ?_⟩
      · intro i hlo hhi
        rw [← hafter]
        exact h.outside (w.length + i) (by omega) (by omega)
      · intro i c hi hc
        rw [← hafter] at hc
        exact h.left (w.length + i) c (by omega) hc
      · intro c hc
        rw [← hafter] at hc
        exact h.right c (by rwa [show q + n = w.length + (q - w.length + n) by omega])
  · rintro (⟨rfl, rfl⟩ | ⟨q, rfl, h⟩)
    · refine ⟨hpos, ?_, ?_, ?_⟩
      · intro i _ hi
        exact hin i (by omega)
      · intro i c hi
        cases hi
      · intro c hc
        rw [Nat.zero_add, ← Nat.add_zero w.length, hafter] at hc
        exact ht c hc
    · refine ⟨h.pos, ?_, ?_, ?_⟩
      · intro i hlo hhi
        obtain ⟨i, rfl⟩ := Nat.exists_eq_add_of_le (show w.length ≤ i by omega)
        rw [hafter]
        exact h.outside i (by omega) (by omega)
      · intro i c hi hc
        -- a run of the rest does not begin where the word ends
        cases q with
        | zero =>
          obtain ⟨d, hd, hdelim⟩ := h.outside 0 le_rfl (by simpa using h.pos)
          exact absurd (ht d hd) hdelim
        | succ q =>
          obtain rfl : i = w.length + q := by omega
          rw [hafter] at hc
          exact h.left q c rfl hc
      · intro c hc
        rw [Nat.add_assoc, hafter] at hc
        exact h.right c hc

end Runs

/-! ### Cutting a text -/

/-- The text is cut into the tokens that begin at the given places; the text after that. -/
inductive Cut (delim : Str) : Str → List Nat → Str → Prop
  | nil : Cut delim [] [] []
  | skip {text text' : Str} {toks : List Nat} {c : UInt8} (hc : c ∈ delim)
      (h : Cut delim text toks text') : Cut delim (c :: text) (toks.map (1 + ·)) (c :: text')
  | last {w : Str} (hne : w ≠ []) (hw : ∀ c ∈ w, c ∉ delim) : Cut delim w [0] w
  | next {w text text' : Str} {toks : List Nat} {c : UInt8} (hne : w ≠ []) (hw : ∀ c ∈ w, c ∉ delim)
      (hc : c ∈ delim) (h : Cut delim text toks text') :
      Cut delim (w ++ c :: text) (0 :: toks.map (w.length + 1 + ·)) (w ++ 0 :: text')

namespace Cut

variable {delim text text' b : Str} {toks : List Nat}

lemma blank (hb : ∀ c ∈ b, c ∈ delim) (h : Cut delim text toks text') :
    Cut delim (b ++ text) (toks.map (b.length + ·)) (b ++ text') := by
  induction b with
  | nil => simpa using h
  | cons c b ih =>
    have hrest := skip (hb c List.mem_cons_self) (ih fun x hx => hb x (List.mem_cons_of_mem c hx))
    rw [List.map_map] at hrest
    have hfun : (fun q => (c :: b).length + q) = (1 + ·) ∘ (b.length + ·) := by
      funext q
      simp only [List.length_cons, Function.comp_apply]
      omega
    rwa [hfun]

lemma length_eq (h : Cut delim text toks text') : text'.length = text.length := by
  induction h with
  | nil => rfl
  | skip _ _ ih => simp [ih]
  | last => rfl
  | next _ _ _ _ ih => simp [ih]

/-- Only delimiters are overwritten. -/
lemma changed (h : Cut delim text toks text') (i : Nat) :
    text'[i]? = text[i]? ∨ text'[i]? = some 0 ∧ ∃ c ∈ delim, text[i]? = some c := by
  induction h generalizing i with
  | nil => exact Or.inl rfl
  | skip hc h ih =>
    cases i with
    | zero => exact Or.inl rfl
    | succ i => simpa using ih i
  | last => exact Or.inl rfl
  | @next w text text' _ c _ _ hc _ ih =>
    rcases Nat.lt_or_ge i w.length with hi | hi
    · refine Or.inl ?_
      rw [List.getElem?_append_left hi, List.getElem?_append_left hi]
    · obtain ⟨i, rfl⟩ := Nat.exists_eq_add_of_le hi
      simp only [List.getElem?_append_right (Nat.le_add_right _ _), Nat.add_sub_cancel_left]
      cases i with
      | zero => exact Or.inr ⟨rfl, c, hc, rfl⟩
      | succ i => simpa using ih i

/-- The tokens come in order. -/
lemma sorted (h : Cut delim text toks text') : toks.Pairwise (· < ·) := by
  induction h with
  | nil => exact List.Pairwise.nil
  | skip _ _ ih => exact ih.map _ fun _ _ hab => Nat.add_lt_add_left hab 1
  | last => exact List.pairwise_singleton _ _
  | next _ _ _ _ ih =>
    refine List.pairwise_cons.mpr ⟨?_, ih.map _ fun _ _ hab => Nat.add_lt_add_left hab _⟩
    intro q hq
    obtain ⟨q, -, rfl⟩ := List.mem_map.mp hq
    omega

/-- The tokens are the runs. -/
lemma mem_iff (h : Cut delim text toks text') (q : Nat) : q ∈ toks ↔ ∃ n, IsRun delim text q n := by
  induction h generalizing q with
  | nil => simp [not_isRun_nil]
  | skip hc _ ih =>
    simp only [List.mem_map, ih, isRun_delim hc]
    constructor
    · rintro ⟨q, ⟨n, hn⟩, rfl⟩
      exact ⟨n, q, Nat.add_comm 1 q, hn⟩
    · rintro ⟨n, q, rfl, hn⟩
      exact ⟨q, ⟨n, hn⟩, Nat.add_comm 1 q⟩
  | @last w hne hw =>
    have hruns := fun n => @isRun_word delim [] w q n hne hw (by simp)
    simp only [List.append_nil, not_isRun_nil, and_false, exists_false, or_false] at hruns
    simp [hruns]
  | @next w text text' toks c hne hw hc _ ih =>
    have hruns := fun n => @isRun_word delim (c :: text) w q n hne hw (by simp [hc])
    simp only [hruns, isRun_delim hc, List.mem_cons, List.mem_map, ih]
    constructor
    · rintro (rfl | ⟨q, ⟨n, hn⟩, rfl⟩)
      · exact ⟨w.length, Or.inl ⟨rfl, rfl⟩⟩
      · exact ⟨n, Or.inr ⟨q + 1, by omega, q, rfl, hn⟩⟩
    · rintro ⟨n, ⟨rfl, -⟩ | ⟨_, rfl, q, rfl, hn⟩⟩
      · exact Or.inl rfl
      · exact Or.inr ⟨q, ⟨n, hn⟩, by omega⟩

/-- Each token ends in a NUL. -/
lemma nul (h : Cut delim text toks text') {q n : Nat} (hrun : IsRun delim text q n) :
    (text' ++ [0])[q + n]? = some 0 := by
  induction h generalizing q n with
  | nil => exact absurd hrun not_isRun_nil
  | skip hc _ ih =>
    obtain ⟨q, rfl, hrest⟩ := (isRun_delim hc).mp hrun
    rw [Nat.add_right_comm]
    simpa using ih hrest
  | @last w hne hw =>
    rw [← List.append_nil w] at hrun
    rcases (isRun_word hne hw (by simp)).mp hrun with ⟨rfl, rfl⟩ | ⟨q, -, hrest⟩
    · simp
    · exact absurd hrest not_isRun_nil
  | @next w text text' toks c hne hw hc _ ih =>
    rcases (isRun_word hne hw (by simp [hc])).mp hrun with ⟨rfl, rfl⟩ | ⟨_, rfl, hdelim⟩
    · simp
    · obtain ⟨q, rfl, hrest⟩ := (isRun_delim hc).mp hdelim
      have hidx : w.length + (q + 1) + n = w.length + (q + n + 1) := by omega
      rw [hidx, List.append_assoc, List.getElem?_append_right (Nat.le_add_right _ _),
        Nat.add_sub_cancel_left]
      simpa using ih hrest

end Cut

/-! ### Tokenizing -/

section Tokenize

variable {delim text pre b w t : Str} {c : UInt8}

/-- A text has delimiters only, or it has a first word. -/
lemma delims_or_word (delim text : Str) : (∀ c ∈ text, c ∈ delim) ∨
    ∃ b w t, text = b ++ (w ++ t) ∧ (∀ c ∈ b, c ∈ delim) ∧ w ≠ [] ∧ (∀ c ∈ w, c ∉ delim) ∧
      ∀ c, t[0]? = some c → c ∈ delim := by
  induction text with
  | nil => simp
  | cons c text ih =>
    by_cases hc : c ∈ delim
    · rcases ih with hall | ⟨b, w, t, rfl, hb, hne, hw, ht⟩
      · exact Or.inl (by simpa [hc] using hall)
      · exact Or.inr ⟨c :: b, w, t, rfl, by simpa [hc] using hb, hne, hw, ht⟩
    · refine Or.inr ⟨[], c :: text.takeWhile (· ∉ delim), text.dropWhile (· ∉ delim), ?_, ?_, ?_,
        ?_, ?_⟩
      · simp
      · simp
      · simp
      · intro x hx
        rcases List.mem_cons.mp hx with rfl | hx
        · exact hc
        · simpa using List.mem_takeWhile_imp hx
      · intro x hx
        have hhead := List.head?_dropWhile_not (· ∉ delim) text
        rw [List.head?_eq_getElem?, hx] at hhead
        simpa using hhead

/-- Where only delimiters are left there is no token. -/
lemma nextToken_blank (hd : 0 ∉ delim) (ht : 0 ∉ text) (hall : ∀ c ∈ text, c ∈ delim) :
    nextToken (delim ++ [0]) (pre ++ (text ++ [0])) (some pre.length) =
      .ok (none, none, pre ++ (text ++ [0])) := by
  have hstart : text.takeWhile (· ∈ delim) = text := by
    rw [List.takeWhile_eq_self_iff]
    simpa using hall
  have hrest : (pre ++ (text ++ [0])).drop (pre.length + text.length) = [] ++ [0] := by
    rw [← List.append_assoc, ← List.length_append, List.drop_left, List.nil_append]
  rw [nextToken, List.drop_left, strspn_text hd ht, ok_bind, hstart, hrest,
    strcspn_text hd List.not_mem_nil, ok_bind]
  rfl

/-- Where there is a word, it is the token, and the byte after it is looked at. -/
lemma nextToken_word (hd : 0 ∉ delim) (hb : ∀ c ∈ b, c ∈ delim) (hne : w ≠ [])
    (hw : ∀ c ∈ w, c ∉ delim) (ht : ∀ c, t[0]? = some c → c ∈ delim) (h0 : 0 ∉ b ++ (w ++ t)) :
    nextToken (delim ++ [0]) (pre ++ (b ++ (w ++ t) ++ [0])) (some pre.length) =
      .ok (some (pre.length + b.length), match t with
        | [] => (none, pre ++ (b ++ (w ++ []) ++ [0]))
        | _ :: t => (some (pre.length + (b.length + w.length) + 1),
          pre ++ (b ++ (w ++ 0 :: t) ++ [0]))) := by
  have hstart : (b ++ (w ++ t)).takeWhile (· ∈ delim) = b := by
    refine takeWhile_prefix (by simpa using hb) fun c hc => ?_
    obtain ⟨x, w', rfl⟩ := List.exists_cons_of_ne_nil hne
    obtain rfl : x = c := by simpa using hc
    simpa using hw x List.mem_cons_self
  have hend : (w ++ t).takeWhile (· ∉ delim) = w :=
    takeWhile_prefix (by simpa using hw) fun c hc => by simpa using ht c hc
  have hrest : (pre ++ (b ++ (w ++ t) ++ [0])).drop (pre.length + b.length) = w ++ t ++ [0] := by
    rw [List.append_assoc b, ← List.append_assoc pre, ← List.length_append, List.drop_left]
  have hlen : w.length ≠ 0 := by simpa using hne
  have hat : ∀ r : Str, (pre ++ (b ++ (w ++ r) ++ [0])) = (pre ++ b ++ w) ++ (r ++ [0]) := by
    intro r
    simp only [List.append_assoc]
  have hidx : pre.length + (b.length + w.length) = (pre ++ b ++ w).length := by
    simp only [List.length_append, Nat.add_assoc]
  have h0t : 0 ∉ w ++ t := fun h => h0 (List.mem_append_right b h)
  rw [nextToken, List.drop_left, strspn_text hd h0, ok_bind, hstart, hrest, strcspn_text hd h0t,
    ok_bind, hend, if_neg hlen, hidx]
  simp only [hat]
  cases t with
  | nil =>
    simp
    rfl
  | cons c t =>
    have hc : c ≠ 0 := by
      rintro rfl
      exact h0 (by simp)
    simp [hc]
    rfl

/-- Tokenizing ends, stays inside the buffer and cuts the text. -/
lemma tokenize_cut (hd : 0 ∉ delim) {fuel : Nat} (hfuel : text.length < fuel) (ht : 0 ∉ text) :
    ∃ toks text', Cut delim text toks text' ∧
      tokenize (delim ++ [0]) fuel (pre ++ (text ++ [0])) (some pre.length) =
        .ok (toks.map (pre.length + ·), pre ++ (text' ++ [0])) := by
  induction fuel generalizing text pre with
  | zero => exact absurd hfuel (Nat.not_lt_zero _)
  | succ fuel ih =>
    rw [tokenize]
    rcases delims_or_word delim text with hall | ⟨b, w, t, rfl, hb, hne, hw, hdelim⟩
    · refine ⟨[], text, ?_, ?_⟩
      · simpa using Cut.nil.blank hall
      · rw [nextToken_blank hd ht hall]
        rfl
    · rw [nextToken_word hd hb hne hw hdelim ht, ok_bind]
      cases t with
      | nil =>
        rw [List.append_nil]
        refine ⟨_, _, (Cut.last hne hw).blank hb, ?_⟩
        cases fuel with
        | zero =>
          have hpos := List.length_pos_iff.mpr hne
          simp only [List.length_append, List.length_nil] at hfuel
          omega
        | succ fuel =>
          simp only [tokenize, nextToken, List.map_map]
          rfl
      | cons c t =>
        have hlt : t.length < fuel := by
          simp only [List.length_append, List.length_cons] at hfuel
          omega
        have h0t : 0 ∉ t := fun h => ht (by simp [h])
        obtain ⟨toks, t', hcut, htok⟩ := @ih t (pre ++ b ++ w ++ [0]) hlt h0t
        refine ⟨_, _, (Cut.next hne hw (hdelim c rfl) hcut).blank hb, ?_⟩
        have hbuf : ∀ r : Str,
            pre ++ (b ++ (w ++ 0 :: r) ++ [0]) = pre ++ b ++ w ++ [0] ++ (r ++ [0]) := by
          intro r
          simp
        have hidx : pre.length + (b.length + w.length) + 1 = (pre ++ b ++ w ++ [0]).length := by
          simp only [List.length_append, List.length_singleton, Nat.add_assoc]
        simp only [hbuf, hidx, htok, ok_bind]
        rw [List.map_cons, List.map_cons, List.map_map, List.map_map]
        congr 3
        · refine List.map_congr_left fun q _ => ?_
          simp only [Function.comp_apply, List.length_append, List.length_singleton]
          omega

/-- Bytes that are not NUL and that a NUL ends are a string. -/
lemma cstr_of_bytes {buf text : Str} {q n : Nat}
    (hkept : ∀ i, i < n → ∃ c, buf[q + i]? = some c ∧ text[q + i]? = some c ∧ c ≠ 0)
    (hnul : buf[q + n]? = some 0) : cstr buf q = (text.drop q).take n := by
  have htake : (buf.drop q).take n = (text.drop q).take n := by
    refine List.ext_getElem? fun i => ?_
    rcases Nat.lt_or_ge i n with hi | hi
    · obtain ⟨c, hc, hc', -⟩ := hkept i hi
      rw [List.getElem?_take_of_lt hi, List.getElem?_take_of_lt hi, List.getElem?_drop,
        List.getElem?_drop, hc, hc']
    · rw [List.getElem?_take_eq_none hi, List.getElem?_take_eq_none hi]
  have hcut := List.take_append_drop n (buf.drop q)
  rw [cstr, ← hcut, takeWhile_prefix, htake]
  · intro c hc
    obtain ⟨i, hi⟩ := List.mem_iff_getElem?.mp hc
    have hin : i < n := by
      by_contra hge
      rw [List.getElem?_take_eq_none (not_lt.mp hge)] at hi
      cases hi
    obtain ⟨d, hd, -, hd0⟩ := hkept i hin
    rw [List.getElem?_take_of_lt hin, List.getElem?_drop, hd] at hi
    cases hi
    simpa using hd0
  · intro c hc
    rw [List.getElem?_drop, List.getElem?_drop, Nat.add_zero, hnul] at hc
    cases hc
    rfl

/-- The bytes of a run stay, and it is the string its first byte begins. -/
lemma Cut.cstr_run {text' : Str} {toks : List Nat} (h : Cut delim text toks text') (ht : 0 ∉ text)
    {q n : Nat} (hrun : IsRun delim text q n) : cstr (text' ++ [0]) q = (text.drop q).take n := by
  refine cstr_of_bytes (fun i hi => ?_) (h.nul hrun)
  obtain ⟨c, hc, hcd⟩ := hrun.outside (q + i) (Nat.le_add_right q i) (Nat.add_lt_add_left hi q)
  have hlt : q + i < text'.length := by
    rw [h.length_eq]
    exact (List.getElem?_eq_some_iff.mp hc).1
  refine ⟨c, ?_, hc, fun h0 => ht (h0 ▸ List.mem_of_getElem? hc)⟩
  rw [List.getElem?_append_left hlt]
  rcases h.changed (q + i) with hsame | ⟨-, d, hd, hd'⟩
  · rw [hsame, hc]
  · obtain rfl : c = d := by simpa [hc] using hd'
    exact absurd hd hcd

/-- Tokenizing a line: the calls end, no access is outside the buffer or the delimiters, the
pointers are the beginnings of the maximal runs of other bytes in their order, each run is a string
now, and of the bytes of the buffer only delimiters have changed. -/
theorem tokenize_runs (hd : 0 ∉ delim) (ht : 0 ∉ text) {fuel : Nat} (hfuel : text.length < fuel) :
    ∃ (toks : List Nat) (buf : Str),
      tokenize (delim ++ [0]) fuel (text ++ [0]) (some 0) = .ok (toks, buf) ∧
      toks.Pairwise (· < ·) ∧
      (∀ q, q ∈ toks ↔ ∃ n, IsRun delim text q n) ∧
      (∀ q n, IsRun delim text q n →
        cstr buf q = (text.drop q).take n ∧ buf[q + n]? = some 0) ∧
      buf.length = (text ++ [0]).length ∧
      (∀ i : Nat, buf[i]? ≠ (text ++ [0])[i]? → buf[i]? = some 0 ∧ ∃ c ∈ delim, text[i]? = some c) ∧
      ∀ str, 0 ∉ str →
        strspn (delim ++ [0]) (str ++ [0]) = .ok (str.takeWhile (· ∈ delim)).length ∧
        strcspn (delim ++ [0]) (str ++ [0]) = .ok (str.takeWhile (· ∉ delim)).length := by
  obtain ⟨toks, text', hcut, htok⟩ := @tokenize_cut delim text [] hd fuel hfuel ht
  simp only [List.length_nil, Nat.zero_add, List.map_id', List.nil_append] at htok
  refine ⟨toks, text' ++ [0], htok, hcut.sorted, hcut.mem_iff, ?_, ?_, ?_, ?_⟩
  · intro q n hrun
    exact ⟨hcut.cstr_run ht hrun, hcut.nul hrun⟩
  · simp [hcut.length_eq]
  · intro i hi
    rcases Nat.lt_or_ge i text.length with hlt | hge
    · rw [List.getElem?_append_left hlt, List.getElem?_append_left (hcut.length_eq ▸ hlt)] at hi
      rw [List.getElem?_append_left (hcut.length_eq ▸ hlt)]
      exact (hcut.changed i).resolve_left hi
    · rw [List.getElem?_append_right hge, List.getElem?_append_right (hcut.length_eq ▸ hge),
        hcut.length_eq] at hi
      exact absurd rfl hi
  · intro str hstr
    exact ⟨strspn_text hd hstr, strcspn_text hd hstr⟩

theorem tokenize_runs_ls : ∃ toks buf, tokenize [32, 9, 10, 0] 7 [32, 108, 115, 9, 97, 0] (some 0) =
    .ok (toks, buf) ∧ ∀ q, q ∈ toks ↔ ∃ n, IsRun [32, 9, 10] [32, 108, 115, 9, 97] q n := by
  obtain ⟨toks, buf, h, -, hruns, -⟩ := @tokenize_runs [32, 9, 10]
    [32, 108, 115, 9, 97] (by decide) (by decide) 7 (by decide)
  exact ⟨toks, buf, h, hruns⟩

example : tokenize [32, 9, 10, 0] 7 [32, 108, 115, 9, 97, 0] (some 0) =
    .ok ([1, 4], [32, 108, 115, 0, 97, 0]) := by decide

end Tokenize

end FogOS.Shell.InPlace
