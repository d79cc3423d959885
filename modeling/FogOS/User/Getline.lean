import FogOS.Kernel.Basic

/-!
# Lines of any length

`fgets` and `getline` of `user/ulib.c`. A buffer is the list of its bytes, and an access beyond its
end is wild; a file is the list of the bytes that are still to be read. `malloc` succeeds, and what
its memory holds is arbitrary. The `int` sizes do not wrap around: each is the size of a buffer that
`malloc` has given out, and the machine has `2 ^ 27` bytes.
-/

namespace FogOS.User

open Kernel

/-- The bytes of a buffer, or of a file. -/
abbrev Bytes := List UInt8

/-- `'\n'` or `'\r'`. -/
def isEnd (c : UInt8) : Bool := c == 10 || c == 13

/-- Assignment to a byte of a buffer. -/
def store (buf : Bytes) (i : Nat) (c : UInt8) : Except Stop Bytes :=
  if i < buf.length then pure (buf.set i c) else throw .wild

/-- The lines of a text, each with the byte that ends it; the last one may have none. -/
def lines : Bytes → List Bytes
  | [] => []
  | c :: text =>
    if isEnd c then [c] :: lines text
    else
      match lines text with
      | [] => [[c]]
      | line :: rest => (c :: line) :: rest

/-! ### The functions -/

/-- The loop of `fgets` into `buf + start`, with room for `k` more bytes before the NUL. At the end
of the file the loop returns `-1`, without a NUL. -/
def fgetsLoop (start : Nat) : Nat → Nat → Bytes → Bytes → Except Stop (Int × Bytes × Bytes)
  | 0, i, buf, file => do
    let buf ← store buf (start + i) 0
    pure (i, buf, file)
  | _ + 1, _, buf, [] => pure (-1, buf, [])
  | k + 1, i, buf, c :: file => do
    let buf ← store buf (start + i) c
    if isEnd c then
      let buf ← store buf (start + (i + 1)) 0
      pure (i + 1, buf, file)
    else fgetsLoop start k (i + 1) buf file

/-- `fgets(buf + start, max, fd)`: the result, the buffer and the rest of the file. -/
def fgets (buf : Bytes) (start max : Nat) (file : Bytes) : Except Stop (Int × Bytes × Bytes) :=
  fgetsLoop start (max - 1) 0 buf file

/-- `strcmp` on the bytes that the pointers point to. -/
def strcmp : Bytes → Bytes → Except Stop Int
  | p :: ps, q :: qs => if p ≠ 0 ∧ p = q then strcmp ps qs else pure ((p.toNat : Int) - q.toNat)
  | _, _ => throw .wild

/-- `malloc` of `n` bytes, which hold anything. -/
def malloc (junk : Nat → UInt8) (n : Nat) : Bytes := (List.range n).map junk

/-- `memcpy(temp, buf, n)`. -/
def memcpy (temp buf : Bytes) (n : Nat) : Except Stop Bytes :=
  if n ≤ temp.length ∧ n ≤ buf.length then pure (buf.take n ++ temp.drop n) else throw .wild

/-- The loop of `getline`; `fuel` bounds the number of rounds. -/
def getlineLoop (junk : Nat → UInt8) :
    Nat → Bytes → Nat → Nat → Bytes → Except Stop (Int × Bytes × Bytes)
  | 0, _, _, _, _ => throw .sleep
  | fuel + 1, buf, size, charsRead, file => do
    let (currRead, buf, file) ← fgets buf charsRead (size - charsRead) file
    if currRead = 0 then pure (charsRead, buf, file)
    else if currRead < 0 then pure (-1, buf, file)
    else
      let charsRead := charsRead + currRead.toNat
      let buf ← memcpy (malloc junk (size * 2)) buf (charsRead + 1)
      let size := size * 2
      let lastChar := buf.drop (charsRead - 1)
      if (← strcmp lastChar [10, 0]) = 0 then pure (charsRead, buf, file)
      else if (← strcmp lastChar [13, 0]) = 0 then pure (charsRead, buf, file)
      else getlineLoop junk fuel buf size charsRead file

/-- `getline(&buf, size, fd)`: the result, the buffer and the rest of the file. A null pointer is
`none`. -/
def getline (junk : Nat → UInt8) (buf : Option Bytes) (size : Int) (file : Bytes) :
    Except Stop (Int × Bytes × Bytes) :=
  match buf with
  | none => getlineLoop junk (file.length + 1) (malloc junk 2) 2 0 file
  | some buf =>
    if size < 2 then getlineLoop junk (file.length + 1) (malloc junk 2) 2 0 file
    else getlineLoop junk (file.length + 1) buf size.toNat 0 file

@[simp] lemma malloc_length (junk : Nat → UInt8) (n : Nat) : (malloc junk n).length = n := by
  simp [malloc]

/-! ### Lines -/

section Lines

variable {c e : UInt8} {text body rest : Bytes}

lemma lines_end (he : isEnd e = true) : lines (e :: rest) = [e] :: lines rest := by
  rw [lines, if_pos he]

/-- The first line of a text. -/
lemma lines_first (hbody : ∀ c ∈ body, isEnd c = false) (he : isEnd e = true) :
    lines (body ++ e :: rest) = (body ++ [e]) :: lines rest := by
  induction body with
  | nil => exact lines_end he
  | cons c body ih =>
    have hc := hbody c List.mem_cons_self
    rw [List.cons_append, lines, if_neg (by simp [hc]),
      ih fun x hx => hbody x (List.mem_cons_of_mem c hx)]
    rfl

/-- A text without an end of line is one line. -/
lemma lines_last (hbody : ∀ c ∈ body, isEnd c = false) (hne : body ≠ []) : lines body = [body] := by
  induction body with
  | nil => exact absurd rfl hne
  | cons c body ih =>
    have hc := hbody c List.mem_cons_self
    rw [lines, if_neg (by simp [hc])]
    cases body with
    | nil => rfl
    | cons d body => rw [ih (fun x hx => hbody x (List.mem_cons_of_mem c hx)) (by simp)]

/-- A text has a first line that is ended, or no line that is. -/
lemma line_cases (text : Bytes) : (∀ c ∈ text, isEnd c = false) ∨
    ∃ body e rest, text = body ++ e :: rest ∧ (∀ c ∈ body, isEnd c = false) ∧ isEnd e = true := by
  induction text with
  | nil => exact Or.inl fun c hc => absurd hc List.not_mem_nil
  | cons c text ih =>
    cases hc : isEnd c with
    | true => exact Or.inr ⟨[], c, text, rfl, fun x hx => absurd hx List.not_mem_nil, hc⟩
    | false =>
      rcases ih with hall | ⟨body, e, rest, rfl, hbody, he⟩
      · exact Or.inl (List.forall_mem_cons.mpr ⟨hc, hall⟩)
      · exact Or.inr ⟨c :: body, e, rest, rfl, List.forall_mem_cons.mpr ⟨hc, hbody⟩, he⟩

/-- The lines are the text. -/
lemma lines_flatten (text : Bytes) : (lines text).flatten = text := by
  induction text with
  | nil => rfl
  | cons c text ih =>
    rw [lines]
    split
    · simp [ih]
    · cases hl : lines text with
      | nil => simpa [hl] using ih
      | cons line rest => simpa [hl] using ih

/-- The text is empty, or its last line is ended. -/
def Ended (text : Bytes) : Prop := ∀ c ∈ text.getLast?, isEnd c = true

lemma ended_first (he : isEnd e = true) : Ended (body ++ e :: rest) ↔ Ended rest := by
  unfold Ended
  cases hr : rest.getLast? with
  | none =>
    rw [List.getLast?_eq_none_iff] at hr
    subst hr
    simp [he]
  | some x => simp [List.getLast?_append, List.getLast?_cons, hr]

lemma ended_last (hbody : ∀ c ∈ body, isEnd c = false) : Ended body ↔ body = [] := by
  unfold Ended
  rcases List.eq_nil_or_concat body with rfl | ⟨l, x, rfl⟩
  · simp
  · have hx := hbody x (by simp)
    simp [hx]

end Lines

/-! ### One chunk -/

section Chunk

variable {c e : UInt8} {pre x body rest : Bytes} {start i k : Nat}

lemma store_at {d : UInt8} (pre x : Bytes) (c : UInt8) :
    store (pre ++ d :: x) pre.length c = .ok (pre ++ c :: x) := by
  rw [store, if_pos (by simp), List.set_append_right _ _ le_rfl, Nat.sub_self, List.set_cons_zero]
  rfl

/-- A chunk that fills the buffer before the line ends. -/
lemma fgetsLoop_full (hbody : ∀ c ∈ body, isEnd c = false) (hpos : start + i = pre.length)
    (hx : body.length < x.length) :
    fgetsLoop start body.length i (pre ++ x) (body ++ rest) =
      .ok (i + body.length, pre ++ (body ++ 0 :: x.drop (body.length + 1)), rest) := by
  induction body generalizing i pre x with
  | nil =>
    obtain ⟨d, x, rfl⟩ := List.exists_cons_of_length_pos hx
    rw [List.length_nil, fgetsLoop, hpos, store_at, ok_bind]
    simp
    rfl
  | cons c body ih =>
    obtain ⟨d, x, rfl⟩ := List.exists_cons_of_length_pos (Nat.zero_lt_of_lt hx)
    have hc := hbody c List.mem_cons_self
    have hnext := @ih (pre ++ [c]) x (i + 1)
      (fun y hy => hbody y (List.mem_cons_of_mem c hy)) (by simp; omega) (by simpa using hx)
    rw [List.length_cons, List.cons_append, fgetsLoop, hpos, store_at, ok_bind,
      if_neg (by simp [hc]), List.append_cons, hnext]
    simp
    omega

/-- A chunk that ends the line. -/
lemma fgetsLoop_line (hbody : ∀ c ∈ body, isEnd c = false) (he : isEnd e = true)
    (hpos : start + i = pre.length) (hk : body.length < k) (hx : body.length + 1 < x.length) :
    fgetsLoop start k i (pre ++ x) (body ++ e :: rest) =
      .ok (i + body.length + 1, pre ++ (body ++ e :: 0 :: x.drop (body.length + 2)), rest) := by
  induction body generalizing i k pre x with
  | nil =>
    obtain ⟨d, x, rfl⟩ := List.exists_cons_of_length_pos (Nat.zero_lt_of_lt hx)
    obtain ⟨d', x, rfl⟩ := List.exists_cons_of_length_pos (by simpa using hx : 0 < x.length)
    obtain ⟨k, rfl⟩ := Nat.exists_eq_add_one.mpr hk
    have hnul : store (pre ++ e :: d' :: x) (start + (i + 1)) 0 = .ok (pre ++ e :: 0 :: x) := by
      have h := store_at (d := d') (pre ++ [e]) x 0
      rw [List.length_append, List.length_singleton, ← hpos] at h
      simpa [Nat.add_assoc] using h
    rw [List.nil_append, fgetsLoop, hpos, store_at, ok_bind, if_pos he, hnul, ok_bind]
    simp
    rfl
  | cons c body ih =>
    obtain ⟨d, x, rfl⟩ := List.exists_cons_of_length_pos (Nat.zero_lt_of_lt hx)
    obtain ⟨k, rfl⟩ := Nat.exists_eq_add_one.mpr (Nat.zero_lt_of_lt hk)
    have hc := hbody c List.mem_cons_self
    have hnext := @ih (pre ++ [c]) x (i + 1) k
      (fun y hy => hbody y (List.mem_cons_of_mem c hy)) (by simp; omega) (by simpa using hk)
      (by simpa using hx)
    rw [List.cons_append, fgetsLoop, hpos, store_at, ok_bind, if_neg (by simp [hc]),
      List.append_cons, hnext]
    simp
    omega

/-- A chunk in which the file ends. -/
lemma fgetsLoop_eof (hbody : ∀ c ∈ body, isEnd c = false) (hpos : start + i = pre.length)
    (hk : body.length < k) (hx : body.length ≤ x.length) :
    fgetsLoop start k i (pre ++ x) body = .ok (-1, pre ++ (body ++ x.drop body.length), []) := by
  induction body generalizing i k pre x with
  | nil =>
    obtain ⟨k, rfl⟩ := Nat.exists_eq_add_one.mpr hk
    rfl
  | cons c body ih =>
    obtain ⟨d, x, rfl⟩ := List.exists_cons_of_length_pos (Nat.zero_lt_of_lt hx)
    obtain ⟨k, rfl⟩ := Nat.exists_eq_add_one.mpr (Nat.zero_lt_of_lt hk)
    have hc := hbody c List.mem_cons_self
    have hnext := @ih (pre ++ [c]) x (i + 1) k
      (fun y hy => hbody y (List.mem_cons_of_mem c hy)) (by simp; omega) (by simpa using hk)
      (by simpa using hx)
    rw [fgetsLoop, hpos, store_at, ok_bind, if_neg (by simp [hc]), List.append_cons, hnext]
    simp

end Chunk

/-! ### One line -/

section Line

variable {c e : UInt8} {pre b x body file file' rest : Bytes} {size fuel : Nat}
  {junk : Nat → UInt8}

/-- A one-byte string is compared with a one-byte string. -/
lemma strcmp_byte {q : UInt8} (c : UInt8) (more : Bytes) (hq : q ≠ 0) :
    strcmp (c :: 0 :: more) [q, 0] = .ok ((c.toNat : Int) - q.toNat) := by
  rw [strcmp]
  by_cases hc : c = q
  · subst hc
    simp [hq, strcmp]
    rfl
  · rw [if_neg fun h => hc h.2]
    rfl

lemma byte_sub_eq_zero (c q : UInt8) : (c.toNat : Int) - q.toNat = 0 ↔ c = q := by
  rw [← UInt8.toNat_inj]
  omega

/-- A round of `getline` after a chunk that has read the bytes `b` and `c`: the line so far goes to
a buffer of twice the size. -/
lemma getlineLoop_round (junk : Nat → UInt8) (fuel : Nat) {y : Bytes}
    (hchunk : fgets x pre.length (size - pre.length) file =
      .ok (b.length + 1, pre ++ (b ++ c :: 0 :: y), file'))
    (hroom : (pre ++ (b ++ [c])).length < size * 2) :
    ∃ buf', buf'.length = size * 2 ∧ (∃ x', buf' = pre ++ (b ++ [c]) ++ 0 :: x') ∧
      getlineLoop junk (fuel + 1) x size pre.length file =
        if isEnd c then .ok ((pre ++ (b ++ [c])).length, buf', file')
        else getlineLoop junk fuel buf' (size * 2) (pre ++ (b ++ [c])).length file' := by
  obtain ⟨line, hline⟩ : ∃ line, pre ++ (b ++ [c]) = line := ⟨_, rfl⟩
  obtain ⟨x', hx'⟩ : ∃ x', (malloc junk (size * 2)).drop (line.length + 1) = x' := ⟨_, rfl⟩
  rw [hline] at hroom ⊢
  have hlen : line.length = pre.length + (b.length + 1) := by
    rw [← hline]
    simp
  have hbuf : pre ++ (b ++ c :: 0 :: y) = line ++ 0 :: y := by
    rw [← hline]
    simp
  have hcopy : memcpy (malloc junk (size * 2)) (line ++ 0 :: y) (line.length + 1) =
      .ok (line ++ 0 :: x') := by
    have htake : (line ++ 0 :: y).take (line.length + 1) = line ++ [0] := by
      rw [List.take_length_add_append]
      rfl
    rw [memcpy, if_pos ⟨by simpa using hroom, by simp⟩, htake, hx', List.append_assoc]
    rfl
  have hlast : (line ++ 0 :: x').drop (line.length - 1) = c :: 0 :: x' := by
    rw [hlen, ← hline]
    simp
  refine ⟨line ++ 0 :: x', ?_, ⟨x', rfl⟩, ?_⟩
  · rw [← hx']
    simp
    omega
  · have hpos : ¬ ((b.length : Int) + 1 = 0) := by omega
    have hneg : ¬ ((b.length : Int) + 1 < 0) := by omega
    have hread : pre.length + ((b.length : Int) + 1).toNat = line.length := by omega
    rw [getlineLoop, hchunk, ok_bind]
    simp only [hpos, hneg, if_false, hread, hbuf, hcopy, ok_bind, hlast,
      strcmp_byte c x' (show (10 : UInt8) ≠ 0 by decide),
      strcmp_byte c x' (show (13 : UInt8) ≠ 0 by decide), byte_sub_eq_zero]
    by_cases h10 : c = 10
    · subst h10
      rfl
    · by_cases h13 : c = 13
      · subst h13
        rfl
      · have hend : isEnd c = false := by simp [isEnd, h10, h13]
        rw [if_neg h10, if_neg h13, hend]
        simp

/-- A round whose chunk fills the buffer, with the line going on. -/
lemma getlineLoop_more (junk : Nat → UInt8) (fuel : Nat) (rest : Bytes) (hpre : pre.length + 2 ≤ size) (hcap : size ≤ (pre ++ x).length)
    (hb : ∀ c ∈ b, isEnd c = false) (hfull : b.length = size - pre.length - 1) :
    ∃ x', getlineLoop junk (fuel + 1) (pre ++ x) size pre.length (b ++ rest) =
        getlineLoop junk fuel (pre ++ b ++ x') (size * 2) (pre ++ b).length rest ∧
      (pre ++ b ++ x').length = size * 2 := by
  have hx : b.length < x.length := by
    rw [List.length_append] at hcap
    omega
  rcases List.eq_nil_or_concat b with rfl | ⟨b, c, rfl⟩
  · simp at hfull
    omega
  rw [List.concat_eq_append] at *
  have hc := hb c (by simp)
  have hchunk : fgets (pre ++ x) pre.length (size - pre.length) (b ++ [c] ++ rest) =
      .ok (b.length + 1, pre ++ (b ++ c :: 0 :: x.drop ((b ++ [c]).length + 1)), rest) := by
    have h := @fgetsLoop_full pre x (b ++ [c]) rest pre.length 0 hb rfl hx
    rw [hfull] at h
    rw [fgets, h, ← hfull]
    simp
  have hroom : (pre ++ (b ++ [c])).length < size * 2 := by
    simp only [List.length_append, List.length_singleton] at hfull ⊢
    omega
  obtain ⟨buf', hlen, ⟨x', rfl⟩, hround⟩ :=
    getlineLoop_round junk fuel hchunk hroom
  rw [hc, if_neg Bool.false_ne_true] at hround
  exact ⟨0 :: x', hround, hlen⟩

/-- Reading the rest of a line that is ended. -/
lemma getlineLoop_line (junk : Nat → UInt8) (rest : Bytes) (hpre : pre.length + 2 ≤ size) (hcap : size ≤ (pre ++ x).length)
    (hbody : ∀ c ∈ body, isEnd c = false) (he : isEnd e = true) (hfuel : body.length < fuel) :
    ∃ buf', getlineLoop junk fuel (pre ++ x) size pre.length (body ++ e :: rest) =
        .ok ((pre ++ (body ++ [e])).length, buf', rest) ∧
      (∃ x', buf' = pre ++ (body ++ [e]) ++ 0 :: x') ∧ size ≤ buf'.length := by
  induction fuel generalizing size pre x body with
  | zero => exact absurd hfuel (Nat.not_lt_zero _)
  | succ fuel ih =>
    rcases Nat.lt_or_ge body.length (size - pre.length - 1) with hlt | hge
    · have hx : body.length + 1 < x.length := by
        rw [List.length_append] at hcap
        omega
      have hchunk : fgets (pre ++ x) pre.length (size - pre.length) (body ++ e :: rest) =
          .ok (body.length + 1, pre ++ (body ++ e :: 0 :: x.drop (body.length + 2)), rest) := by
        have h := @fgetsLoop_line e pre x body rest pre.length 0 _ hbody he rfl hlt hx
        simpa [fgets] using h
      have hroom : (pre ++ (body ++ [e])).length < size * 2 := by
        simp only [List.length_append, List.length_singleton]
        omega
      obtain ⟨buf', hlen, hshape, hround⟩ := getlineLoop_round junk fuel hchunk hroom
      rw [he, if_pos rfl] at hround
      exact ⟨buf', hround, hshape, by omega⟩
    · -- the chunk ends inside the line
      obtain ⟨b, body, rfl, hb⟩ : ∃ b body', body = b ++ body' ∧ b.length = size - pre.length - 1 :=
        ⟨body.take (size - pre.length - 1), body.drop (size - pre.length - 1),
          (List.take_append_drop _ _).symm, List.length_take_of_le hge⟩
      obtain ⟨x', hround, hlen⟩ := getlineLoop_more junk fuel (body ++ e :: rest) hpre hcap
        (fun c hc => hbody c (List.mem_append_left _ hc)) hb
      rw [List.length_append] at hfuel
      obtain ⟨buf', hrun, ⟨y, rfl⟩, hle⟩ := @ih (pre ++ b) x' body (size * 2)
        (by rw [List.length_append]; omega) hlen.ge
        (fun c hc => hbody c (List.mem_append_right _ hc)) (by omega)
      have hline : pre ++ b ++ (body ++ [e]) = pre ++ (b ++ body ++ [e]) := by
        simp only [List.append_assoc]
      rw [hline] at hle hrun
      refine ⟨_, ?_, ⟨y, rfl⟩, by omega⟩
      rw [List.append_assoc b, hround, hrun]

/-- Reading the rest of a file in which no line is ended. -/
lemma getlineLoop_eof (junk : Nat → UInt8) (hpre : pre.length + 2 ≤ size) (hcap : size ≤ (pre ++ x).length)
    (hbody : ∀ c ∈ body, isEnd c = false) (hfuel : body.length < fuel) :
    ∃ buf', getlineLoop junk fuel (pre ++ x) size pre.length body = .ok (-1, buf', []) ∧
      size ≤ buf'.length := by
  induction fuel generalizing size pre x body with
  | zero => exact absurd hfuel (Nat.not_lt_zero _)
  | succ fuel ih =>
    rcases Nat.lt_or_ge body.length (size - pre.length - 1) with hlt | hge
    · rw [List.length_append] at hcap
      have hchunk := @fgetsLoop_eof pre x body pre.length 0 _ hbody rfl hlt (by omega)
      refine ⟨pre ++ (body ++ x.drop body.length), ?_, ?_⟩
      · rw [getlineLoop, fgets, hchunk, ok_bind]
        rfl
      · simp only [List.length_append, List.length_drop]
        omega
    · obtain ⟨b, body, rfl, hb⟩ : ∃ b body', body = b ++ body' ∧ b.length = size - pre.length - 1 :=
        ⟨body.take (size - pre.length - 1), body.drop (size - pre.length - 1),
          (List.take_append_drop _ _).symm, List.length_take_of_le hge⟩
      obtain ⟨x', hround, hlen⟩ := getlineLoop_more junk fuel body hpre hcap
        (fun c hc => hbody c (List.mem_append_left _ hc)) hb
      rw [List.length_append] at hfuel
      obtain ⟨buf', hrun, hle⟩ := @ih (pre ++ b) x' body (size * 2)
        (by rw [List.length_append]; omega) hlen.ge
        (fun c hc => hbody c (List.mem_append_right _ hc)) (by omega)
      exact ⟨buf', hround.trans hrun, by omega⟩

end Line

/-! ### Calls -/

/-- What the caller keeps to: the buffer is NULL, or it has at least `size` bytes. -/
def Legal (buf : Option Bytes) (size : Int) : Prop := ∀ b, buf = some b → size ≤ b.length

/-- Successive calls: the size that each passes is legal, and each gets the buffer that the one
before has left. The results are the returned values and the buffers. -/
inductive Calls (junk : Nat → UInt8) : Option Bytes → Bytes → List (Int × Bytes) → Option Bytes →
    Bytes → Prop
  | nil (buf : Option Bytes) (file : Bytes) : Calls junk buf file [] buf file
  | cons {buf buf₂ : Option Bytes} {buf₁ file file₁ file₂ : Bytes} {size r : Int}
      {results : List (Int × Bytes)} (hlegal : Legal buf size)
      (hcall : getline junk buf size file = .ok (r, buf₁, file₁))
      (h : Calls junk (some buf₁) file₁ results buf₂ file₂) :
      Calls junk buf file ((r, buf₁) :: results) buf₂ file₂

/-- The results give the lines, each with its length and NUL-terminated in the buffer, and then a
result that is not positive. -/
def Gives : List Bytes → List (Int × Bytes) → Prop
  | _, [] => False
  | [], (r, _) :: _ => r ≤ 0
  | line :: lines, (r, buf) :: results =>
    r = line.length ∧ buf.take (line.length + 1) = line ++ [0] ∧ Gives lines results

section Calls

variable {junk : Nat → UInt8} {buf buf' : Option Bytes} {file body rest : Bytes} {size : Int}
  {e : UInt8} {results : List (Int × Bytes)}

/-- The buffer and the size that the loop of `getline` begins with. -/
lemma getline_start (junk : Nat → UInt8) (file : Bytes) (hlegal : Legal buf size) :
    ∃ (x : Bytes) (n : Nat), 2 ≤ n ∧ n ≤ x.length ∧ (buf ≠ none → size ≤ n) ∧
      getline junk buf size file = getlineLoop junk (file.length + 1) x n 0 file := by
  cases buf with
  | none => exact ⟨malloc junk 2, 2, le_rfl, by simp, fun h => absurd rfl h, rfl⟩
  | some b =>
    by_cases hsize : size < 2
    · refine ⟨malloc junk 2, 2, le_rfl, by simp, fun _ => by omega, ?_⟩
      rw [getline, if_pos hsize]
    · have hle := hlegal b rfl
      refine ⟨b, size.toNat, by omega, by omega, fun _ => by omega, ?_⟩
      rw [getline, if_neg hsize]

/-- A legal call on a line that is ended. -/
lemma getline_line (junk : Nat → UInt8) (rest : Bytes) (hlegal : Legal buf size) (hbody : ∀ c ∈ body, isEnd c = false)
    (he : isEnd e = true) :
    ∃ buf' : Bytes, getline junk buf size (body ++ e :: rest) =
        .ok ((body ++ [e]).length, buf', rest) ∧
      buf'.take ((body ++ [e]).length + 1) = body ++ [e] ++ [0] ∧
      (buf ≠ none → size ≤ buf'.length) := by
  obtain ⟨x, n, h2, hn, hsize, hstart⟩ := getline_start junk (body ++ e :: rest) hlegal
  have hfuel : body.length < (body ++ e :: rest).length + 1 := by simp
  obtain ⟨buf', hrun, ⟨y, rfl⟩, hle⟩ := @getlineLoop_line e [] x body n _ junk rest h2 hn hbody he
    hfuel
  refine ⟨_, hstart.trans hrun, ?_, fun hb => ?_⟩
  · rw [List.nil_append, List.take_length_add_append]
    rfl
  · have := hsize hb
    omega

/-- A legal call on a file in which no line is ended. -/
lemma getline_eof (junk : Nat → UInt8) (hlegal : Legal buf size) (hbody : ∀ c ∈ body, isEnd c = false) :
    ∃ buf' : Bytes, getline junk buf size body = .ok (-1, buf', []) ∧
      (buf ≠ none → size ≤ buf'.length) := by
  obtain ⟨x, n, h2, hn, hsize, hstart⟩ := getline_start junk body hlegal
  obtain ⟨buf', hrun, hle⟩ := @getlineLoop_eof [] x body n _ junk h2 hn hbody
    (Nat.lt_succ_self _)
  refine ⟨buf', hstart.trans hrun, fun hb => ?_⟩
  have := hsize hb
  omega

/-- A legal call returns, and the same size is legal again, unless there was no buffer. -/
lemma getline_returns (junk : Nat → UInt8) (file : Bytes) (hlegal : Legal buf size) :
    ∃ (r : Int) (buf' file' : Bytes), getline junk buf size file = .ok (r, buf', file') ∧
      (buf ≠ none → Legal (some buf') size) := by
  have hagain : ∀ buf' : Bytes, (buf ≠ none → size ≤ buf'.length) →
      buf ≠ none → Legal (some buf') size := by
    rintro buf' h hb _ ⟨⟩
    exact h hb
  rcases line_cases file with hall | ⟨body, e, rest, rfl, hbody, he⟩
  · obtain ⟨buf', hcall, hsize⟩ := getline_eof junk hlegal hall
    exact ⟨_, _, _, hcall, hagain buf' hsize⟩
  · obtain ⟨buf', hcall, -, hsize⟩ := getline_line junk rest hlegal hbody he
    exact ⟨_, _, _, hcall, hagain buf' hsize⟩

/-- A run with a call for each line, and one more, gives the lines if the last one is ended, and
only then. -/
lemma Calls.gives_iff (h : Calls junk buf file results buf' rest)
    (hlen : (lines file).length < results.length) : Gives (lines file) results ↔ Ended file := by
  induction h with
  | nil => exact absurd hlen (Nat.not_lt_zero _)
  | @cons buf buf₂ buf₁ file file₁ file₂ size r results hlegal hcall h ih =>
    rcases line_cases file with hall | ⟨body, e, rest, rfl, hbody, he⟩
    · obtain ⟨buf', hcall', -⟩ := getline_eof junk hlegal hall
      rw [hcall] at hcall'
      cases hcall'
      rw [ended_last hall]
      by_cases hne : file = []
      · subst hne
        simp [lines, Gives]
      · rw [lines_last hall hne]
        simp only [Gives, hne, iff_false, not_and]
        intro hr
        omega
    · obtain ⟨buf', hcall', hstored, -⟩ :=
        getline_line junk rest hlegal hbody he
      rw [hcall] at hcall'
      cases hcall'
      rw [lines_first hbody he] at hlen ⊢
      rw [ended_first he, ← ih (by simpa using hlen)]
      simp only [Gives, true_and]
      exact and_iff_right hstored

/-- Calls of `getline`, from a buffer that is NULL or has the size that is passed: every further
legal call returns and stays inside its buffer, a size that was legal stays legal, and the calls give
the lines of the file, whose concatenation it is, exactly if the file is empty or its last line is
ended. -/
theorem getline_lines_iff (h : Calls junk buf file results buf' rest) :
    (∀ size, Legal buf' size → ∃ (r : Int) (buf₁ rest' : Bytes),
      getline junk buf' size rest = .ok (r, buf₁, rest') ∧
        (buf' ≠ none → Legal (some buf₁) size)) ∧
      (lines file).flatten = file ∧
      ((lines file).length < results.length → (Gives (lines file) results ↔ Ended file)) :=
  ⟨fun _ hlegal => getline_returns junk rest hlegal, lines_flatten file, h.gives_iff⟩

/-- A run that reads `"a\n"` and then the end of the file. -/
theorem getline_lines_iff_a : ∃ results buf' rest,
    Calls (fun _ => 7) none [97, 10] results buf' rest ∧
      (Gives [[97, 10]] results ↔ Ended [97, 10]) := by
  have hline : getline (fun _ => 7) none 0 [97, 10] = .ok (2, [97, 10, 0, 7, 7, 7, 7, 7], []) := by
    decide
  have heof : getline (fun _ => 7) (some [97, 10, 0, 7, 7, 7, 7, 7]) 8 [] =
      .ok (-1, [97, 10, 0, 7, 7, 7, 7, 7], []) := by
    decide
  have hrun := Calls.cons (by rintro b ⟨⟩) hline
    (Calls.cons (by rintro b ⟨⟩; decide) heof (Calls.nil _ _))
  exact ⟨_, _, _, hrun, (getline_lines_iff hrun).2.2 (by decide)⟩

/-- A file that holds `"ab"` gives no line at all. -/
theorem getline_lines_lost : ¬ ∀ junk buf file results buf' rest,
    Calls junk buf file results buf' rest → (lines file).length < results.length →
      Gives (lines file) results := by
  intro h
  have hfirst : getline (fun _ => 7) none 0 [97, 98] = .ok (-1, [97, 98, 7, 7], []) := by
    decide
  have hsecond : getline (fun _ => 7) (some [97, 98, 7, 7]) 4 [] =
      .ok (-1, [97, 98, 7, 7], []) := by
    decide
  have hrun := Calls.cons (by rintro b ⟨⟩) hfirst
    (Calls.cons (by rintro b ⟨⟩; decide) hsecond (Calls.nil _ _))
  exact absurd (h _ _ _ _ _ _ hrun (by decide)).1 (by decide)

end Calls

end FogOS.User
