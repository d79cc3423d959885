import Mathlib.Data.Nat.Digits.Lemmas
import FogOS.Kernel.Basic

/-!
# Formatted output

`printint` and `vprintf` of `user/printf.c`, and `printint` and `printf` of `kernel/printf.c`. A
format string is the list of its bytes before the NUL; reading the NUL gives `0`, and the code reads
nothing after it. The output is the list of the bytes that reach the file or the console.
-/

namespace FogOS.User.Printf

open Kernel

/-- The bytes of a string. -/
abbrev Bytes := List UInt8

/-- A variadic argument: a 64-bit word, or a pointer to a string, where `none` is NULL. -/
inductive Arg
  | word (v : BitVec 64)
  | str (s : Option Bytes)

/-- `va_arg` of a number. -/
def nextWord : List Arg → Except Stop (BitVec 64 × List Arg)
  | .word v :: args => pure (v, args)
  | _ => throw .wild

/-- `va_arg` of a string. -/
def nextStr : List Arg → Except Stop (Option Bytes × List Arg)
  | .str s :: args => pure (s, args)
  | _ => throw .wild

/-! ### Numbers -/

/-- The digits of user space, `"0123456789ABCDEF"`. -/
def userDigits : Bytes := [48, 49, 50, 51, 52, 53, 54, 55, 56, 57, 65, 66, 67, 68, 69, 70]

/-- The digits of the kernel, `"0123456789abcdef"`. -/
def kernelDigits : Bytes := [48, 49, 50, 51, 52, 53, 54, 55, 56, 57, 97, 98, 99, 100, 101, 102]

/-- `buf[i++] = c` on a buffer of which `i` bytes are written: it has 20 bytes. -/
def push (buf : Bytes) (c : UInt8) : Except Stop Bytes :=
  if buf.length < 20 then pure (buf ++ [c]) else throw .wild

/-- The `do` loop of `printint`. Each round writes a byte, so that `fuel` bounds the rounds. -/
def digitLoop (digits : Bytes) (base : Nat) : Nat → Nat → Bytes → Except Stop Bytes
  | 0, _, _ => throw .sleep
  | fuel + 1, x, buf => do
    let buf ← push buf (digits.getD (x % base) 0)
    if x / base ≠ 0 then digitLoop digits base fuel (x / base) buf else pure buf

/-- `printint` with a magnitude of `w` bits. -/
def printintOf (w : Nat) (digits : Bytes) (xx : Int) (base : Nat) (sgn : Bool) :
    Except Stop Bytes := do
  let neg := sgn && xx < 0
  let x := ((if neg then -xx else xx) % 2 ^ w).toNat
  let buf ← digitLoop digits base 21 x []
  let buf ← if neg then push buf 45 else pure buf
  pure buf.reverse

/-- The user's `printint`: the magnitude is a `uint`. -/
def userPrintint (xx : Int) (base : Nat) (sgn : Bool) : Except Stop Bytes :=
  printintOf 32 userDigits xx base sgn

/-- The kernel's `printint`: the magnitude is an `unsigned long long`. -/
def kernelPrintint (xx : Int) (base : Nat) (sgn : Bool) : Except Stop Bytes :=
  printintOf 64 kernelDigits xx base sgn

/-- `printptr` -/
def printptr (digits : Bytes) (x : BitVec 64) : Bytes :=
  48 :: 120 :: (List.range 16).map fun i => digits.getD ((x <<< (4 * i)) >>> 60).toNat 0

/-! ### Directives -/

/-- `'d'`, `'u'` or `'x'`. -/
inductive Kind
  | d
  | u
  | x
  deriving DecidableEq, Repr

/-- A directive for a number: how often `'l'` stands in it, and what comes then. -/
structure Directive where
  longs : Fin 3
  kind : Kind
  deriving DecidableEq, Repr

/-- The directive that both functions find in the bytes after `'%'`. -/
def conversion (c0 c1 c2 : UInt8) : Option Directive :=
  if c0 = 100 then some ⟨0, .d⟩
  else if c0 = 108 ∧ c1 = 100 then some ⟨1, .d⟩
  else if c0 = 108 ∧ c1 = 108 ∧ c2 = 100 then some ⟨2, .d⟩
  else if c0 = 117 then some ⟨0, .u⟩
  else if c0 = 108 ∧ c1 = 117 then some ⟨1, .u⟩
  else if c0 = 108 ∧ c1 = 108 ∧ c2 = 117 then some ⟨2, .u⟩
  else if c0 = 120 then some ⟨0, .x⟩
  else if c0 = 108 ∧ c1 = 120 then some ⟨1, .x⟩
  else if c0 = 108 ∧ c1 = 108 ∧ c2 = 120 then some ⟨2, .x⟩
  else none

namespace Directive

/-- `va_arg(ap, int)`, `va_arg(ap, uint32)` or `va_arg(ap, uint64)`, as a `long long`. -/
def arg (d : Directive) (v : BitVec 64) : Int :=
  if d.longs = 0 then
    match d.kind with
    | .d => (v.setWidth 32).toInt
    | _ => (v.setWidth 32).toNat
  else v.toInt

def base (d : Directive) : Nat := if d.kind = .x then 16 else 10

def sgn (d : Directive) : Bool := d.kind = .d

end Directive

/-- `fmt[i+1]` and `fmt[i+2]`, read only where no NUL comes before. -/
def lookahead (c0 : UInt8) (fmt : Bytes) : UInt8 × UInt8 :=
  let c1 := if c0 ≠ 0 then fmt.getD 0 0 else 0
  let c2 := if c1 ≠ 0 then fmt.getD 1 0 else 0
  (c1, c2)

/-! ### The loops -/

/-- The loop of `vprintf` on the rest of the format: `pct` is its `state`, and `skip` what a
directive has added to `i`. -/
def vprintfLoop : Bytes → Bool → Nat → List Arg → Except Stop Bytes
  | [], _, _, _ => pure []
  | _ :: fmt, pct, skip + 1, args => vprintfLoop fmt pct skip args
  | c0 :: fmt, false, 0, args =>
    if c0 = 37 then vprintfLoop fmt true 0 args
    else return c0 :: (← vprintfLoop fmt false 0 args)
  | c0 :: fmt, true, 0, args =>
    let (c1, c2) := lookahead c0 fmt
    match conversion c0 c1 c2 with
    | some d => do
      let (v, args) ← nextWord args
      let out ← userPrintint (d.arg v) d.base d.sgn
      return out ++ (← vprintfLoop fmt false d.longs args)
    | none =>
      if c0 = 112 then do
        let (v, args) ← nextWord args
        return printptr userDigits v ++ (← vprintfLoop fmt false 0 args)
      else if c0 = 99 then do
        let (v, args) ← nextWord args
        return UInt8.ofBitVec (v.setWidth 8) :: (← vprintfLoop fmt false 0 args)
      else if c0 = 115 then do
        let (s, args) ← nextStr args
        return s.getD [40, 110, 117, 108, 108, 41] ++ (← vprintfLoop fmt false 0 args)
      else if c0 = 37 then return 37 :: (← vprintfLoop fmt false 0 args)
      else return 37 :: c0 :: (← vprintfLoop fmt false 0 args)

/-- `vprintf` -/
def vprintf (fmt : Bytes) (args : List Arg) : Except Stop Bytes := vprintfLoop fmt false 0 args

/-- `consputc` -/
def consputc (c : Nat) : Bytes := if c = 0x100 then [8, 32, 8] else [UInt8.ofNat c]

/-- The loop of the kernel's `printf` on the rest of the format; `skip` is what has been added to
`i`. -/
def printfLoop : Bytes → Nat → List Arg → Except Stop Bytes
  | [], _, _ => pure []
  | _ :: fmt, skip + 1, args => printfLoop fmt skip args
  | cx :: fmt, 0, args =>
    if cx ≠ 37 then return consputc cx.toNat ++ (← printfLoop fmt 0 args)
    else
      let c0 := fmt.getD 0 0
      let (c1, c2) := lookahead c0 (fmt.drop 1)
      match conversion c0 c1 c2 with
      | some d => do
        let (v, args) ← nextWord args
        let out ← kernelPrintint (d.arg v) d.base d.sgn
        return out ++ (← printfLoop fmt (1 + d.longs) args)
      | none =>
        if c0 = 112 then do
          let (v, args) ← nextWord args
          return printptr kernelDigits v ++ (← printfLoop fmt 1 args)
        else if c0 = 99 then do
          let (v, args) ← nextWord args
          return consputc (v.setWidth 32).toNat ++ (← printfLoop fmt 1 args)
        else if c0 = 115 then do
          let (s, args) ← nextStr args
          return s.getD [40, 110, 117, 108, 108, 41] ++ (← printfLoop fmt 1 args)
        else if c0 = 37 then return 37 :: (← printfLoop fmt 1 args)
        else if c0 = 0 then pure []
        else return [37, c0] ++ (← printfLoop fmt 1 args)

/-- The kernel's `printf` -/
def printf (fmt : Bytes) (args : List Arg) : Except Stop Bytes := printfLoop fmt 0 args

/-! ### Numerals -/

/-- A digit, with the letters from `a` on. -/
def digit (a : UInt8) (d : Nat) : UInt8 :=
  if d < 10 then 48 + UInt8.ofNat d else a + UInt8.ofNat (d - 10)

/-- The digits of a natural number, the last one first; zero has one digit. -/
def digitsOf (base n : Nat) : List Nat := if n = 0 then [0] else Nat.digits base n

/-- The numeral of a natural number. -/
def numeral (a : UInt8) (base n : Nat) : Bytes := ((digitsOf base n).map (digit a)).reverse

/-- The standard numeral of an integer: a sign only where it is negative. -/
def standard (a : UInt8) (base : Nat) (n : Int) : Bytes :=
  if n < 0 then 45 :: numeral a base n.natAbs else numeral a base n.natAbs

namespace Directive

/-- The text of the directive. -/
def text (d : Directive) : Bytes :=
  let c : UInt8 := match d.kind with
    | .d => 100
    | .u => 117
    | .x => 120
  List.replicate d.longs 108 ++ [c]

/-- The value that the directive stands for. -/
def value (d : Directive) (v : BitVec 64) : Int :=
  match d.kind with
  | .d => if d.longs = 0 then (v.setWidth 32).toInt else v.toInt
  | _ => if d.longs = 0 then (v.setWidth 32).toNat else v.toNat

end Directive

section Numerals

variable {a : UInt8} {base n m : Nat}

lemma digitsOf_step (hb : 2 ≤ base) (n : Nat) :
    digitsOf base n = n % base :: if n / base = 0 then [] else digitsOf base (n / base) := by
  unfold digitsOf
  by_cases h0 : n = 0
  · subst h0
    simp
  · rw [if_neg h0, Nat.digits_def' hb (Nat.pos_of_ne_zero h0)]
    by_cases hq : n / base = 0
    · rw [if_pos hq, hq, Nat.digits_zero]
    · rw [if_neg hq, if_neg hq]

lemma digitsOf_lt (hb : 2 ≤ base) {d : Nat} (hd : d ∈ digitsOf base n) : d < base := by
  unfold digitsOf at hd
  split at hd
  · obtain rfl := List.mem_singleton.mp hd
    omega
  · exact Nat.digits_lt_base hb hd

lemma digitsOf_length_le (hb : 2 ≤ base) {k : Nat} (hk : 0 < k) (hn : n < base ^ k) :
    (digitsOf base n).length ≤ k := by
  unfold digitsOf
  split
  · exact hk
  · exact (Nat.digits_length_le_iff hb n).mpr hn

lemma ofDigits_digitsOf (base n : Nat) : Nat.ofDigits base (digitsOf base n) = n := by
  unfold digitsOf
  split
  · rename_i h0
    rw [h0]
    simp
  · exact Nat.ofDigits_digits base n

/-- The value of a digit. -/
def digitValue (a c : UInt8) : Nat := if c < 58 then (c - 48).toNat else (c - a).toNat + 10

lemma digitValue_digit (ha : a = 65 ∨ a = 97) {d : Nat} (hd : d < 16) :
    digitValue a (digit a d) = d := by
  have hall : ∀ a ∈ [(65 : UInt8), 97], ∀ d : Fin 16, digitValue a (digit a d) = d := by
    decide +kernel
  exact hall a (by simpa using ha) ⟨d, hd⟩

/-- A numeral can be read back. -/
lemma numeral_inj (ha : a = 65 ∨ a = 97) (hb : 2 ≤ base) (hb' : base ≤ 16)
    (h : numeral a base n = numeral a base m) : n = m := by
  have hback : ∀ n, ((digitsOf base n).map (digit a)).map (digitValue a) = digitsOf base n := by
    intro n
    rw [List.map_map]
    refine (List.map_congr_left fun d hd => ?_).trans (List.map_id _)
    exact digitValue_digit ha (lt_of_lt_of_le (digitsOf_lt hb hd) hb')
  have hdigits : digitsOf base n = digitsOf base m := by
    rw [← hback n, ← hback m, List.reverse_injective h]
  rw [← ofDigits_digitsOf base n, ← ofDigits_digitsOf base m, hdigits]

end Numerals

/-! ### The digit loop -/

section Digits

variable {table buf : Bytes} {a : UInt8} {base x fuel w : Nat}

/-- The table holds the digits. -/
def IsTable (a : UInt8) (table : Bytes) : Prop := ∀ d < 16, table.getD d 0 = digit a d

lemma userDigits_isTable : IsTable 65 userDigits := by
  have hall : ∀ d : Fin 16, userDigits.getD d 0 = digit 65 d := by decide
  exact fun d hd => hall ⟨d, hd⟩

lemma kernelDigits_isTable : IsTable 97 kernelDigits := by
  have hall : ∀ d : Fin 16, kernelDigits.getD d 0 = digit 97 d := by decide
  exact fun d hd => hall ⟨d, hd⟩

/-- The loop writes the digits, the last one first, if there is room for them. -/
lemma digitLoop_eq (ht : IsTable a table) (hb : 2 ≤ base) (hb' : base ≤ 16)
    (hfuel : (digitsOf base x).length ≤ fuel) (hroom : buf.length + (digitsOf base x).length ≤ 20) :
    digitLoop table base fuel x buf = .ok (buf ++ (digitsOf base x).map (digit a)) := by
  induction fuel generalizing x buf with
  | zero =>
    rw [digitsOf_step hb] at hfuel
    exact absurd hfuel (Nat.not_succ_le_zero _)
  | succ fuel ih =>
    have hdigit := ht (x % base) (lt_of_lt_of_le (Nat.mod_lt x (by omega)) hb')
    rw [digitsOf_step hb, List.length_cons] at hfuel hroom
    rw [digitLoop, push, if_pos (by omega), hdigit, digitsOf_step hb x]
    by_cases hq : x / base = 0
    · simp only [pure_bind, hq, ne_eq, not_true_eq_false, if_false, if_true, List.map_cons,
        List.map_nil]
      rfl
    · rw [if_neg hq] at hfuel hroom
      have hlen : (buf ++ [digit a (x % base)]).length = buf.length + 1 := by simp
      have hrest := @ih (buf ++ [digit a (x % base)]) (x / base) (by omega) (by omega)
      simp only [pure_bind, hq, ne_eq, not_false_eq_true, if_true, if_false, hrest, List.map_cons,
        List.append_assoc, List.singleton_append]

/-- `printint` writes the numeral of the magnitude, if there is room for it. -/
lemma printintOf_eq {xx : Int} {sgn neg : Bool} (ht : IsTable a table) (hb : 2 ≤ base)
    (hb' : base ≤ 16) (hneg : (sgn && decide (xx < 0)) = neg)
    (hx : ((if neg then -xx else xx) % 2 ^ w).toNat = x)
    (hroom : (digitsOf base x).length + neg.toNat ≤ 20) :
    printintOf w table xx base sgn = .ok ((if neg then [45] else []) ++ numeral a base x) := by
  have hloop := @digitLoop_eq _ [] _ _ x 21 ht hb hb' (by omega)
    (by rw [List.length_nil]; omega)
  rw [printintOf, hneg]
  simp only [hx, hloop, ok_bind, List.nil_append]
  cases neg with
  | false => rfl
  | true =>
    have hlt : ((digitsOf base x).map (digit a)).length < 20 := by
      rw [List.length_map]
      simp only [Bool.toNat_true] at hroom
      omega
    simp only [if_true, push, if_pos hlt, pure_bind, List.reverse_append, List.reverse_singleton,
      numeral]
    rfl

/-- The magnitude that `printint` computes, on `w` bits. -/
def magnitude (w : Nat) (xx : Int) (sgn : Bool) : Nat :=
  ((if sgn && decide (xx < 0) then -xx else xx) % 2 ^ w).toNat

/-- The buffer is large enough for every 64-bit value, and for a magnitude of 32 bits too. -/
lemma printint_room {xx : Int} {sgn : Bool} (hb : base = 10 ∨ base = 16) (hw : w = 32 ∨ w = 64)
    (hlo : -2 ^ 63 ≤ xx) (hhi : xx < 2 ^ 63) :
    (digitsOf base (magnitude w xx sgn)).length + (sgn && decide (xx < 0)).toNat ≤ 20 := by
  cases hneg : sgn && decide (xx < 0) with
  | true =>
    -- with a sign there are at most 19 digits: the magnitude is at most 2 ^ 63
    have hxx : xx < 0 := of_decide_eq_true (Bool.and_eq_true_iff.mp hneg).2
    have hmag : magnitude w xx sgn ≤ 2 ^ 63 := by
      simp only [magnitude, hneg, if_true]
      rcases hw with rfl | rfl <;> omega
    have hlen : (digitsOf base (magnitude w xx sgn)).length ≤ 19 := by
      rcases hb with rfl | rfl
      · exact digitsOf_length_le (by norm_num) (by norm_num) (by omega)
      · exact digitsOf_length_le (by norm_num) (by norm_num) (by omega)
    simpa using Nat.lt_succ_of_le hlen
  | false =>
    have hmag : magnitude w xx sgn < 2 ^ 64 := by
      simp only [magnitude, hneg, Bool.false_eq_true, if_false]
      rcases hw with rfl | rfl <;> omega
    have hlen : (digitsOf base (magnitude w xx sgn)).length ≤ 20 := by
      rcases hb with rfl | rfl
      · exact digitsOf_length_le (by norm_num) (by norm_num) (by omega)
      · exact digitsOf_length_le (by norm_num) (by norm_num) (by omega)
    simpa using hlen

/-- `printint` of a 64-bit value returns, and stays inside its buffer. -/
lemma printint_returns {xx : Int} {sgn : Bool} (ht : IsTable a table) (hb : base = 10 ∨ base = 16)
    (hw : w = 32 ∨ w = 64) (hlo : -2 ^ 63 ≤ xx) (hhi : xx < 2 ^ 63) :
    printintOf w table xx base sgn = .ok ((if sgn && decide (xx < 0) then [45] else []) ++
      numeral a base (magnitude w xx sgn)) :=
  printintOf_eq ht (by omega) (by omega) rfl rfl (printint_room hb hw hlo hhi)

end Digits

/-! ### Directives in a format -/

section Directives

variable {fmt : Bytes} {args : List Arg} {d : Directive} {v : BitVec 64}

/-- Both functions find the directive in its text, and the bytes to skip after its first one. -/
lemma Directive.text_conversion (d : Directive) (fmt : Bytes) : ∃ c0 tail, d.text = c0 :: tail ∧
    tail.length = d.longs ∧
    conversion c0 (lookahead c0 (tail ++ fmt)).1 (lookahead c0 (tail ++ fmt)).2 = some d := by
  obtain ⟨longs, kind⟩ := d
  fin_cases longs <;> cases kind <;> exact ⟨_, _, rfl, rfl, by simp [conversion, lookahead]⟩

lemma vprintfLoop_skip (tail fmt : Bytes) (args : List Arg) :
    vprintfLoop (tail ++ fmt) false tail.length args = vprintfLoop fmt false 0 args := by
  induction tail with
  | nil => rfl
  | cons c tail ih =>
    rw [List.cons_append, List.length_cons, vprintfLoop, ih]

lemma printfLoop_skip (tail fmt : Bytes) (args : List Arg) :
    printfLoop (tail ++ fmt) tail.length args = printfLoop fmt 0 args := by
  induction tail with
  | nil => rfl
  | cons c tail ih =>
    rw [List.cons_append, List.length_cons, printfLoop, ih]

/-- A directive for a number, wherever `vprintf` finds it. -/
lemma vprintfLoop_directive (d : Directive) (fmt : Bytes) (v : BitVec 64) (args : List Arg) :
    vprintfLoop (37 :: (d.text ++ fmt)) false 0 (.word v :: args) = (do
      let out ← userPrintint (d.arg v) d.base d.sgn
      return out ++ (← vprintfLoop fmt false 0 args)) := by
  obtain ⟨c0, tail, htext, hlen, hconv⟩ := d.text_conversion fmt
  rw [vprintfLoop, if_pos rfl, htext, List.cons_append, vprintfLoop]
  simp only [hconv, nextWord, pure_bind, ← hlen, vprintfLoop_skip]

/-- A directive for a number, wherever `printf` finds it. -/
lemma printfLoop_directive (d : Directive) (fmt : Bytes) (v : BitVec 64) (args : List Arg) :
    printfLoop (37 :: (d.text ++ fmt)) 0 (.word v :: args) = (do
      let out ← kernelPrintint (d.arg v) d.base d.sgn
      return out ++ (← printfLoop fmt 0 args)) := by
  obtain ⟨c0, tail, htext, hlen, hconv⟩ := d.text_conversion fmt
  have hskip := printfLoop_skip (c0 :: tail) fmt args
  rw [List.length_cons, Nat.add_comm, hlen] at hskip
  rw [printfLoop, if_neg (by simp), htext]
  simp only [List.cons_append, List.getD_cons_zero, List.drop_succ_cons, List.drop_zero, hconv,
    nextWord, pure_bind] at hskip ⊢
  simp only [hskip]

/-- The numbers behind a word: itself and its low half, each without and with a sign. -/
lemma word_bounds (v : BitVec 64) :
    (v.setWidth 32).toNat < 2 ^ 32 ∧ v.toNat < 2 ^ 64 ∧
      (-2 ^ 31 ≤ (v.setWidth 32).toInt ∧ (v.setWidth 32).toInt < 2 ^ 31) ∧
      (-2 ^ 63 ≤ v.toInt ∧ v.toInt < 2 ^ 63) ∧ v.toInt % 2 ^ 64 = v.toNat := by
  have h1 := (v.setWidth 32).toInt_lt
  have h2 := (v.setWidth 32).le_toInt
  have h3 := v.toInt_lt
  have h4 := v.le_toInt
  have h5 := v.isLt
  have h6 := v.toInt_eq_toNat_cond
  refine ⟨(v.setWidth 32).isLt, h5, ⟨by omega, by omega⟩, ⟨by omega, by omega⟩, ?_⟩
  rw [h6]
  split <;> omega

lemma Directive.arg_bounds (d : Directive) (v : BitVec 64) :
    -2 ^ 63 ≤ d.arg v ∧ d.arg v < 2 ^ 63 := by
  obtain ⟨h1, -, h3, h4, -⟩ := word_bounds v
  obtain ⟨longs, kind⟩ := d
  unfold Directive.arg
  split
  · cases kind <;> exact ⟨by simp only; omega, by simp only; omega⟩
  · exact h4

lemma Directive.base_eq (d : Directive) : d.base = 10 ∨ d.base = 16 := by
  unfold Directive.base
  split
  · exact Or.inr rfl
  · exact Or.inl rfl

/-- Without a sign the value is the argument, taken modulo `2 ^ 64`. -/
lemma Directive.value_unsigned {d : Directive} (hk : d.kind ≠ .d) (v : BitVec 64) :
    0 ≤ d.value v ∧ d.arg v % 2 ^ 64 = d.value v := by
  obtain ⟨h1, h2, -, -, h5⟩ := word_bounds v
  obtain ⟨longs, kind⟩ := d
  cases kind with
  | d => exact absurd rfl hk
  | u =>
    by_cases hl : longs = 0
    · simp only [Directive.value, Directive.arg, hl, if_true]
      omega
    · simp only [Directive.value, Directive.arg, hl, if_false]
      omega
  | x =>
    by_cases hl : longs = 0
    · simp only [Directive.value, Directive.arg, hl, if_true]
      omega
    · simp only [Directive.value, Directive.arg, hl, if_false]
      omega

/-- There is a sign exactly where the value is negative. -/
lemma Directive.sign_eq (d : Directive) (v : BitVec 64) :
    (d.sgn && decide (d.arg v < 0)) = decide (d.value v < 0) := by
  by_cases hk : d.kind = .d
  · have hval : d.value v = d.arg v := by
      rw [Directive.value, Directive.arg, hk]
    rw [Directive.sgn, hk, hval]
    rfl
  · have hnonneg := (Directive.value_unsigned hk v).1
    rw [Directive.sgn, decide_eq_false hk, Bool.false_and, decide_eq_false (by omega)]

/-- The magnitude on 64 bits is that of the value, and on 32 bits it is cut. -/
lemma Directive.magnitude_eq (d : Directive) (v : BitVec 64) :
    magnitude 64 (d.arg v) d.sgn = (d.value v).natAbs ∧
      magnitude 32 (d.arg v) d.sgn = (d.value v).natAbs % 2 ^ 32 := by
  have hb := d.arg_bounds v
  rw [magnitude, magnitude, d.sign_eq]
  by_cases hk : d.kind = .d
  · have hval : d.value v = d.arg v := by
      rw [Directive.value, Directive.arg, hk]
    rw [hval]
    by_cases hneg : d.arg v < 0
    · simp only [hneg, decide_true, if_true]
      omega
    · simp only [hneg, decide_false, Bool.false_eq_true, if_false]
      omega
  · obtain ⟨hnonneg, hmod⟩ := Directive.value_unsigned hk v
    have hneg : ¬ d.value v < 0 := by omega
    simp only [hneg, decide_false, Bool.false_eq_true, if_false]
    omega

/-- What the two functions put out for a directive. -/
lemma directive_output (d : Directive) (v : BitVec 64) :
    kernelPrintint (d.arg v) d.base d.sgn = .ok (standard 97 d.base (d.value v)) ∧
      userPrintint (d.arg v) d.base d.sgn =
        .ok ((if d.value v < 0 then [45] else []) ++
          numeral 65 d.base ((d.value v).natAbs % 2 ^ 32)) := by
  obtain ⟨hlo, hhi⟩ := d.arg_bounds v
  obtain ⟨h64, h32⟩ := d.magnitude_eq v
  have hkernel := @printint_returns _ _ _ _ _ d.sgn kernelDigits_isTable d.base_eq (Or.inr rfl) hlo hhi
  have huser := @printint_returns _ _ _ _ _ d.sgn userDigits_isTable d.base_eq (Or.inl rfl) hlo hhi
  rw [d.sign_eq, h64] at hkernel
  rw [d.sign_eq, h32] at huser
  refine ⟨?_, ?_⟩
  · rw [kernelPrintint, hkernel, standard]
    by_cases hneg : d.value v < 0
    · simp [hneg]
    · simp [hneg]
  · rw [userPrintint, huser]
    simp only [decide_eq_true_eq]

/-- The user's numeral is the standard one exactly if the magnitude fits 32 bits. -/
lemma user_standard_iff (d : Directive) (v : BitVec 64) :
    userPrintint (d.arg v) d.base d.sgn = .ok (standard 65 d.base (d.value v)) ↔
      (d.value v).natAbs < 2 ^ 32 := by
  rw [(directive_output d v).2]
  have hbase := d.base_eq
  constructor
  · intro h
    have hlist := Except.ok.inj h
    have hnum : numeral 65 d.base ((d.value v).natAbs % 2 ^ 32) =
        numeral 65 d.base (d.value v).natAbs := by
      unfold standard at hlist
      by_cases hneg : d.value v < 0
      · simpa [hneg] using hlist
      · simpa [hneg] using hlist
    have heq := numeral_inj (Or.inl rfl) (by omega) (by omega) hnum
    omega
  · intro h
    rw [Nat.mod_eq_of_lt h, standard]
    by_cases hneg : d.value v < 0
    · simp [hneg]
    · simp [hneg]

/-- In front of any rest of the format, `vprintf` puts out the standard numeral for the
directive. -/
def UserExact (d : Directive) (v : BitVec 64) : Prop := ∀ fmt args,
  vprintf (37 :: (d.text ++ fmt)) (.word v :: args) = (do
    let out ← vprintf fmt args
    return standard 65 d.base (d.value v) ++ out)

/-- In front of any rest of the format, the kernel's `printf` does. -/
def KernelExact (d : Directive) (v : BitVec 64) : Prop := ∀ fmt args,
  printf (37 :: (d.text ++ fmt)) (.word v :: args) = (do
    let out ← printf fmt args
    return standard 97 d.base (d.value v) ++ out)

/-- A letter in upper case. -/
def upper (c : UInt8) : UInt8 := if 97 ≤ c ∧ c ≤ 122 then c - 32 else c

lemma standard_upper {base : Nat} (hb : 2 ≤ base) (hb' : base ≤ 16) (n : Int) :
    standard 65 base n = (standard 97 base n).map upper := by
  have hdigit : ∀ d : Fin 16, digit 65 d = upper (digit 97 d) := by decide
  have hnum : ∀ m, numeral 65 base m = (numeral 97 base m).map upper := by
    intro m
    rw [numeral, numeral, List.map_reverse, List.map_map]
    congr 1
    exact List.map_congr_left fun d hd => hdigit ⟨d, lt_of_lt_of_le (digitsOf_lt hb hd) hb'⟩
  unfold standard
  split
  · rw [hnum, List.map_cons]
    rfl
  · exact hnum _

lemma kernelExact (d : Directive) (v : BitVec 64) : KernelExact d v := by
  intro fmt args
  rw [printf, printfLoop_directive, (directive_output d v).1, ok_bind]
  rfl

lemma userExact_iff (d : Directive) (v : BitVec 64) :
    UserExact d v ↔ (d.value v).natAbs < 2 ^ 32 := by
  rw [← user_standard_iff d v]
  constructor
  · intro h
    have hempty := h [] []
    rw [vprintf, vprintfLoop_directive, (directive_output d v).2, ok_bind] at hempty
    rw [(directive_output d v).2]
    have hout := Except.ok.inj hempty
    simp only [List.append_nil] at hout
    rw [hout]
  · intro h fmt args
    rw [vprintf, vprintfLoop_directive, h, ok_bind]
    rfl

/-- Both functions put out the standard numeral, for each of the nine directives and each argument,
exactly if the magnitude of the value is below `2 ^ 32`; the kernel always does, and the numerals
differ in the case of their letters only. Neither `printint` leaves its buffer, whatever 64-bit
value it gets. -/
theorem printf_exact_iff (d : Directive) (v : BitVec 64) :
    (UserExact d v ∧ KernelExact d v ↔ (d.value v).natAbs < 2 ^ 32) ∧ KernelExact d v ∧
      standard 65 d.base (d.value v) = (standard 97 d.base (d.value v)).map upper ∧
      ∀ (xx : BitVec 64) base sgn, base = 10 ∨ base = 16 →
        (∃ out, userPrintint xx.toInt base sgn = .ok out) ∧
          ∃ out, kernelPrintint xx.toInt base sgn = .ok out := by
  have hbase := d.base_eq
  refine ⟨?_, kernelExact d v, standard_upper (by omega) (by omega) _, ?_⟩
  · rw [userExact_iff]
    exact and_iff_left (kernelExact d v)
  · intro xx base sgn hb
    obtain ⟨-, -, -, ⟨hlo, hhi⟩, -⟩ := word_bounds xx
    exact ⟨⟨_, printint_returns userDigits_isTable hb (Or.inl rfl) hlo hhi⟩,
      ⟨_, printint_returns kernelDigits_isTable hb (Or.inr rfl) hlo hhi⟩⟩

/-- A program that prints `2 ^ 32` with `"%ld"` prints a zero. -/
theorem printf_not_exact : ¬ ∀ d v, UserExact d v ∧ KernelExact d v := by
  intro h
  have hzero : vprintf [37, 108, 100] [.word (2 ^ 32)] = .ok [48] := by
    decide
  have hexact := (h ⟨1, .d⟩ (2 ^ 32)).1 [] []
  have htext : (37 : UInt8) :: (Directive.text ⟨1, .d⟩ ++ []) = [37, 108, 100] := rfl
  rw [htext, hzero] at hexact
  have hout := Except.ok.inj hexact
  exact absurd hout (by decide)

end Directives

end FogOS.User.Printf
