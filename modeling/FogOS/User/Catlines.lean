import FogOS.User.Getline

/-!
# Reading lines through a buffer

The `fgets` of `catlines.c`, which reads a byte at a time, and its three variants in
`user/catlines1.c` to `user/catlines3.c`, which read through a buffer that outlives the call and
differ in the size of that buffer only. What `read` will deliver to a buffered reader is the list of
its chunks, one for each call; after the last there is the end of the file.
-/

namespace FogOS.User.Catlines

open Kernel

/-! ### The functions -/

/-- The loop of `fgets`, with room for `k` more bytes before the NUL; each byte is read from the
file. -/
def fgetsLoop : Nat → Nat → Bytes → Bytes → Except Stop (Nat × Bytes × Bytes)
  | 0, i, buf, file => do
    let buf ← store buf i 0
    pure (i, buf, file)
  | _ + 1, i, buf, [] => do
    let buf ← store buf i 0
    pure (i, buf, [])
  | k + 1, i, buf, c :: file => do
    let buf ← store buf i c
    if isEnd c then
      let buf ← store buf (i + 1) 0
      pure (i + 1, buf, file)
    else fgetsLoop k (i + 1) buf file

/-- `fgets(buf, max, fd)` of `catlines.c`: the number of bytes, the buffer and the rest of the
file. -/
def fgets (buf : Bytes) (max : Int) (file : Bytes) : Except Stop (Nat × Bytes × Bytes) :=
  fgetsLoop (max - 1).toNat 0 buf file

/-- `read_buffer`, `buffer_pos` and `buffer_len`. -/
structure Reader where
  readBuffer : Bytes
  bufferPos : Nat
  bufferLen : Nat

/-- The variables of a program whose `BUFFER_SIZE` is `size`. -/
def Reader.init (size : Nat) : Reader := ⟨List.replicate size 0, 0, 0⟩

/-- `buffer_len = read(fd, read_buffer, BUFFER_SIZE); buffer_pos = 0`. -/
def Reader.refill (r : Reader) : List Bytes → Except Stop (Reader × List Bytes)
  | [] => pure ({ r with bufferPos := 0, bufferLen := 0 }, [])
  | chunk :: chunks =>
    if chunk.length ≤ r.readBuffer.length then
      pure (⟨chunk ++ r.readBuffer.drop chunk.length, 0, chunk.length⟩, chunks)
    else throw .wild

/-- Refill the buffer if it is empty. -/
def Reader.fill (r : Reader) (chunks : List Bytes) : Except Stop (Reader × List Bytes) :=
  if r.bufferPos ≥ r.bufferLen then r.refill chunks else pure (r, chunks)

/-- The loop of the buffered variants, with room for `k` more bytes before the NUL. -/
def bufferedLoop : Nat → Nat → Bytes → Reader × List Bytes →
    Except Stop (Nat × Bytes × Reader × List Bytes)
  | 0, i, buf, src => do
    let buf ← store buf i 0
    pure (i, buf, src)
  | k + 1, i, buf, (r, chunks) => do
    let (r, chunks) ← r.fill chunks
    -- the test follows a refill only; without one `buffer_len` is above `buffer_pos`
    if r.bufferLen = 0 then
      let buf ← store buf i 0
      pure (i, buf, r, chunks)
    else
      match r.readBuffer[r.bufferPos]? with
      | none => throw .wild
      | some c =>
        let r := { r with bufferPos := r.bufferPos + 1 }
        let buf ← store buf i c
        if isEnd c then
          let buf ← store buf (i + 1) 0
          pure (i + 1, buf, r, chunks)
        else bufferedLoop k (i + 1) buf (r, chunks)

/-- `fgets1`, `fgets2` and `fgets3`. The size of the buffer is that of `read_buffer`. -/
def fgetsBuffered (buf : Bytes) (max : Int) (src : Reader × List Bytes) :
    Except Stop (Nat × Bytes × Reader × List Bytes) :=
  bufferedLoop (max - 1).toNat 0 buf src

/-- Successive calls, each with its buffer and its `max`: what each returns, and its buffer then. -/
def calls {σ : Type} (f : Bytes → Int → σ → Except Stop (Nat × Bytes × σ)) :
    List (Bytes × Int) → σ → Except Stop (List (Nat × Bytes))
  | [], _ => pure []
  | (buf, max) :: rest, s => do
    let (i, buf, s) ← f buf max s
    let results ← calls f rest s
    pure ((i, buf) :: results)

/-- The calls of `fgets1` in `catlines1.c`. -/
def calls1 (args : List (Bytes × Int)) (chunks : List Bytes) : Except Stop (List (Nat × Bytes)) :=
  calls fgetsBuffered args (Reader.init 64, chunks)

/-- The calls of `fgets2` in `catlines2.c`. -/
def calls2 (args : List (Bytes × Int)) (chunks : List Bytes) : Except Stop (List (Nat × Bytes)) :=
  calls fgetsBuffered args (Reader.init 512, chunks)

/-- The calls of `fgets3` in `catlines3.c`. -/
def calls3 (args : List (Bytes × Int)) (chunks : List Bytes) : Except Stop (List (Nat × Bytes)) :=
  calls fgetsBuffered args (Reader.init 2048, chunks)

/-! ### The simulation -/

/-- The chunks that `read` may deliver to a buffer of `size` bytes. -/
def Delivers (size : Nat) (chunks : List Bytes) : Prop := ∀ c ∈ chunks, c ≠ [] ∧ c.length ≤ size

/-- What is left in the buffer, and then the chunks to come, is the rest of the file. -/
structure Remains (r : Reader) (chunks : List Bytes) (file : Bytes) : Prop where
  pos : r.bufferPos ≤ r.bufferLen
  len : r.bufferLen ≤ r.readBuffer.length
  delivers : Delivers r.readBuffer.length chunks
  rest : (r.readBuffer.take r.bufferLen).drop r.bufferPos ++ chunks.flatten = file

section Simulation

variable {r : Reader} {chunks : List Bytes} {file buf : Bytes} {size : Nat}

lemma Remains.init (h : Delivers size chunks) :
    Remains (Reader.init size) chunks chunks.flatten := by
  refine ⟨le_rfl, Nat.zero_le _, ?_, by simp [Reader.init]⟩
  simpa [Reader.init] using h

/-- The next byte of the file, after the buffer has been filled where it is empty; at the end of the
file it stays empty. -/
lemma Remains.next (h : Remains r chunks file) :
    ∃ r' chunks', r.fill chunks = .ok (r', chunks') ∧
      match file with
      | [] => r'.bufferLen = 0 ∧ Remains r' chunks' []
      | c :: file => r'.bufferLen ≠ 0 ∧ r'.readBuffer[r'.bufferPos]? = some c ∧
          Remains { r' with bufferPos := r'.bufferPos + 1 } chunks' file := by
  obtain ⟨hpos, hlen, hdel, hrest⟩ := h
  by_cases hp : r.bufferPos ≥ r.bufferLen
  · rw [Reader.fill, if_pos hp]
    rw [List.drop_eq_nil_of_le (by rw [List.length_take]; omega), List.nil_append] at hrest
    cases chunks with
    | nil =>
      subst hrest
      exact ⟨_, [], rfl, rfl, ⟨le_rfl, Nat.zero_le _, hdel, rfl⟩⟩
    | cons chunk chunks =>
      obtain ⟨⟨hne, hle⟩, htail⟩ := List.forall_mem_cons.mp hdel
      obtain ⟨c, chunk, rfl⟩ := List.exists_cons_of_ne_nil hne
      subst hrest
      refine ⟨_, chunks, if_pos hle, Nat.succ_ne_zero _, rfl, ⟨?_, ?_, ?_, ?_⟩⟩
      · exact Nat.succ_le_succ (Nat.zero_le _)
      · simp
      · intro d hd
        obtain ⟨hd, hdle⟩ := htail d hd
        refine ⟨hd, ?_⟩
        simp only [List.length_append, List.length_drop]
        omega
      · simp
  · rw [Reader.fill, if_neg hp]
    have hlt : r.bufferPos < (r.readBuffer.take r.bufferLen).length := by
      rw [List.length_take]
      omega
    rw [List.drop_eq_getElem_cons hlt, List.cons_append] at hrest
    subst hrest
    refine ⟨r, chunks, rfl, by omega, ?_, ⟨by simp only; omega, hlen, hdel, rfl⟩⟩
    rw [List.getElem_take, List.getElem?_eq_getElem]

/-- What a buffered call and an unbuffered one do alike: they stop for the same reason, or they
return the same and leave the same to be read. -/
inductive Same : Except Stop (Nat × Bytes × Reader × List Bytes) →
    Except Stop (Nat × Bytes × Bytes) → Prop
  | error (e : Stop) : Same (.error e) (.error e)
  | ok {i : Nat} {buf : Bytes} {r : Reader} {chunks : List Bytes} {file : Bytes} :
      Remains r chunks file → Same (.ok (i, buf, r, chunks)) (.ok (i, buf, file))

/-- The byte stored is the same on both sides. -/
lemma Same.store {i : Nat} {c : UInt8}
    {f : Bytes → Except Stop (Nat × Bytes × Reader × List Bytes)}
    {g : Bytes → Except Stop (Nat × Bytes × Bytes)} (h : ∀ buf, Same (f buf) (g buf)) :
    Same (User.store buf i c >>= f) (User.store buf i c >>= g) := by
  unfold User.store
  split
  · exact h _
  · exact Same.error _

/-- The loops stay together. The induction is on the room that is left. -/
lemma bufferedLoop_same {k i : Nat} (h : Remains r chunks file) :
    Same (bufferedLoop k i buf (r, chunks)) (fgetsLoop k i buf file) := by
  induction k generalizing i buf r chunks file with
  | zero =>
    unfold bufferedLoop fgetsLoop
    exact Same.store fun _ => Same.ok h
  | succ k ih =>
    obtain ⟨r', chunks', hfill, hnext⟩ := h.next
    rw [bufferedLoop, hfill]
    simp only [ok_bind]
    cases file with
    | nil =>
      obtain ⟨hzero, hrem⟩ := hnext
      rw [if_pos hzero, fgetsLoop]
      exact Same.store fun _ => Same.ok hrem
    | cons c file =>
      obtain ⟨hne, hbyte, hrem⟩ := hnext
      rw [if_neg hne, hbyte, fgetsLoop]
      refine Same.store fun buf => ?_
      by_cases hc : isEnd c
      · simp only [hc, if_true]
        exact Same.store fun _ => Same.ok hrem
      · simp only [hc]
        exact ih hrem

/-- So do any number of calls, since each leaves the two readers related as it found them. -/
lemma calls_same (args : List (Bytes × Int)) (h : Remains r chunks file) :
    calls fgetsBuffered args (r, chunks) = calls fgets args file := by
  induction args generalizing r chunks file with
  | nil => rfl
  | cons arg args ih =>
    obtain ⟨buf, max⟩ := arg
    rw [calls, calls]
    have hone : Same (fgetsBuffered buf max (r, chunks)) (fgets buf max file) := bufferedLoop_same h
    generalize fgetsBuffered buf max (r, chunks) = x at hone
    generalize fgets buf max file = y at hone
    cases hone with
    | error e => rfl
    | ok hrem =>
      simp only [ok_bind]
      rw [ih hrem]

end Simulation

/-! ### What the calls return -/

/-- The string that a call returns. -/
def string (result : Nat × Bytes) : Bytes := result.2.take result.1

/-- What a loop that begins at `i`, with room for `k` bytes, makes of a buffer: it moves a piece of
the file there and ends it with a NUL. -/
structure Moved (i k : Nat) (buf file : Bytes) (j : Nat) (buf' rest : Bytes) : Prop where
  start : i ≤ j
  size : buf'.length = buf.length
  strings : buf'.take j ++ rest = buf.take i ++ file
  count : j + rest.length = i + file.length
  ended : buf'[j]? = some 0
  progress : 0 < k → file ≠ [] → i < j

section Returned

variable {buf file : Bytes} {i k : Nat}

lemma store_ok {c : UInt8} (h : i < buf.length) : store buf i c = .ok (buf.set i c) := if_pos h

/-- A buffer in which a byte has been stored, up to that byte. -/
lemma take_store {c : UInt8} (h : i < buf.length) :
    (buf.set i c).take (i + 1) = buf.take i ++ [c] := by
  rw [List.take_add_one, List.take_set_of_le le_rfl, List.getElem?_set_self h]
  rfl

/-- The loop that stops at once. -/
lemma Moved.stop (h : i < buf.length) (hk : 0 < k → file = []) :
    Moved i k buf file i (buf.set i 0) file where
  start := le_rfl
  size := List.length_set
  strings := by rw [List.take_set_of_le le_rfl]
  count := rfl
  ended := List.getElem?_set_self h
  progress := fun hpos hne => absurd (hk hpos) hne

/-- The loop that has stored a byte. -/
lemma Moved.step {c : UInt8} {j l : Nat} {buf' rest : Bytes} (h : i < buf.length)
    (hm : Moved (i + 1) l (buf.set i c) file j buf' rest) :
    Moved i k buf (c :: file) j buf' rest := by
  obtain ⟨hstart, hsize, hstrings, hcount, hended, -⟩ := hm
  refine ⟨Nat.le_of_succ_le hstart, hsize.trans List.length_set, ?_, ?_, hended, fun _ _ => hstart⟩
  · rw [hstrings, take_store h, List.append_assoc, List.singleton_append]
  · rw [hcount, List.length_cons, Nat.add_right_comm, Nat.add_assoc]

/-- The loop with room in its buffer for the bytes and the NUL. -/
lemma fgetsLoop_moved (h : i + k < buf.length) :
    ∃ j buf' rest, fgetsLoop k i buf file = .ok (j, buf', rest) ∧
      Moved i k buf file j buf' rest := by
  induction k generalizing i buf file with
  | zero =>
    rw [Nat.add_zero] at h
    rw [fgetsLoop, store_ok h]
    exact ⟨i, _, file, rfl, Moved.stop h fun hk => absurd hk (lt_irrefl 0)⟩
  | succ k ih =>
    have hi : i < buf.length := by omega
    cases file with
    | nil =>
      rw [fgetsLoop, store_ok hi]
      exact ⟨i, _, [], rfl, Moved.stop hi fun _ => rfl⟩
    | cons c file =>
      rw [fgetsLoop, store_ok hi]
      simp only [ok_bind]
      have hroom : i + 1 + k < (buf.set i c).length := by
        rw [List.length_set]
        omega
      by_cases hc : isEnd c
      · have hnul : i + 1 < (buf.set i c).length := by omega
        rw [if_pos hc, store_ok hnul]
        have hstop : Moved (i + 1) 0 (buf.set i c) file (i + 1) ((buf.set i c).set (i + 1) 0) file :=
          Moved.stop hnul fun hk => absurd hk (lt_irrefl 0)
        exact ⟨i + 1, _, file, rfl, hstop.step hi⟩
      · rw [if_neg hc]
        obtain ⟨j, buf', rest, hrun, hm⟩ := ih hroom
        exact ⟨j, buf', rest, hrun, hm.step hi⟩

/-- One call, with a buffer of `max` bytes or more: the string and what is left make up the file,
and the string is empty at the end of the file only. -/
lemma fgets_moved {max : Int} (hmin : 2 ≤ max) (hmax : max ≤ buf.length) :
    ∃ j buf' rest, fgets buf max file = .ok (j, buf', rest) ∧
      string (j, buf') ++ rest = file ∧ j + rest.length = file.length ∧ buf'[j]? = some 0 ∧
      (file ≠ [] → 0 < j) := by
  obtain ⟨j, buf', rest, hrun, -, -, hstrings, hcount, hended, hprogress⟩ :=
    @fgetsLoop_moved buf file 0 (max - 1).toNat (by omega)
  refine ⟨j, buf', rest, hrun, ?_, ?_, hended, hprogress (by omega)⟩
  · simpa [string] using hstrings
  · simpa using hcount

/-- The calls return NUL-terminated strings, which together are the file as far as it has been read.
They are the whole file once one of them is empty, or there were as many as the file has bytes. -/
lemma calls_file {args : List (Bytes × Int)}
    (hargs : ∀ arg ∈ args, 2 ≤ arg.2 ∧ arg.2 ≤ arg.1.length) :
    ∃ results rest, calls fgets args file = .ok results ∧ results.length = args.length ∧
      (∀ result ∈ results, result.2[result.1]? = some 0) ∧
      (results.map string).flatten ++ rest = file ∧
      ((∃ result ∈ results, result.1 = 0) ∨ file.length ≤ args.length → rest = []) := by
  induction args generalizing file with
  | nil =>
    refine ⟨[], file, rfl, rfl, fun _ h => absurd h List.not_mem_nil, rfl, ?_⟩
    rintro (⟨result, h, -⟩ | h)
    · exact absurd h List.not_mem_nil
    · exact List.length_eq_zero_iff.mp (Nat.le_zero.mp h)
  | cons arg args ih =>
    obtain ⟨buf, max⟩ := arg
    obtain ⟨⟨hmin, hmax⟩, hargs⟩ := List.forall_mem_cons.mp hargs
    obtain ⟨j, buf', file', hone, hstring, hcount, hended, hprogress⟩ :=
      @fgets_moved buf file max hmin hmax
    obtain ⟨results, rest, hcalls, hlength, hnul, hstrings, hend⟩ := @ih file' hargs
    refine ⟨(j, buf') :: results, rest, ?_, ?_, ?_, ?_, ?_⟩
    · rw [calls, hone]
      simp only [ok_bind]
      rw [hcalls]
      rfl
    · rw [List.length_cons, List.length_cons, hlength]
    · exact List.forall_mem_cons.mpr ⟨hended, hnul⟩
    · rw [List.map_cons, List.flatten_cons, List.append_assoc, hstrings, hstring]
    · intro h
      by_cases hfile : file = []
      · -- nothing was left, so nothing is left
        subst hfile
        exact (List.append_eq_nil_iff.mp (hstrings.trans
          (List.append_eq_nil_iff.mp hstring).2)).2
      · have hpos := hprogress hfile
        refine hend ?_
        rcases h with ⟨result, hmem, hzero⟩ | hlen
        · rcases List.mem_cons.mp hmem with rfl | hmem
          · exact absurd hzero hpos.ne'
          · exact Or.inl ⟨result, hmem, hzero⟩
        · rw [List.length_cons] at hlen
          exact Or.inr (by omega)

end Returned

/-- The three variants, each with its own chunks, and `fgets` on the file that the chunks make up. -/
lemma variants_eq {chunks₁ chunks₂ chunks₃ : List Bytes} {file : Bytes}
    (h₁ : Delivers 64 chunks₁) (h₂ : Delivers 512 chunks₂) (h₃ : Delivers 2048 chunks₃)
    (hf₁ : chunks₁.flatten = file) (hf₂ : chunks₂.flatten = file) (hf₃ : chunks₃.flatten = file)
    (args : List (Bytes × Int)) :
    calls1 args chunks₁ = calls fgets args file ∧ calls2 args chunks₂ = calls fgets args file ∧
      calls3 args chunks₃ = calls fgets args file := by
  refine ⟨?_, ?_, ?_⟩
  · rw [← hf₁]
    exact calls_same args (Remains.init h₁)
  · rw [← hf₂]
    exact calls_same args (Remains.init h₂)
  · rw [← hf₃]
    exact calls_same args (Remains.init h₃)

/-- The buffered readers return what the unbuffered one does, whatever the size of the buffer and
however `read` splits the file; with buffers as large as their `max`, the strings are the file. -/
theorem buffered_eq_unbuffered {size : Nat} {chunks : List Bytes} (h : Delivers size chunks)
    (args : List (Bytes × Int)) :
    calls fgetsBuffered args (Reader.init size, chunks) = calls fgets args chunks.flatten ∧
    (∀ size' chunks', Delivers size' chunks' → chunks'.flatten = chunks.flatten →
      calls fgetsBuffered args (Reader.init size', chunks') =
        calls fgetsBuffered args (Reader.init size, chunks)) ∧
    ((∀ arg ∈ args, 2 ≤ arg.2 ∧ arg.2 ≤ arg.1.length) →
      ∃ results, calls fgetsBuffered args (Reader.init size, chunks) = .ok results ∧
        results.length = args.length ∧
        (∀ result ∈ results, result.2[result.1]? = some 0) ∧
        (results.map string).flatten <+: chunks.flatten ∧
        ((∃ result ∈ results, result.1 = 0) ∨ chunks.flatten.length ≤ args.length →
          (results.map string).flatten = chunks.flatten)) := by
  have hsame := calls_same args (Remains.init h)
  refine ⟨hsame, fun size' chunks' h' heq => ?_, fun hargs => ?_⟩
  · rw [hsame, calls_same args (Remains.init h'), heq]
  · obtain ⟨results, rest, hcalls, hlength, hnul, hstrings, hend⟩ := calls_file hargs
    refine ⟨results, hsame.trans hcalls, hlength, hnul, ⟨rest, hstrings⟩, fun hdone => ?_⟩
    rw [hend hdone, List.append_nil] at hstrings
    exact hstrings

/-- The file `ab`, newline, `c`, in two chunks for a buffer of three bytes, and three calls. -/
theorem buffered_eq_unbuffered_ab :
    Delivers 3 [[97, 98, 10], [99]] ∧
      calls fgetsBuffered (List.replicate 3 (List.replicate 3 0, 3))
        (Reader.init 3, [[97, 98, 10], [99]]) =
      calls fgets (List.replicate 3 (List.replicate 3 0, 3)) [97, 98, 10, 99] := by
  have h : Delivers 3 [[97, 98, 10], [99]] := by
    unfold Delivers
    decide
  exact ⟨h, (buffered_eq_unbuffered h _).1⟩

end FogOS.User.Catlines
