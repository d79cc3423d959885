import FogOS.Lib.ByteMem
import FogOS.Lib.Steps
import FogOS.Kernel.Fs

/-!
# Commit and recovery

The disk side of `kernel/log.c`: `write_log`, `write_head`, `install_trans`, `recover_from_log` and
`commit`, over the buffer cache of `kernel/bio.c`. The code is cut into steps, each of which writes
one block to disk at most, and the machine may crash between any two of them.

The machine also keeps, for the statements only, the writes of the current transaction and the
transactions whose committing `write_head` has finished.
-/

namespace FogOS.Kernel.Recovery

open ByteMem

/-- A block is given by its bytes. -/
abbrev Block := Mem

/-- A write by a file system operation: block number and new contents. -/
abbrev Write := Nat × Block

/-- What the code does next. -/
inductive Pc
  /-- No commit is running. -/
  | idle
  /-- In `write_log`, before the block `tail`. -/
  | writeLog (tail : Nat)
  /-- Before the `write_head` that commits. -/
  | writeHead
  /-- In `install_trans`, before the block `tail`. -/
  | install (recovering : Bool) (tail : Nat)
  /-- Before the `write_head` that clears the log. -/
  | clear
  /-- Before `recover_from_log`. -/
  | boot
  deriving DecidableEq

/-- The disk, the buffer cache with the pins of the log, and `log.lh`. -/
structure Machine where
  disk : Nat → Block
  cache : Nat → Option Block
  pin : Nat → Nat
  lh : List Nat
  pc : Pc
  pending : List Write
  txns : List (List Write)

/-- Store the words of the list one after another. -/
def storeWords (m : Mem) (a : Nat) : List Nat → Mem
  | [] => m
  | v :: l => storeWords (m.store32 a v) (a + 4) l

/-- The header block holds `n` and the first `n` entries of `block`. -/
def encodeHead (m : Block) (lh : List Nat) : Block := storeWords (m.store32 0 lh.length) 4 lh

def decodeHead (m : Block) : List Nat :=
  (List.range (m.load32 0)).map fun i => m.load32 (4 + 4 * i)

namespace Machine

/-- The contents that `bread` returns. -/
def bread (s : Machine) (b : Nat) : Block := (s.cache b).getD (s.disk b)

/-- The contents of a buffer are changed. -/
def setBuf (s : Machine) (b : Nat) (v : Block) : Machine :=
  { s with cache := Function.update s.cache b (some v) }

/-- The buffer is written to disk. -/
def bwrite (s : Machine) (b : Nat) : Machine :=
  { s with disk := Function.update s.disk b (s.bread b) }

def bpin (s : Machine) (b : Nat) : Machine :=
  { s with pin := Function.update s.pin b (s.pin b + 1) }

def bunpin (s : Machine) (b : Nat) : Machine :=
  { s with pin := Function.update s.pin b (s.pin b - 1) }

/-- Write in-memory log header to disk. -/
def writeHead (s : Machine) (start : Nat) : Machine :=
  (s.setBuf start (encodeHead (s.bread start) s.lh)).bwrite start

/-- Read the log header from disk into the in-memory log header. -/
def readHead (s : Machine) (start : Nat) : Machine := { s with lh := decodeHead (s.bread start) }

/-- An operation changes a block and calls `log_write`. -/
def logWrite (s : Machine) (b : Nat) (v : Block) : Machine :=
  let s := { s.setBuf b v with pending := s.pending ++ [(b, v)] }
  if b ∈ s.lh then s else { s.bpin b with lh := s.lh ++ [b] }

/-- The last operation ends: `commit` begins, if there is something to commit. -/
def commit (s : Machine) : Machine := if 0 < s.lh.length then { s with pc := .writeLog 0 } else s

/-- The next step of `commit` or `recover_from_log`. -/
def advance (s : Machine) (start : Nat) : Machine :=
  match s.pc with
  | .idle => s
  | .writeLog tail =>
    match s.lh[tail]? with
    | some b =>
      { (s.setBuf (start + tail + 1) (s.bread b)).bwrite (start + tail + 1) with
        pc := .writeLog (tail + 1) }
    | none => { s with pc := .writeHead }
  | .writeHead =>
    { s.writeHead start with
      pc := .install false 0, txns := s.txns ++ [s.pending], pending := [] }
  | .install recovering tail =>
    match s.lh[tail]? with
    | some b =>
      let s := (s.setBuf b (s.bread (start + tail + 1))).bwrite b
      let s := if recovering then s else s.bunpin b
      { s with pc := .install recovering (tail + 1) }
    | none => { s with lh := [], pc := .clear }
  | .clear => { s.writeHead start with pc := .idle }
  | .boot => { s.readHead start with pc := .install true 0 }

/-- Memory is lost. -/
def crash (s : Machine) : Machine :=
  { s with cache := fun _ => none, pin := fun _ => 0, lh := [], pc := .boot, pending := [] }

/-- The cache takes in a block. -/
def load (s : Machine) (b : Nat) : Machine := s.setBuf b (s.bread b)

/-- A buffer is recycled. -/
def evict (s : Machine) (b : Nat) : Machine :=
  { s with cache := Function.update s.cache b none }

end Machine

/-- The steps of the system. -/
inductive Act
  | logWrite (b : Nat) (v : Block)
  | commit
  | advance
  | crash
  | load (b : Nat)
  | evict (b : Nat)

/-- A block outside the log, with a number that fits in a `uint`. -/
def Home (start b : Nat) : Prop := (b < start ∨ start + logblocks < b) ∧ b < 2 ^ 32

/-- What may happen in `s`: operations write home blocks, at most `LOGBLOCKS` of them between two
commits, while no commit runs; only buffers without a pin are recycled. -/
inductive Step (start : Nat) : Machine → Act → Machine → Prop
  | logWrite {s : Machine} {b : Nat} {v : Block} (hpc : s.pc = .idle) (hb : Home start b)
      (hn : b ∈ s.lh ∨ s.lh.length < logblocks) : Step start s (.logWrite b v) (s.logWrite b v)
  | commit {s : Machine} (hpc : s.pc = .idle) : Step start s .commit s.commit
  | advance {s : Machine} : Step start s .advance (s.advance start)
  | crash {s : Machine} : Step start s .crash s.crash
  | load {s : Machine} {b : Nat} : Step start s (.load b) (s.load b)
  | evict {s : Machine} {b : Nat} (hb : s.pin b = 0) : Step start s (.evict b) (s.evict b)

/-- The machine before the first boot. -/
def initial (d : Nat → Block) : Machine where
  disk := d
  cache := fun _ => none
  pin := fun _ => 0
  lh := []
  pc := .boot
  pending := []
  txns := []

/-- The contents of the blocks after the writes. -/
def applyWrites (d : Nat → Block) (l : List Write) : Nat → Block :=
  l.foldl (fun d w => Function.update d w.1 w.2) d

/-- The contents of the blocks after the transactions, in order. -/
def contents (d : Nat → Block) (txns : List (List Write)) : Nat → Block :=
  applyWrites d txns.flatten

/-! ### The header block -/

lemma load32_storeWords_ne (m : Mem) (a c : Nat) (l : List Nat) (h : c + 4 ≤ a) :
    (storeWords m a l).load32 c = m.load32 c := by
  induction l generalizing m a with
  | nil => rfl
  | cons v l ih =>
    rw [storeWords, ih _ _ (by omega), Mem.load32_store32_ne _ _ _ _ (by omega)]

lemma load32_storeWords (m : Mem) (a : Nat) (l : List Nat) (hl : ∀ v ∈ l, v < 2 ^ 32) {i v : Nat}
    (hi : l[i]? = some v) : (storeWords m a l).load32 (a + 4 * i) = v := by
  induction l generalizing m a i with
  | nil => simp at hi
  | cons w l ih =>
    cases i with
    | zero =>
      obtain rfl : w = v := by simpa using hi
      show (storeWords (m.store32 a w) (a + 4) l).load32 a = w
      rw [load32_storeWords_ne _ _ _ _ le_rfl]
      exact Mem.load32_store32_same _ _ _ (hl w List.mem_cons_self)
    | succ i =>
      rw [List.getElem?_cons_succ] at hi
      have hrest := ih (m.store32 a w) (a + 4) (fun x hx => hl x (List.mem_cons_of_mem w hx)) hi
      rw [storeWords, show a + 4 * (i + 1) = a + 4 + 4 * i by omega]
      exact hrest

/-- What `write_head` wrote, `read_head` reads. -/
lemma decodeHead_encodeHead (m : Block) {l : List Nat} (hl : ∀ b ∈ l, b < 2 ^ 32)
    (hlen : l.length < 2 ^ 32) : decodeHead (encodeHead m l) = l := by
  have hn : (encodeHead m l).load32 0 = l.length := by
    rw [encodeHead, load32_storeWords_ne _ _ _ _ (by omega)]
    exact Mem.load32_store32_same _ _ _ hlen
  apply List.ext_getElem?
  intro i
  rw [decodeHead, hn, List.getElem?_map]
  by_cases hi : i < l.length
  · rw [List.getElem?_range hi, List.getElem?_eq_getElem hi]
    have hget : l[i]? = some l[i] := List.getElem?_eq_getElem hi
    exact congrArg some (load32_storeWords _ 4 l hl hget)
  · have hle : l.length ≤ i := not_lt.mp hi
    rw [List.getElem?_eq_none hle, List.getElem?_eq_none (by simpa using hle)]
    rfl

/-! ### Buffers and blocks -/

section Buffers

variable (s : Machine) (b : Nat) (v : Block)

@[simp] lemma bread_setBuf : (s.setBuf b v).bread = Function.update s.bread b v := by
  funext x
  by_cases hx : x = b
  · subst hx
    simp [Machine.bread, Machine.setBuf]
  · simp [Machine.bread, Machine.setBuf, hx]

@[simp] lemma bread_bwrite : (s.bwrite b).bread = s.bread := by
  funext x
  unfold Machine.bread Machine.bwrite
  cases h : s.cache x with
  | some w => rfl
  | none =>
    by_cases hx : x = b
    · subst hx
      simp [Machine.bread, h]
    · simp [hx]

/-- A buffer is changed and written. -/
@[simp] lemma disk_bwrite_setBuf :
    ((s.setBuf b v).bwrite b).disk = Function.update s.disk b v := by
  show Function.update s.disk b ((s.setBuf b v).bread b) = _
  rw [bread_setBuf, Function.update_self]

lemma bread_load : (s.load b).bread = s.bread := by
  rw [Machine.load, bread_setBuf, Function.update_eq_self]

lemma bread_evict (h : s.bread b = s.disk b) : (s.evict b).bread = s.bread := by
  funext x
  by_cases hx : x = b
  · subst hx
    rw [h]
    simp [Machine.bread, Machine.evict]
  · simp [Machine.bread, Machine.evict, hx]

end Buffers

/-! ### The invariant -/

/-- A crash now loses nothing that is committed: the header names the blocks that are still to be
installed, the log holds them, and the other home blocks are as they should be. -/
structure Safe (start : Nat) (D disk : Nat → Block) : Prop where
  home : ∀ b ∈ decodeHead (disk start), Home start b
  length_le : (decodeHead (disk start)).length ≤ logblocks
  logged : ∀ (i b : Nat), (decodeHead (disk start))[i]? = some b → disk (start + i + 1) = D b
  other : ∀ b, Home start b → b ∉ decodeHead (disk start) → disk b = D b

/-- The contents of the blocks with the writes of the current transaction. -/
def current (d : Nat → Block) (s : Machine) : Nat → Block :=
  applyWrites (contents d s.txns) s.pending

/-- The log on disk is empty, and the changed blocks are pinned in the cache. -/
structure Logging (start : Nat) (d : Nat → Block) (s : Machine) : Prop where
  head : decodeHead (s.disk start) = []
  home : ∀ b ∈ s.lh, Home start b
  length_le : s.lh.length ≤ logblocks
  pin : ∀ b, s.pin b = s.lh.count b
  bread : ∀ b, Home start b → s.bread b = current d s b
  clean : ∀ b, b ∉ s.lh → s.bread b = s.disk b

/-- The first `tail` blocks of the list are installed. -/
structure Installing (start : Nat) (d : Nat → Block) (s : Machine) (recovering : Bool)
    (tail : Nat) : Prop where
  head : decodeHead (s.disk start) = s.lh
  installed : ∀ (i b : Nat), i < tail → s.lh[i]? = some b → s.disk b = contents d s.txns b
  dirty : ∀ b, s.bread b ≠ s.disk b → recovering = false ∧ b ∈ s.lh.drop tail
  pin : ∀ b, s.pin b = if recovering then 0 else (s.lh.drop tail).count b
  pending : s.pending = []

/-- The cache holds nothing that is not on disk. -/
structure Settled (s : Machine) : Prop where
  lh : s.lh = []
  pending : s.pending = []
  pin : ∀ b, s.pin b = 0
  bread : s.bread = s.disk

/-- What holds at each point of the code. -/
def At (start : Nat) (d : Nat → Block) (s : Machine) : Pc → Prop
  | .idle => Logging start d s
  | .writeLog tail => Logging start d s ∧
    ∀ (i b : Nat), i < tail → s.lh[i]? = some b → s.disk (start + i + 1) = current d s b
  | .writeHead => Logging start d s ∧
    ∀ (i b : Nat), s.lh[i]? = some b → s.disk (start + i + 1) = current d s b
  | .install recovering tail => Installing start d s recovering tail
  | .clear => Settled s ∧ ∀ b, Home start b → s.disk b = contents d s.txns b
  | .boot => Settled s

structure Inv (start : Nat) (d : Nat → Block) (s : Machine) : Prop where
  safe : Safe start (contents d s.txns) s.disk
  at_pc : At start d s s.pc

variable {start : Nat} {d : Nat → Block} {s s' : Machine}

lemma not_home_log {i : Nat} (hi : i ≤ logblocks) : ¬ Home start (start + i) := by
  rintro ⟨h | h, -⟩ <;> omega

lemma Home.ne {b i : Nat} (h : Home start b) (hi : i ≤ logblocks) : b ≠ start + i := by
  rintro rfl
  exact not_home_log hi h

lemma current_logWrite (b : Nat) (v : Block) :
    applyWrites (contents d s.txns) (s.pending ++ [(b, v)]) =
      Function.update (current d s) b v := by
  rw [applyWrites, List.foldl_append]
  rfl

lemma contents_concat (txns : List (List Write)) (t : List Write) :
    contents d (txns ++ [t]) = applyWrites (contents d txns) t := by
  simp [contents, applyWrites]

/-- A block of the list is one of the log. -/
lemma getElem?_lt {l : List Nat} {i b : Nat} (h : l[i]? = some b) : i < l.length :=
  (List.getElem?_eq_some_iff.mp h).1

lemma Logging.setPc (h : Logging start d s) (pc : Pc) : Logging start d { s with pc := pc } :=
  ⟨h.head, h.home, h.length_le, h.pin, h.bread, h.clean⟩

lemma logging_logWrite {b : Nat} {v : Block} (h : Logging start d s) (hb : Home start b)
    (hn : b ∈ s.lh ∨ s.lh.length < logblocks) : Logging start d (s.logWrite b v) := by
  have hclean : ∀ x, x ≠ b → x ∉ s.lh → Function.update s.bread b v x = s.disk x := by
    intro x hx hxl
    rw [Function.update_of_ne hx, h.clean x hxl]
  have hbread : ∀ x, Home start x → Function.update s.bread b v x =
      applyWrites (contents d s.txns) (s.pending ++ [(b, v)]) x := by
    intro x hx
    rw [current_logWrite, Function.update_apply, Function.update_apply, h.bread x hx]
  have hview : ({ s.setBuf b v with pending := s.pending ++ [(b, v)] } : Machine).bread =
      Function.update s.bread b v := bread_setBuf s b v
  unfold Machine.logWrite
  dsimp only
  split
  · next hin =>
    refine ⟨h.head, h.home, h.length_le, h.pin, fun x hx => ?_, fun x hx => ?_⟩
    · rw [hview]
      exact hbread x hx
    · rw [hview]
      exact hclean x (fun he => hx (he ▸ hin)) hx
  · next hin =>
    refine ⟨h.head, fun x hx => ?_, ?_, fun x => ?_, fun x hx => ?_, fun x hx => ?_⟩
    · rcases List.mem_append.mp hx with hx | hx
      · exact h.home x hx
      · rwa [List.mem_singleton.mp hx]
    · have hlt := hn.resolve_left hin
      simp only [List.length_append, List.length_singleton]
      exact hlt
    · show Function.update s.pin b (s.pin b + 1) x = (s.lh ++ [b]).count x
      rw [List.count_append, List.count_singleton, Function.update_apply, h.pin, h.pin]
      by_cases hxb : x = b
      · simp [hxb]
      · simp [hxb, Ne.symm hxb]
    · exact (congrFun hview x).trans (hbread x hx)
    · rw [List.mem_append, List.mem_singleton, not_or] at hx
      exact (congrFun hview x).trans (hclean x hx.2 hx.1)

/-- The copies of the blocks go to the log, one by one. -/
lemma logging_writeLog {tail b : Nat} (h : Logging start d s) (hget : s.lh[tail]? = some b) :
    Logging start d { (s.setBuf (start + tail + 1) (s.bread b)).bwrite (start + tail + 1) with
      pc := .writeLog (tail + 1) } := by
  have hlt : tail + 1 ≤ logblocks := (getElem?_lt hget).trans_le h.length_le
  have hne : start ≠ start + tail + 1 := by omega
  refine ⟨?_, h.home, h.length_le, h.pin, fun x hx => ?_, fun x hx => ?_⟩
  · show decodeHead (((s.setBuf _ _).bwrite _).disk start) = []
    rw [disk_bwrite_setBuf, Function.update_of_ne hne]
    exact h.head
  · show ((s.setBuf _ _).bwrite _).bread x = current d s x
    have hxne : x ≠ start + tail + 1 := hx.ne hlt
    rw [bread_bwrite, bread_setBuf, Function.update_of_ne hxne, h.bread x hx]
  · show ((s.setBuf _ _).bwrite _).bread x = ((s.setBuf _ _).bwrite _).disk x
    rw [bread_bwrite, bread_setBuf, disk_bwrite_setBuf, Function.update_apply,
      Function.update_apply, h.clean x hx]

lemma Safe.update {D disk : Nat → Block} {x : Nat} {v : Block} (h : Safe start D disk)
    (hstart : x ≠ start)
    (hlog : ∀ (i b : Nat), (decodeHead (disk start))[i]? = some b → x ≠ start + i + 1)
    (hhome : Home start x → x ∈ decodeHead (disk start)) :
    Safe start D (Function.update disk x v) := by
  have hhead : Function.update disk x v start = disk start :=
    Function.update_of_ne hstart.symm _ _
  refine ⟨?_, ?_, fun i b hi => ?_, fun b hb hnot => ?_⟩
  · rw [hhead]
    exact h.home
  · rw [hhead]
    exact h.length_le
  · rw [hhead] at hi
    rw [Function.update_of_ne (hlog i b hi).symm]
    exact h.logged i b hi
  · rw [hhead] at hnot
    have hne : b ≠ x := fun he => hnot (he ▸ hhome (he ▸ hb))
    rw [Function.update_of_ne hne]
    exact h.other b hb hnot

lemma Inv.writeLog {tail : Nat} (h : Inv start d s) (hpc : s.pc = .writeLog tail) :
    Inv start d (s.advance start) := by
  obtain ⟨hlog, hdone⟩ : Logging start d s ∧
      ∀ (i b : Nat), i < tail → s.lh[i]? = some b → s.disk (start + i + 1) = current d s b := by
    have hat := h.at_pc
    rwa [hpc] at hat
  rw [Machine.advance, hpc]
  dsimp only
  split
  · next b hget =>
    have hlt : tail + 1 ≤ logblocks := (getElem?_lt hget).trans_le hlog.length_le
    refine ⟨?_, logging_writeLog hlog hget, fun i x hi hx => ?_⟩
    · show Safe start _ ((s.setBuf _ _).bwrite _).disk
      rw [disk_bwrite_setBuf]
      refine h.safe.update (by omega) (fun i b hi => ?_) fun hh => absurd hh (not_home_log hlt)
      rw [hlog.head] at hi
      simp at hi
    · show ((s.setBuf _ _).bwrite _).disk (start + i + 1) = current d s x
      rw [disk_bwrite_setBuf]
      rcases Nat.lt_succ_iff_lt_or_eq.mp hi with hi | rfl
      · rw [Function.update_of_ne (by omega), hdone i x hi hx]
      · obtain rfl : b = x := Option.some.inj (hget.symm.trans hx)
        rw [Function.update_self]
        exact hlog.bread b (hlog.home b (List.mem_of_getElem? hget))
  · next hnone =>
    refine ⟨h.safe, hlog.setPc _, fun i b hi => hdone i b ?_ hi⟩
    have hlen : s.lh.length ≤ tail := List.getElem?_eq_none_iff.mp hnone
    exact (getElem?_lt hi).trans_le hlen

/-- With the header the transaction is committed. -/
lemma Inv.writeHead (h : Inv start d s) (hpc : s.pc = .writeHead) :
    Inv start d (s.advance start) := by
  obtain ⟨hlog, hdone⟩ : Logging start d s ∧
      ∀ (i b : Nat), s.lh[i]? = some b → s.disk (start + i + 1) = current d s b := by
    have hat := h.at_pc
    rwa [hpc] at hat
  have hhead : decodeHead (encodeHead (s.bread start) s.lh) = s.lh := by
    refine decodeHead_encodeHead _ (fun b hb => (hlog.home b hb).2) ?_
    have hle := hlog.length_le
    simp only [logblocks] at hle
    omega
  have hother : ∀ b, Home start b → b ∉ s.lh → s.disk b = current d s b := by
    intro b hb hnot
    rw [← hlog.clean b hnot, hlog.bread b hb]
  rw [Machine.advance, hpc]
  dsimp only
  refine ⟨?_, ?_⟩
  · show Safe start (contents d (s.txns ++ [s.pending])) ((s.setBuf start _).bwrite start).disk
    rw [contents_concat, disk_bwrite_setBuf]
    refine ⟨?_, ?_, fun i b hi => ?_, fun b hb hnot => ?_⟩
    · rw [Function.update_self, hhead]
      exact hlog.home
    · rw [Function.update_self, hhead]
      exact hlog.length_le
    · rw [Function.update_self, hhead] at hi
      rw [Function.update_of_ne (by omega)]
      exact hdone i b hi
    · rw [Function.update_self, hhead] at hnot
      have hne : b ≠ start := hb.ne (Nat.zero_le logblocks)
      rw [Function.update_of_ne hne]
      exact hother b hb hnot
  · refine ⟨?_, fun i b hi => absurd hi (Nat.not_lt_zero i), fun b hb => ⟨rfl, ?_⟩, hlog.pin, rfl⟩
    · show decodeHead (((s.setBuf start _).bwrite start).disk start) = s.lh
      rw [disk_bwrite_setBuf, Function.update_self, hhead]
    · by_contra hnot
      apply hb
      show ((s.setBuf start _).bwrite start).bread b = ((s.setBuf start _).bwrite start).disk b
      rw [bread_bwrite, bread_setBuf, disk_bwrite_setBuf, Function.update_apply,
        Function.update_apply, hlog.clean b hnot]

/-- The block that comes next in `install_trans` is in the log. -/
lemma Installing.bread_log {recovering : Bool} {tail b : Nat}
    (h : Installing start d s recovering tail) (hs : Safe start (contents d s.txns) s.disk)
    (hget : s.lh[tail]? = some b) : s.bread (start + tail + 1) = contents d s.txns b := by
  have hlt : tail + 1 ≤ logblocks := by
    have hle := hs.length_le
    rw [h.head] at hle
    exact (getElem?_lt hget).trans_le hle
  have hclean : s.bread (start + tail + 1) = s.disk (start + tail + 1) := by
    by_contra hne
    have hin := List.mem_of_mem_drop (h.dirty _ hne).2
    rw [← h.head] at hin
    exact not_home_log hlt (hs.home _ hin)
  rw [hclean]
  refine hs.logged tail b ?_
  rw [h.head]
  exact hget

/-- Installing a block does no harm if it was installed before. -/
lemma Installing.step {recovering : Bool} {tail b : Nat} {t : Machine}
    (h : Installing start d s recovering tail) (hs : Safe start (contents d s.txns) s.disk)
    (hget : s.lh[tail]? = some b)
    (hdisk : t.disk = Function.update s.disk b (contents d s.txns b))
    (hbread : t.bread = Function.update s.bread b (contents d s.txns b)) (hlh : t.lh = s.lh)
    (htxns : t.txns = s.txns) (hpending : t.pending = s.pending)
    (hpin : ∀ x, t.pin x = if recovering then 0 else (s.lh.drop (tail + 1)).count x) :
    Safe start (contents d t.txns) t.disk ∧ Installing start d t recovering (tail + 1) := by
  have hin : b ∈ decodeHead (s.disk start) := by
    rw [h.head]
    exact List.mem_of_getElem? hget
  have hb : Home start b := hs.home b hin
  have hne : b ≠ start := hb.ne (Nat.zero_le logblocks)
  have hlog : ∀ (i x : Nat), (decodeHead (s.disk start))[i]? = some x → b ≠ start + i + 1 := by
    intro i x hi
    exact hb.ne ((getElem?_lt hi).trans_le hs.length_le)
  rw [htxns, hdisk]
  refine ⟨hs.update hne hlog fun _ => hin, ?_, fun i x hi hx => ?_, fun x hx => ?_, ?_, ?_⟩
  · rw [hdisk, Function.update_of_ne hne.symm, hlh]
    exact h.head
  · rw [hdisk, htxns, Function.update_apply]
    split
    · next he => rw [he]
    · next hxb =>
      rw [hlh] at hx
      rcases Nat.lt_succ_iff_lt_or_eq.mp hi with hi | rfl
      · exact h.installed i x hi hx
      · exact absurd (Option.some.inj (hx.symm.trans hget)) hxb
  · rw [hbread, hdisk, Function.update_apply, Function.update_apply] at hx
    split at hx
    · exact absurd rfl hx
    · next hxb =>
      obtain ⟨hr, hdrop⟩ := h.dirty x hx
      refine ⟨hr, ?_⟩
      obtain ⟨hlt, hgetb⟩ := List.getElem?_eq_some_iff.mp hget
      rw [List.drop_eq_getElem_cons hlt, hgetb] at hdrop
      rw [hlh]
      exact (List.mem_cons.mp hdrop).resolve_left hxb
  · rw [hlh]
    exact hpin
  · rw [hpending]
    exact h.pending

/-- `bunpin` as `install_trans` goes along the list. -/
lemma Installing.pin_bunpin {tail b : Nat} (h : Installing start d s false tail)
    (hget : s.lh[tail]? = some b) (x : Nat) :
    Function.update s.pin b (s.pin b - 1) x = (s.lh.drop (tail + 1)).count x := by
  obtain ⟨hlt, hgetb⟩ := List.getElem?_eq_some_iff.mp hget
  have hdrop := List.drop_eq_getElem_cons hlt
  rw [hgetb] at hdrop
  have hpin := h.pin
  simp only [Bool.false_eq_true, if_false, hdrop] at hpin
  rw [Function.update_apply, hpin b, hpin x]
  by_cases hx : x = b
  · simp [hx]
  · simp [hx, List.count_cons_of_ne (Ne.symm hx)]

lemma Inv.install {recovering : Bool} {tail : Nat} (h : Inv start d s)
    (hpc : s.pc = .install recovering tail) : Inv start d (s.advance start) := by
  have hins : Installing start d s recovering tail := by
    have hat := h.at_pc
    rwa [hpc] at hat
  rw [Machine.advance, hpc]
  dsimp only
  split
  · next b hget =>
    rw [hins.bread_log h.safe hget]
    cases recovering with
    | true =>
      obtain ⟨hsafe, hins'⟩ := hins.step (t := { (s.setBuf b (contents d s.txns b)).bwrite b with
          pc := .install true (tail + 1) }) h.safe hget (disk_bwrite_setBuf _ _ _)
          ((bread_bwrite _ _).trans (bread_setBuf _ _ _)) rfl rfl rfl hins.pin
      exact ⟨hsafe, hins'⟩
    | false =>
      obtain ⟨hsafe, hins'⟩ := hins.step
          (t := { ((s.setBuf b (contents d s.txns b)).bwrite b).bunpin b with
            pc := .install false (tail + 1) }) h.safe hget (disk_bwrite_setBuf _ _ _)
          ((bread_bwrite _ _).trans (bread_setBuf _ _ _)) rfl rfl rfl (hins.pin_bunpin hget)
      exact ⟨hsafe, hins'⟩
  · next hnone =>
    have hlen : s.lh.length ≤ tail := List.getElem?_eq_none_iff.mp hnone
    have hdrop : s.lh.drop tail = [] := List.drop_eq_nil_of_le hlen
    refine ⟨h.safe, ⟨rfl, hins.pending, fun b => ?_, ?_⟩, fun b hb => ?_⟩
    · have hpin := hins.pin b
      rw [hdrop] at hpin
      simpa using hpin
    · funext b
      by_contra hne
      have hin := (hins.dirty b hne).2
      rw [hdrop] at hin
      cases hin
    · by_cases hin : b ∈ s.lh
      · obtain ⟨i, hi⟩ := List.getElem?_of_mem hin
        exact hins.installed i b ((getElem?_lt hi).trans_le hlen) hi
      · refine h.safe.other b hb ?_
        rw [hins.head]
        exact hin

lemma Inv.clear (h : Inv start d s) (hpc : s.pc = .clear) : Inv start d (s.advance start) := by
  obtain ⟨hset, hdisk⟩ : Settled s ∧ ∀ b, Home start b → s.disk b = contents d s.txns b := by
    have hat := h.at_pc
    rwa [hpc] at hat
  have hhead : decodeHead (encodeHead (s.bread start) s.lh) = [] := by
    rw [hset.lh]
    exact decodeHead_encodeHead _ (by simp) (by decide)
  have hhome : ∀ (v : Block) b, Home start b →
      Function.update s.disk start v b = contents d s.txns b := by
    intro v b hb
    have hne : b ≠ start := hb.ne (Nat.zero_le logblocks)
    rw [Function.update_of_ne hne, hdisk b hb]
  rw [Machine.advance, hpc]
  dsimp only
  have hd : (s.writeHead start).disk = Function.update s.disk start _ := disk_bwrite_setBuf _ _ _
  have hv : (s.writeHead start).bread = Function.update s.disk start _ :=
    (bread_bwrite _ _).trans ((bread_setBuf _ _ _).trans (by rw [hset.bread]))
  rw [hset.bread] at hd hhead
  have hlh : s.lh = [] := hset.lh
  refine ⟨?_, ?_⟩
  · show Safe start (contents d s.txns) (s.writeHead start).disk
    rw [hd]
    refine ⟨?_, ?_, ?_, fun b hb _ => hhome _ b hb⟩ <;> rw [Function.update_self, hhead]
    · simp
    · simp
    · simp
  · refine ⟨?_, ?_, ?_, fun b => ?_, fun b hb => ?_, fun b _ => ?_⟩
    · show decodeHead ((s.writeHead start).disk start) = []
      rw [hd, Function.update_self, hhead]
    · show ∀ b ∈ s.lh, _
      simp [hlh]
    · show s.lh.length ≤ _
      simp [hlh]
    · show s.pin b = s.lh.count b
      rw [hlh, hset.pin]
      rfl
    · show (s.writeHead start).bread b = applyWrites (contents d s.txns) s.pending b
      rw [hv, hset.pending, hhome _ b hb]
      rfl
    · show (s.writeHead start).bread b = (s.writeHead start).disk b
      rw [hv, hd]

lemma Inv.boot (h : Inv start d s) (hpc : s.pc = .boot) : Inv start d (s.advance start) := by
  have hset : Settled s := by
    have hat := h.at_pc
    rwa [hpc] at hat
  rw [Machine.advance, hpc]
  refine ⟨h.safe, ?_, fun i b hi => absurd hi (Nat.not_lt_zero i), fun b hb => ?_, hset.pin,
    hset.pending⟩
  · show decodeHead (s.disk start) = decodeHead (s.bread start)
    rw [hset.bread]
  · exact absurd (congrFun hset.bread b) hb

lemma Inv.advance (h : Inv start d s) : Inv start d (s.advance start) := by
  cases hpc : s.pc with
  | idle =>
    rw [Machine.advance, hpc]
    exact h
  | writeLog tail => exact h.writeLog hpc
  | writeHead => exact h.writeHead hpc
  | install recovering tail => exact h.install hpc
  | clear => exact h.clear hpc
  | boot => exact h.boot hpc

lemma Inv.crash (h : Inv start d s) : Inv start d s.crash := by
  refine ⟨h.safe, rfl, rfl, fun _ => rfl, ?_⟩
  funext b
  rfl

/-- The invariant sees the cache through `bread` only. -/
lemma Inv.congr_cache (h : Inv start d s) {c : Nat → Option Block}
    (hc : ({ s with cache := c } : Machine).bread = s.bread) :
    Inv start d { s with cache := c } := by
  have hlogging : Logging start d s → Logging start d { s with cache := c } := fun hl =>
    ⟨hl.head, hl.home, hl.length_le, hl.pin, by rw [hc]; exact hl.bread, by rw [hc]; exact hl.clean⟩
  have hsettled : Settled s → Settled { s with cache := c } := fun hs =>
    ⟨hs.lh, hs.pending, hs.pin, hc.trans hs.bread⟩
  have hat : ∀ pc, At start d s pc → At start d { s with cache := c } pc := by
    intro pc hat
    cases pc with
    | idle => exact hlogging hat
    | writeLog tail => exact ⟨hlogging hat.1, hat.2⟩
    | writeHead => exact ⟨hlogging hat.1, hat.2⟩
    | install recovering tail =>
      exact ⟨hat.head, hat.installed, by rw [hc]; exact hat.dirty, hat.pin, hat.pending⟩
    | clear => exact ⟨hsettled hat.1, hat.2⟩
    | boot => exact hsettled hat
  exact ⟨h.safe, hat s.pc h.at_pc⟩

/-- What is not on disk is pinned. -/
lemma Inv.bread_eq (h : Inv start d s) {b : Nat} (hb : s.pin b = 0) : s.bread b = s.disk b := by
  have hlogging : Logging start d s → s.bread b = s.disk b := by
    intro hl
    apply hl.clean
    rw [← List.count_eq_zero, ← hl.pin, hb]
  have hat := h.at_pc
  cases hpc : s.pc with rw [hpc] at hat
  | idle => exact hlogging hat
  | writeLog tail => exact hlogging hat.1
  | writeHead => exact hlogging hat.1
  | install recovering tail =>
    by_contra hne
    obtain ⟨rfl, hin⟩ := hat.dirty b hne
    have hpin := hat.pin b
    rw [hb] at hpin
    exact List.count_eq_zero.mp hpin.symm hin
  | clear => rw [hat.1.bread]
  | boot => rw [hat.bread]

/-- The code is between commits. -/
lemma Inv.logging (h : Inv start d s) (hpc : s.pc = .idle) : Logging start d s := by
  have hat := h.at_pc
  rwa [hpc] at hat

lemma logWrite_fields (s : Machine) (b : Nat) (v : Block) : (s.logWrite b v).disk = s.disk ∧
    (s.logWrite b v).txns = s.txns ∧ (s.logWrite b v).pc = s.pc := by
  unfold Machine.logWrite
  dsimp only
  split <;> exact ⟨rfl, rfl, rfl⟩

/-- Every step keeps the invariant. -/
lemma Inv.step {a : Act} (h : Inv start d s) (hs : Step start s a s') : Inv start d s' := by
  cases hs with
  | @logWrite b v hpc hb hn =>
    obtain ⟨hdisk, htxns, hpc'⟩ := logWrite_fields s b v
    refine ⟨?_, ?_⟩
    · rw [hdisk, htxns]
      exact h.safe
    · rw [hpc', hpc]
      exact logging_logWrite (h.logging hpc) hb hn
  | commit hpc =>
    unfold Machine.commit
    split
    · exact ⟨h.safe, (h.logging hpc).setPc _, fun i b hi => absurd hi (Nat.not_lt_zero i)⟩
    · exact h
  | advance => exact h.advance
  | crash => exact h.crash
  | load => exact h.congr_cache (bread_load _ _)
  | evict hb => exact h.congr_cache (bread_evict _ _ (h.bread_eq hb))

/-! ### Runs -/

lemma inv_initial (hd : decodeHead (d start) = []) : Inv start d (initial d) := by
  refine ⟨⟨?_, ?_, ?_, fun b _ _ => rfl⟩, ⟨rfl, rfl, fun _ => rfl, rfl⟩⟩
  · show ∀ b ∈ decodeHead (d start), _
    simp [hd]
  · show (decodeHead (d start)).length ≤ _
    simp [hd]
  · show ∀ (i b : Nat), (decodeHead (d start))[i]? = some b → _
    simp [hd]

lemma Inv.iterate (h : Inv start d s) (k : Nat) :
    Inv start d ((fun m => m.advance start)^[k] s) := by
  induction k generalizing s with
  | zero => exact h
  | succ k ih => exact ih h.advance

/-- `install_trans` comes to an end, and `write_head` follows. -/
lemma install_ends {recovering : Bool} {tail n : Nat} (hpc : s.pc = .install recovering tail)
    (hn : s.lh.length - tail = n) : ∃ k, ((fun m => m.advance start)^[k] s).pc = .idle ∧
      ((fun m => m.advance start)^[k] s).lh = [] ∧
      ((fun m => m.advance start)^[k] s).txns = s.txns := by
  induction n generalizing s tail with
  | zero =>
    have hnone : s.lh[tail]? = none := List.getElem?_eq_none_iff.mpr (by omega)
    have hstep : s.advance start = { s with lh := [], pc := .clear } := by
      rw [Machine.advance, hpc]
      dsimp only
      rw [hnone]
    refine ⟨2, ?_⟩
    simp only [Function.iterate_succ, Function.iterate_zero, Function.comp_apply, id_eq, hstep]
    exact ⟨rfl, rfl, rfl⟩
  | succ n ih =>
    have hlt : tail < s.lh.length := by omega
    have hget : s.lh[tail]? = some s.lh[tail] := List.getElem?_eq_getElem hlt
    have hfields : (s.advance start).pc = .install recovering (tail + 1) ∧
        (s.advance start).lh = s.lh ∧ (s.advance start).txns = s.txns := by
      rw [Machine.advance, hpc]
      dsimp only
      rw [hget]
      cases recovering <;> exact ⟨rfl, rfl, rfl⟩
    obtain ⟨hpc', hlh, htxns⟩ := hfields
    obtain ⟨k, hk⟩ := ih hpc' (by rw [hlh]; omega)
    exact ⟨k + 1, by rw [Function.iterate_succ_apply, ← htxns]; exact hk⟩

/-- Whatever has happened, and however often the machine has crashed: when no commit or recovery
runs, the home blocks on disk are what the committed transactions have made of them, and when the
machine crashes now, recovery comes to an end and leaves them so. -/
theorem crash_atomicity {l : List Act} (hd : decodeHead (d start) = [])
    (h : Steps (Step start) (initial d) l s) :
    (s.pc = .idle → decodeHead (s.disk start) = [] ∧
      ∀ b, Home start b → s.disk b = contents d s.txns b) ∧
    ∃ k, ((fun m => m.advance start)^[k] s.crash).pc = .idle ∧
      ((fun m => m.advance start)^[k] s.crash).lh = [] ∧
      decodeHead (((fun m => m.advance start)^[k] s.crash).disk start) = [] ∧
      ∀ b, Home start b →
        ((fun m => m.advance start)^[k] s.crash).disk b = contents d s.txns b := by
  have hidle : ∀ t, Inv start d t → t.pc = .idle → decodeHead (t.disk start) = [] ∧
      ∀ b, Home start b → t.disk b = contents d t.txns b := by
    intro t ht hpc
    have hhead := (ht.logging hpc).head
    exact ⟨hhead, fun b hb => ht.safe.other b hb (by simp [hhead])⟩
  have hinv : Inv start d s := h.invariant (inv_initial hd) fun _ _ _ => Inv.step
  refine ⟨hidle s hinv, ?_⟩
  obtain ⟨k, hpc, hlh, htxns⟩ :=
    @install_ends start (s.crash.advance start) _ _ _ rfl rfl
  rw [← Function.iterate_succ_apply] at hpc hlh htxns
  obtain ⟨hhead, hdisk⟩ := hidle _ (hinv.crash.iterate (k + 1)) hpc
  refine ⟨k + 1, hpc, hlh, hhead, fun b hb => ?_⟩
  rw [hdisk b hb, htxns]
  rfl

/-- One block is logged and committed, and the machine crashes before it is installed. -/
def halfInstalled : List Act :=
  [.advance, .advance, .advance, .logWrite 100 (fun _ => 7), .commit, .advance, .advance, .advance]

/-- The theorem on that run: the block is there after recovery. -/
theorem crash_atomicity_halfInstalled : ∃ s,
    Steps (Step 2) (initial fun _ _ => 0) halfInstalled s ∧ s.disk 100 = (fun _ => 0) ∧
      ∃ k, ((fun m => m.advance 2)^[k] s.crash).disk 100 = (fun _ => 7) := by
  have hrun : ∃ s, Steps (Step 2) (initial fun _ _ => 0) halfInstalled s ∧
      s.disk 100 = (fun _ => 0) ∧ s.txns = [[(100, fun _ => 7)]] := by
    refine ⟨_, .cons .advance <| .cons .advance <| .cons .advance <|
      .cons (.logWrite rfl ⟨by decide, by decide⟩ (Or.inr (by decide))) <| .cons (.commit rfl) <|
      .cons .advance <| .cons .advance <| .cons .advance <| .nil _, ?_, ?_⟩
    · rfl
    · rfl
  obtain ⟨s, hrun, hdisk, htxns⟩ := hrun
  obtain ⟨-, k, -, -, -, hhome⟩ := crash_atomicity (by decide) hrun
  refine ⟨s, hrun, hdisk, k, ?_⟩
  rw [hhome 100 ⟨by decide, by decide⟩, htxns]
  rfl

end FogOS.Kernel.Recovery
