import FogOS.Kernel.Fs
import FogOS.Lib.Steps

/-!
# Admission to the log

`begin_op`, `log_write` and `end_op` of `kernel/log.c`, called by any number of processes. One step
is one critical section of `log.lock`; the commit at the end of the last operation runs without
the lock and is a step of its own.
-/

namespace FogOS.Kernel

namespace Log

/-- One round of the loop of `begin_op`. -/
def beginOp (l : Log) : Except Stop Log :=
  if l.committing then throw .sleep
  else if (logblocks : Int) < l.block.length + (l.outstanding + 1) * maxopblocks then throw .sleep
  else pure { l with outstanding := l.outstanding + 1 }

/-- The first part of `end_op`, with `do_commit`. -/
def endOp (l : Log) : Except Stop (Bool × Log) :=
  let l := { l with outstanding := l.outstanding - 1 }
  if l.committing then throw (.panic .logCommitting)
  else if l.outstanding = 0 then pure (true, { l with committing := true })
  else pure (false, l)

/-- Record a block that has been modified, unless it is in the list. -/
def logWrite (l : Log) (b : Nat) : Except Stop Log :=
  if logblocks ≤ l.block.length then throw (.panic .logTooBig)
  else if l.outstanding < 1 then throw (.panic .logOutside)
  else if b ∈ l.block then pure l
  else pure { l with block := l.block ++ [b] }

/-- What `commit` does to the in-memory log. -/
def commit (l : Log) : Log := { l with block := [] }

/-- The last part of `end_op`, after the commit. -/
def endCommit (l : Log) : Log := { l with committing := false }

variable {l l' : Log} {b : Nat} {c : Bool}

lemma beginOp_ok (h : l.beginOp = .ok l') : l.committing = false ∧
    (l.block.length : Int) + (l.outstanding + 1) * maxopblocks ≤ logblocks ∧
    l' = { l with outstanding := l.outstanding + 1 } := by
  unfold beginOp at h
  obtain ⟨hc, h⟩ := guard_ok h
  obtain ⟨hle, h⟩ := guard_ok h
  exact ⟨by simpa using hc, not_lt.mp hle, pure_ok h⟩

lemma endOp_ok (h : l.endOp = .ok (c, l')) : l.committing = false ∧
    ((l.outstanding = 1 ∧ c = true ∧ l' = { l with outstanding := 0, committing := true }) ∨
      (l.outstanding ≠ 1 ∧ c = false ∧ l' = { l with outstanding := l.outstanding - 1 })) := by
  unfold endOp at h
  obtain ⟨hc, h⟩ := guard_ok h
  refine ⟨by simpa using hc, ?_⟩
  dsimp only at h
  split at h
  · next hz =>
    obtain ⟨rfl, rfl⟩ : c = true ∧ l' = _ := by simpa using pure_ok h
    exact Or.inl ⟨by omega, rfl, by rw [hz]⟩
  · next hz =>
    obtain ⟨rfl, rfl⟩ : c = false ∧ l' = _ := by simpa using pure_ok h
    exact Or.inr ⟨by omega, rfl, rfl⟩

lemma logWrite_ok (h : l.logWrite b = .ok l') : l.block.length < logblocks ∧ 1 ≤ l.outstanding ∧
    ((b ∈ l.block ∧ l' = l) ∨ (b ∉ l.block ∧ l' = { l with block := l.block ++ [b] })) := by
  unfold logWrite at h
  obtain ⟨hlen, h⟩ := guard_ok h
  obtain ⟨hout, h⟩ := guard_ok h
  refine ⟨not_le.mp hlen, not_lt.mp hout, ?_⟩
  split at h
  · next hb => exact Or.inl ⟨hb, pure_ok h⟩
  · next hb => exact Or.inr ⟨hb, pure_ok h⟩

end Log

/-- The file system's calls are these, where no other process comes between the parts of
`end_op`. -/
lemma Fs.logWrite_eq (fs : Fs) (b : Nat) :
    fs.logWrite b = (fs.log.logWrite b).map fun l => { fs with log := l } := by
  unfold Fs.logWrite Log.logWrite
  split
  · rfl
  · split
    · rfl
    · split <;> rfl

lemma Fs.beginOp_eq (fs : Fs) :
    fs.beginOp = fs.log.beginOp.map fun l => { fs with log := l } := by
  unfold Fs.beginOp Log.beginOp
  split
  · rfl
  · split <;> rfl

lemma Fs.endOp_eq (fs : Fs) : fs.endOp = fs.log.endOp.map fun r =>
    { fs with log := if r.1 then r.2.commit.endCommit else r.2 } := by
  unfold Fs.endOp Log.endOp
  dsimp only
  split
  · rfl
  · next hc =>
    split
    · simp only [Log.commit, Log.endCommit]
      cases h : fs.log.committing
      · rfl
      · exact absurd h hc
    · rfl

namespace Admission

variable {P : Type} [DecidableEq P]

/-- Where a process stands: outside, inside an operation that has logged some blocks, or with the
commit still to do or just done. -/
inductive Phase
  | idle
  | op (logged : Finset Nat)
  | commit
  | finish
  deriving DecidableEq

/-- The blocks logged by the current operation. -/
def Phase.logged : Phase → Finset Nat
  | op S => S
  | _ => ∅

/-- The process is in the second part of `end_op`. -/
def Phase.Commits (ph : Phase) : Prop := ph = commit ∨ ph = finish

/-- The log and its users. -/
structure Sys (P : Type) where
  log : Log
  phase : P → Phase

/-- The steps of the processes. -/
inductive Act (P : Type)
  | beginOp (p : P)
  | logWrite (p : P) (b : Nat)
  | endOp (p : P)
  | commit (p : P)
  | finish (p : P)

namespace Sys

/-- After boot and recovery. -/
def init : Sys P where
  log := { outstanding := 0, committing := false, block := [] }
  phase := fun _ => .idle

/-- A process may take the step: operations are not nested, and none logs more than `MAXOPBLOCKS`
distinct blocks. -/
def Allowed (s : Sys P) : Act P → Prop
  | .beginOp p => s.phase p = .idle
  | .logWrite p b => ∃ S, s.phase p = .op S ∧ (insert b S).card ≤ maxopblocks
  | .endOp p => ∃ S, s.phase p = .op S
  | .commit p => s.phase p = .commit
  | .finish p => s.phase p = .finish

instance (s : Sys P) : (a : Act P) → Decidable (s.Allowed a)
  | .beginOp p => inferInstanceAs (Decidable (s.phase p = .idle))
  | .logWrite p b =>
    match h : s.phase p with
    | .op S => decidable_of_iff ((insert b S).card ≤ maxopblocks) (by simp [Allowed, h])
    | .idle => isFalse (by simp [Allowed, h])
    | .commit => isFalse (by simp [Allowed, h])
    | .finish => isFalse (by simp [Allowed, h])
  | .endOp p =>
    match h : s.phase p with
    | .op S => isTrue ⟨S, h⟩
    | .idle => isFalse (by simp [Allowed, h])
    | .commit => isFalse (by simp [Allowed, h])
    | .finish => isFalse (by simp [Allowed, h])
  | .commit p => inferInstanceAs (Decidable (s.phase p = .commit))
  | .finish p => inferInstanceAs (Decidable (s.phase p = .finish))

/-- The effect of the step. -/
def next (s : Sys P) : Act P → Except Stop (Sys P)
  | .beginOp p => do
    let l ← s.log.beginOp
    pure ⟨l, Function.update s.phase p (.op ∅)⟩
  | .logWrite p b => do
    let l ← s.log.logWrite b
    pure ⟨l, Function.update s.phase p (.op (insert b (s.phase p).logged))⟩
  | .endOp p => do
    let (doCommit, l) ← s.log.endOp
    pure ⟨l, Function.update s.phase p (if doCommit then .commit else .idle)⟩
  | .commit p => pure ⟨s.log.commit, Function.update s.phase p .finish⟩
  | .finish p => pure ⟨s.log.endCommit, Function.update s.phase p .idle⟩

def Step (s : Sys P) (a : Act P) (s' : Sys P) : Prop := s.Allowed a ∧ s.next a = .ok s'

/-- The step, computed. -/
def step? (s : Sys P) (a : Act P) : Option (Sys P) :=
  if s.Allowed a then (s.next a).toOption else none

end Sys

/-! ### The invariant -/

/-- What the operations of the processes in `A` may still add to the log. -/
def room (s : Sys P) (A : Finset P) : Nat := ∑ p ∈ A, (maxopblocks - (s.phase p).logged.card)

/-- The log has room for what the operations under way may still log. -/
structure Inv (s : Sys P) (A : Finset P) : Prop where
  mem_iff : ∀ p, p ∈ A ↔ ∃ S, s.phase p = .op S
  outstanding : s.log.outstanding = A.card
  nodup : s.log.block.Nodup
  logged : ∀ p, (s.phase p).logged ⊆ s.log.block.toFinset
  fits : s.log.block.length + room s A ≤ logblocks
  alone : s.log.committing = true → A = ∅
  committing : ∀ p, (s.phase p).Commits → s.log.committing = true
  single : ∀ p q, (s.phase p).Commits → (s.phase q).Commits → p = q

variable {s s' : Sys P} {A : Finset P} {a : Act P} {p : P}

lemma room_erase (s : Sys P) (l : Log) (p : P) (ph : Phase) (A : Finset P) :
    room ⟨l, Function.update s.phase p ph⟩ (A.erase p) = room s (A.erase p) := by
  refine Finset.sum_congr rfl fun q hq => ?_
  have hne : q ≠ p := (Finset.mem_erase.mp hq).1
  simp [hne]

lemma room_mem (s : Sys P) (hp : p ∈ A) :
    room s A = (maxopblocks - (s.phase p).logged.card) + room s (A.erase p) :=
  (Finset.add_sum_erase A _ hp).symm

omit [DecidableEq P] in
lemma room_le (s : Sys P) (A : Finset P) : room s A ≤ A.card * maxopblocks := by
  calc room s A ≤ ∑ _p ∈ A, maxopblocks := Finset.sum_le_sum fun _ _ => Nat.sub_le _ _
    _ = A.card * maxopblocks := by rw [Finset.sum_const, smul_eq_mul]

lemma not_commits_idle : ¬ Phase.idle.Commits := by
  rintro (h | h) <;> cases h

lemma not_commits_op {S : Finset Nat} : ¬ (Phase.op S).Commits := by
  rintro (h | h) <;> cases h

omit [DecidableEq P] in
lemma inv_init : Inv (Sys.init : Sys P) ∅ := by
  constructor <;> simp [Sys.init, Phase.logged, room, not_commits_idle]

/-- The process `p` moves to the phase `ph`, and the others stay where they are. -/
lemma Inv.update (h : Inv s A) {l : Log} {ph : Phase} {A' : Finset P}
    (hA : A'.erase p = A.erase p) (hp : p ∈ A' ↔ ∃ S, ph = .op S)
    (hout : l.outstanding = A'.card) (hnodup : l.block.Nodup)
    (hlogged : ∀ q ≠ p, (s.phase q).logged ⊆ l.block.toFinset)
    (hlp : ph.logged ⊆ l.block.toFinset)
    (hfits : l.block.length + ((if p ∈ A' then maxopblocks - ph.logged.card else 0) +
      room s (A.erase p)) ≤ logblocks)
    (halone : l.committing = true → A' = ∅)
    (hcp : ph.Commits → l.committing = true ∧ ∀ q ≠ p, ¬ (s.phase q).Commits)
    (hcom : ∀ q ≠ p, (s.phase q).Commits → l.committing = true) :
    Inv ⟨l, Function.update s.phase p ph⟩ A' := by
  have hself : (⟨l, Function.update s.phase p ph⟩ : Sys P).phase p = ph :=
    Function.update_self _ _ _
  have hne : ∀ q ≠ p, (⟨l, Function.update s.phase p ph⟩ : Sys P).phase q = s.phase q :=
    fun q hq => Function.update_of_ne hq _ _
  refine ⟨fun q => ?_, hout, hnodup, fun q => ?_, ?_, halone, fun q hq => ?_, fun q r hq hr => ?_⟩
  · by_cases hq : q = p
    · rw [hq, hself, hp]
    · have hmem : q ∈ A'.erase p ↔ q ∈ A.erase p := by rw [hA]
      simp only [Finset.mem_erase, ne_eq, hq, not_false_eq_true, true_and] at hmem
      rw [hne q hq, ← h.mem_iff, hmem]
  · by_cases hq : q = p
    · rw [hq, hself]
      exact hlp
    · rw [hne q hq]
      exact hlogged q hq
  · by_cases hin : p ∈ A'
    · rw [if_pos hin] at hfits
      rwa [room_mem _ hin, hself, room_erase, hA]
    · rw [if_neg hin, zero_add, ← hA, Finset.erase_eq_of_notMem hin] at hfits
      rwa [← Finset.erase_eq_of_notMem hin, room_erase, Finset.erase_eq_of_notMem hin]
  · by_cases hqp : q = p
    · rw [hqp, hself] at hq
      exact (hcp hq).1
    · rw [hne q hqp] at hq
      exact hcom q hqp hq
  · by_cases hqp : q = p
    · by_cases hrp : r = p
      · rw [hqp, hrp]
      · rw [hqp, hself] at hq
        rw [hne r hrp] at hr
        exact absurd hr ((hcp hq).2 r hrp)
    · rw [hne q hqp] at hq
      by_cases hrp : r = p
      · rw [hrp, hself] at hr
        exact absurd hq ((hcp hr).2 q hqp)
      · rw [hne r hrp] at hr
        exact h.single q r hq hr

lemma Inv.beginOp (h : Inv s A) (hp : s.phase p = .idle) {l : Log}
    (hl : s.log.beginOp = .ok l) :
    Inv ⟨l, Function.update s.phase p (.op ∅)⟩ (insert p A) := by
  obtain ⟨hc, hle, rfl⟩ := Log.beginOp_ok hl
  have hnot : p ∉ A := by
    intro hin
    obtain ⟨S, hS⟩ := (h.mem_iff p).mp hin
    rw [hp] at hS
    cases hS
  have hidle : ∀ q, ¬ (s.phase q).Commits := by
    intro q hq
    rw [h.committing q hq] at hc
    cases hc
  apply h.update
  · rw [Finset.erase_insert hnot, Finset.erase_eq_of_notMem hnot]
  · simp
  · rw [Finset.card_insert_of_notMem hnot]
    push_cast
    rw [← h.outstanding]
  · exact h.nodup
  · intro q _
    exact h.logged q
  · exact Finset.empty_subset _
  · rw [if_pos (Finset.mem_insert_self p A), Finset.erase_eq_of_notMem hnot]
    have hroom := room_le s A
    have hout := h.outstanding
    simp only [maxopblocks, logblocks, Phase.logged, Finset.card_empty] at *
    omega
  · intro hcom
    exact absurd (hc.symm.trans hcom) (by decide)
  · exact fun hph => absurd hph not_commits_op
  · intro q _ hq
    exact absurd hq (hidle q)

lemma Inv.logWrite (h : Inv s A) {S : Finset Nat} (hp : s.phase p = .op S) {b : Nat}
    (hS : (insert b S).card ≤ maxopblocks) {l : Log} (hl : s.log.logWrite b = .ok l) :
    Inv ⟨l, Function.update s.phase p (.op (insert b S))⟩ A := by
  obtain ⟨hlen, hout, hcase⟩ := Log.logWrite_ok hl
  have hin : p ∈ A := (h.mem_iff p).mpr ⟨S, hp⟩
  have hsub : S ⊆ s.log.block.toFinset := by
    have hlog := h.logged p
    rwa [hp] at hlog
  have hfits := h.fits
  rw [room_mem s hin, hp] at hfits
  have hle : S.card ≤ (insert b S).card := Finset.card_le_card (Finset.subset_insert b S)
  have hcom : ∀ q ≠ p, (s.phase q).Commits → s.log.committing = true :=
    fun q _ => h.committing q
  simp only [Phase.logged] at hfits
  rcases hcase with ⟨hb, rfl⟩ | ⟨hb, rfl⟩
  · -- absorbed: the list stays, and the operation may log one block less
    refine h.update rfl (by simp [hin]) h.outstanding h.nodup (fun q _ => h.logged q) ?_ ?_
      h.alone (fun hph => absurd hph not_commits_op) hcom
    · exact Finset.insert_subset (List.mem_toFinset.mpr hb) hsub
    · rw [if_pos hin]
      simp only [Phase.logged]
      omega
  · -- a new block of the log is new to the operation
    have hnew : b ∉ S := fun hbS => hb (List.mem_toFinset.mp (hsub hbS))
    have hcard := Finset.card_insert_of_notMem hnew
    have hgrow : s.log.block.toFinset ⊆ (s.log.block ++ [b]).toFinset := by
      rw [List.toFinset_append]
      exact Finset.subset_union_left
    refine h.update rfl (by simp [hin]) h.outstanding ?_ (fun q _ => (h.logged q).trans hgrow)
      ?_ ?_ h.alone (fun hph => absurd hph not_commits_op) hcom
    · exact h.nodup.append (List.nodup_singleton b) (List.disjoint_singleton.mpr hb)
    · exact Finset.insert_subset (by simp) (hsub.trans hgrow)
    · rw [if_pos hin, List.length_append, List.length_singleton]
      simp only [Phase.logged]
      omega

lemma Inv.endOp (h : Inv s A) {S : Finset Nat} (hp : s.phase p = .op S) {c : Bool} {l : Log}
    (hl : s.log.endOp = .ok (c, l)) :
    Inv ⟨l, Function.update s.phase p (if c then .commit else .idle)⟩ (A.erase p) := by
  obtain ⟨hc, hcase⟩ := Log.endOp_ok hl
  have hin : p ∈ A := (h.mem_iff p).mpr ⟨S, hp⟩
  have hout := h.outstanding
  have hcard := Finset.card_erase_add_one hin
  have hidle : ∀ q, ¬ (s.phase q).Commits := by
    intro q hq
    rw [h.committing q hq] at hc
    cases hc
  have hfits := h.fits
  rw [room_mem s hin] at hfits
  have hroom : s.log.block.length + (0 + room s (A.erase p)) ≤ logblocks := by omega
  have hnot : p ∉ A.erase p := Finset.notMem_erase p A
  rcases hcase with ⟨hone, rfl, rfl⟩ | ⟨hone, rfl, rfl⟩
  · have hempty : A.erase p = ∅ := Finset.card_eq_zero.mp (by omega)
    refine h.update Finset.erase_idem (by simp) ?_ h.nodup (fun q _ => h.logged q)
      (Finset.empty_subset _) ?_ (fun _ => hempty) (fun _ => ⟨rfl, fun q _ => hidle q⟩)
      (fun q _ hq => absurd hq (hidle q))
    · simp [hempty]
    · rwa [if_neg hnot]
  · refine h.update Finset.erase_idem (by simp) ?_ h.nodup (fun q _ => h.logged q)
      (Finset.empty_subset _) ?_ ?_ (fun hph => absurd hph not_commits_idle)
      (fun q _ hq => absurd hq (hidle q))
    · simp only
      omega
    · rwa [if_neg hnot]
    · intro hcom
      exact absurd (hc.symm.trans hcom) (by decide)

omit [DecidableEq P] in
/-- While a process commits no operation is under way. -/
lemma Inv.empty (h : Inv s A) (hp : (s.phase p).Commits) : A = ∅ :=
  h.alone (h.committing p hp)

lemma Inv.commit (h : Inv s A) (hp : s.phase p = .commit) :
    Inv ⟨s.log.commit, Function.update s.phase p .finish⟩ A := by
  have hempty := h.empty (Or.inl hp)
  have hcom := h.committing p (Or.inl hp)
  refine h.update rfl (by simp [hempty]) h.outstanding List.nodup_nil ?_ (Finset.empty_subset _)
    ?_ h.alone (fun _ => ⟨hcom, fun q hq hc => hq (h.single q p hc (Or.inl hp))⟩) (fun q _ _ => hcom)
  · intro q _
    cases hq : s.phase q with
    | op S =>
      have hin : q ∈ A := (h.mem_iff q).mpr ⟨S, hq⟩
      rw [hempty] at hin
      cases hin
    | idle => exact Finset.empty_subset _
    | commit => exact Finset.empty_subset _
    | finish => exact Finset.empty_subset _
  · simp [hempty, room, Log.commit]

lemma Inv.finish (h : Inv s A) (hp : s.phase p = .finish) :
    Inv ⟨s.log.endCommit, Function.update s.phase p .idle⟩ A := by
  have hempty := h.empty (Or.inr hp)
  refine h.update rfl (by simp [hempty]) h.outstanding h.nodup (fun q _ => h.logged q)
    (Finset.empty_subset _) ?_ ?_ (fun hph => absurd hph not_commits_idle) ?_
  · have hfits := h.fits
    simpa [hempty, room, Log.endCommit] using hfits
  · intro hcom
    cases hcom
  · intro q hne hq
    exact absurd (h.single q p hq (Or.inr hp)) hne

/-- Every step keeps the invariant. -/
lemma Inv.step (h : Inv s A) (hs : s.Step a s') : ∃ A', Inv s' A' := by
  obtain ⟨hallowed, hnext⟩ := hs
  cases a with
  | beginOp p =>
    obtain ⟨l, hl, hs'⟩ := bind_ok hnext
    obtain rfl := pure_ok hs'
    exact ⟨_, h.beginOp hallowed hl⟩
  | logWrite p b =>
    obtain ⟨S, hS, hcard⟩ := hallowed
    obtain ⟨l, hl, hs'⟩ := bind_ok hnext
    obtain rfl := pure_ok hs'
    rw [hS]
    exact ⟨_, h.logWrite hS hcard hl⟩
  | endOp p =>
    obtain ⟨S, hS⟩ := hallowed
    obtain ⟨⟨c, l⟩, hl, hs'⟩ := bind_ok hnext
    obtain rfl := pure_ok hs'
    exact ⟨_, h.endOp hS hl⟩
  | commit p =>
    obtain rfl := pure_ok hnext
    exact ⟨_, h.commit hallowed⟩
  | finish p =>
    obtain rfl := pure_ok hnext
    exact ⟨_, h.finish hallowed⟩

/-- The check of `log_write` comes before the search of the list, so that a block that is in a
full list is refused; nothing else is. -/
lemma Inv.logWrite_iff (h : Inv s A) {b : Nat} (ha : s.Allowed (.logWrite p b)) :
    (∃ l, s.log.logWrite b = .ok l) ↔ ¬ (s.log.block.length = logblocks ∧ b ∈ s.log.block) := by
  obtain ⟨S, hS, hcard⟩ := ha
  have hin : p ∈ A := (h.mem_iff p).mpr ⟨S, hS⟩
  have hfits := h.fits
  rw [room_mem s hin, hS] at hfits
  simp only [Phase.logged] at hfits
  have hsub : S ⊆ s.log.block.toFinset := by
    have hlog := h.logged p
    rwa [hS] at hlog
  constructor
  · rintro ⟨l, hl⟩ ⟨hfull, -⟩
    have hlt := (Log.logWrite_ok hl).1
    omega
  · intro hnot
    have hlen : ¬ logblocks ≤ s.log.block.length := by
      intro hle
      have hfull : s.log.block.length = logblocks := by omega
      have hb : b ∉ S := fun hbS => hnot ⟨hfull, List.mem_toFinset.mp (hsub hbS)⟩
      rw [Finset.card_insert_of_notMem hb] at hcard
      omega
    have hout : ¬ s.log.outstanding < 1 := by
      have hpos := Finset.card_pos.mpr ⟨p, hin⟩
      rw [h.outstanding]
      omega
    by_cases hb : b ∈ s.log.block
    · exact ⟨_, by rw [Log.logWrite, if_neg hlen, if_neg hout, if_pos hb]; rfl⟩
    · exact ⟨_, by rw [Log.logWrite, if_neg hlen, if_neg hout, if_neg hb]; rfl⟩

/-- In every interleaving the log stays within its bound and without duplicates, a commit runs
alone, `end_op` does not panic, and `log_write` does so exactly for a block that is already in a
full list. -/
theorem log_admission {l : List (Act P)} (h : Steps Sys.Step Sys.init l s) :
    s.log.block.length ≤ logblocks ∧ s.log.block.Nodup ∧
      (∀ p, (s.phase p).Commits → s.log.outstanding = 0 ∧ ∀ q S, s.phase q ≠ .op S) ∧
      (∀ p, s.Allowed (.endOp p) → ∃ r, s.log.endOp = .ok r) ∧
      ∀ p b, s.Allowed (.logWrite p b) → ((∃ l', s.log.logWrite b = .ok l') ↔
        ¬ (s.log.block.length = logblocks ∧ b ∈ s.log.block)) := by
  obtain ⟨A, hinv⟩ : ∃ A, Inv s A :=
    h.invariant (I := fun s => ∃ A, Inv s A) ⟨∅, inv_init⟩ fun _ _ _ ⟨_, hI⟩ hs => hI.step hs
  refine ⟨by have := hinv.fits; omega, hinv.nodup, fun p hp => ⟨?_, fun q S hq => ?_⟩,
    fun p ⟨S, hS⟩ => ?_, fun p b => hinv.logWrite_iff⟩
  · rw [hinv.outstanding, hinv.empty hp]
    rfl
  · have hin : q ∈ A := (hinv.mem_iff q).mpr ⟨S, hq⟩
    rw [hinv.empty hp] at hin
    cases hin
  · have hin : p ∈ A := (hinv.mem_iff p).mpr ⟨S, hS⟩
    have hc : ¬ s.log.committing = true := by
      intro hc
      rw [hinv.alone hc] at hin
      cases hin
    rw [Log.endOp]
    dsimp only
    rw [if_neg hc]
    split
    · exact ⟨_, rfl⟩
    · exact ⟨_, rfl⟩

/-! ### A full log -/

lemma step_of_step? {s s' : Sys P} {a : Act P} (h : s.step? a = some s') : s.Step a s' := by
  unfold Sys.step? at h
  split at h
  · next ha =>
    refine ⟨ha, ?_⟩
    cases hn : s.next a with
    | error e =>
      rw [hn] at h
      cases h
    | ok t =>
      rw [hn] at h
      cases h
      rfl
  · cases h

/-- Three operations at once, and each logs ten blocks of its own. -/
def fullLog : List (Act (Fin 3)) :=
  (List.finRange 3).map .beginOp ++
    (List.finRange 3).flatMap fun i => (List.range' (10 * i.val) 10).map (.logWrite i)

lemma run_fullLog : ∃ s : Sys (Fin 3), Steps Sys.Step Sys.init fullLog s ∧
    s.log.block = List.range 30 ∧ s.Allowed (.logWrite 2 29) ∧
    s.log.logWrite 29 = .error (.panic .logTooBig) := by
  have hrun : (fullLog.foldlM Sys.step? (Sys.init : Sys (Fin 3))).any (fun s =>
      s.log.block = List.range 30 ∧ s.Allowed (.logWrite 2 29)) = true := by decide
  cases hfold : fullLog.foldlM Sys.step? (Sys.init : Sys (Fin 3)) with
  | none =>
    rw [hfold] at hrun
    cases hrun
  | some s =>
    rw [hfold] at hrun
    obtain ⟨hblock, hallowed⟩ : s.log.block = List.range 30 ∧ s.Allowed (.logWrite 2 29) := by
      simpa using hrun
    refine ⟨s, Steps.of_foldlM (fun _ _ _ => step_of_step?) hfold, hblock, hallowed, ?_⟩
    rw [Log.logWrite, if_pos (by rw [hblock]; decide)]
    rfl

/-- The theorem on a log that three operations have filled. -/
theorem log_admission_full : ∃ s : Sys (Fin 3), Steps Sys.Step Sys.init fullLog s ∧
    s.log.block.length = logblocks ∧ s.log.block.Nodup ∧
    ¬ ∃ l, s.log.logWrite 29 = .ok l := by
  obtain ⟨s, hrun, hblock, hallowed, -⟩ := run_fullLog
  obtain ⟨-, hnodup, -, -, hwrite⟩ := log_admission hrun
  refine ⟨s, hrun, by rw [hblock]; rfl, hnodup, ?_⟩
  rw [hwrite 2 29 hallowed, not_not, hblock]
  decide

/-- When three operations have filled the log, the third one panics if it logs one of its blocks
again. -/
theorem log_admission_panic : ∃ s : Sys (Fin 3), Steps Sys.Step Sys.init fullLog s ∧
    s.Allowed (.logWrite 2 29) ∧ s.next (.logWrite 2 29) = .error (.panic .logTooBig) := by
  obtain ⟨s, hrun, -, hallowed, hpanic⟩ := run_fullLog
  refine ⟨s, hrun, hallowed, ?_⟩
  rw [Sys.next, hpanic]
  rfl

end Admission

end FogOS.Kernel
