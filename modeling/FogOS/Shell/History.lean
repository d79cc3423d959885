import FogOS.Shell.Crash

/-!
# The history

The ring of `add_to_history` and its four readers. With `n` commands recorded, `history` holds the
last hundred of them.
-/

namespace FogOS.Shell

open Kernel

namespace State

/-- The slots hold the last commands, and the numbers are right. -/
structure Holds (cmds : List Str) (s : State) : Prop where
  count : s.historyCount = cmds.length
  num : s.cmdNum = toInt32 (cmds.length + 1)
  recent : ∀ j, cmds.length ≤ j + maxHistory → j < cmds.length →
    s.history (j % maxHistory) = cmds[j]?
  empty : ∀ i, cmds.length ≤ i → i < maxHistory → s.history i = none

lemma holds_initial : Holds [] initial :=
  ⟨rfl, rfl, fun j _ h => absurd h (Nat.not_lt_zero j), fun _ _ _ => rfl⟩

variable {cmds : List Str} {s : State} {cmd : Str}

/-- One more command takes the slot of the one a hundred before. -/
lemma Holds.record (h : Holds cmds s) (hlen : cmds.length + 1 < 2 ^ 31) (cmd : Str) :
    ∃ s', s.record cmd = .ok s' ∧ Holds (cmds ++ [cmd]) s' := by
  have hnum : s.cmdNum = cmds.length + 1 := by
    rw [h.num]
    exact toInt32_eq (by omega) (by omega)
  have hindex : (s.cmdNum - 1).tmod (maxHistory : Int) = (cmds.length % maxHistory : Nat) := by
    rw [hnum, add_sub_cancel_right]
    exact (Int.ofNat_tmod _ _).symm
  have hadd : s.addToHistory cmd s.cmdNum = .ok { s with
      history := Function.update s.history (cmds.length % maxHistory) (some cmd) } := by
    unfold addToHistory
    dsimp only
    rw [hindex, if_neg (by omega), Int.toNat_natCast]
    rfl
  refine ⟨_, by rw [State.record, hadd]; rfl, ?_, ?_, fun j hj hlt => ?_, fun i hi hlt => ?_⟩
  · show s.cmdNum = _
    rw [hnum, List.length_append, List.length_singleton]
    push_cast
    rfl
  · show toInt32 (s.cmdNum + 1) = _
    rw [hnum, List.length_append, List.length_singleton]
    push_cast
    rfl
  · rw [List.length_append, List.length_singleton] at hj hlt
    show Function.update s.history _ _ _ = _
    by_cases hlast : j = cmds.length
    · subst hlast
      rw [Function.update_self]
      simp
    · have hne : j % maxHistory ≠ cmds.length % maxHistory := by
        simp only [maxHistory] at hj ⊢
        omega
      rw [Function.update_of_ne hne, h.recent j (by omega) (by omega),
        List.getElem?_append_left (by omega)]
  · rw [List.length_append, List.length_singleton] at hi
    have hne : i ≠ cmds.length % maxHistory := by
      rw [Nat.mod_eq_of_lt (by omega)]
      omega
    show Function.update s.history _ _ _ = _
    rw [Function.update_of_ne hne, h.empty i (by omega) hlt]

/-- After any number of commands. -/
lemma holds_foldlM (hlen : cmds.length < 2 ^ 31) :
    ∃ s, cmds.foldlM State.record State.initial = .ok s ∧ Holds cmds s := by
  induction cmds using List.reverseRecOn with
  | nil => exact ⟨_, rfl, holds_initial⟩
  | append_singleton cmds cmd ih =>
    rw [List.length_append, List.length_singleton] at hlen
    obtain ⟨s, hs, hh⟩ := ih (by omega)
    obtain ⟨s', hs', hh'⟩ := hh.record hlen cmd
    refine ⟨s', ?_, hh'⟩
    rw [List.foldlM_append, hs, ok_bind, List.foldlM_cons, hs', ok_bind]
    rfl

/-! ### The readers -/

/-- The commands that the history is to keep, the oldest first. -/
def lastCommands (cmds : List Str) : List Str := cmds.drop (cmds.length - maxHistory)

/-- What the history is to do with the commands `cmds`, numbered from 1. -/
structure Keeps (cmds : List Str) (s : State) : Prop where
  byNum : ∀ k : Int, s.getHistoryByNum k =
    if max 1 ((cmds.length : Int) - 99) ≤ k ∧ k ≤ cmds.length then cmds[(k - 1).toNat]? else none
  print : s.printHistory =
    (cmds.zipIdx.drop (cmds.length - maxHistory)).map fun c => ((c.2 : Int) + 1, c.1)
  byPrefix : ∀ pre, s.getHistoryByPrefix pre = (lastCommands cmds).reverse.find? (startsWith · pre)
  last : s.getLastHistory = cmds.getLast?

/-- Every number that has been given leads to a command, if only to a later one. -/
lemma Holds.alias (h : Holds cmds s) {i : Nat} (hi : i < cmds.length) :
    ∃ j, i ≤ j ∧ cmds.length ≤ j + maxHistory ∧ j < cmds.length ∧
      s.history (i % maxHistory) = cmds[j]? := by
  have hj : ∃ j, i ≤ j ∧ cmds.length ≤ j + maxHistory ∧ j < cmds.length ∧
      j % maxHistory = i % maxHistory := by
    simp only [maxHistory]
    exact ⟨cmds.length - 1 - (cmds.length - 1 - i) % 100, by omega, by omega, by omega, by omega⟩
  obtain ⟨j, hij, hrecent, hlt, hmod⟩ := hj
  exact ⟨j, hij, hrecent, hlt, hmod ▸ h.recent j hrecent hlt⟩

lemma Holds.getHistoryByNum (h : Holds cmds s) {i : Nat} (hi : i < cmds.length) :
    s.getHistoryByNum (i + 1) = s.history (i % maxHistory) := by
  have hindex : ((i : Int) + 1 - 1).tmod (maxHistory : Int) = (i % maxHistory : Nat) := by
    rw [add_sub_cancel_right]
    exact (Int.ofNat_tmod _ _).symm
  unfold State.getHistoryByNum
  rw [h.count, if_neg (by omega), hindex, Int.toNat_natCast]

lemma Holds.getLastHistory (h : Holds cmds s) : s.getLastHistory = cmds.getLast? := by
  unfold State.getLastHistory
  rw [h.count]
  by_cases hn : cmds = []
  · subst hn
    rfl
  · have hpos := List.length_pos_of_ne_nil hn
    have hlast : ((cmds.length : Nat) : Int) = ((cmds.length - 1 : Nat) : Int) + 1 := by omega
    rw [if_neg (by omega), hlast, h.getHistoryByNum (by omega),
      h.recent _ (by simp only [maxHistory]; omega) (by omega), List.getLast?_eq_getElem?]

/-- The search goes over the last commands, the latest first, and then on. -/
lemma Holds.byPrefixLoop_add (h : Holds cmds s) (pre : Str) {m : Nat}
    (hm : (cmds.length - maxHistory) + m ≤ cmds.length) :
    s.byPrefixLoop pre ((cmds.length - maxHistory) + m) =
      (((lastCommands cmds).take m).reverse.find? (startsWith · pre)).or
        (s.byPrefixLoop pre (cmds.length - maxHistory)) := by
  induction m with
  | zero => simp
  | succ m ih =>
    have hlt : (cmds.length - maxHistory) + m < cmds.length := by omega
    have hget : (lastCommands cmds)[m]? = some cmds[(cmds.length - maxHistory) + m] := by
      rw [lastCommands, List.getElem?_drop, List.getElem?_eq_getElem hlt]
    have hslot : s.history (((cmds.length - maxHistory) + m) % maxHistory) =
        some cmds[(cmds.length - maxHistory) + m] := by
      rw [h.recent _ (by omega) hlt, List.getElem?_eq_getElem hlt]
    rw [← Nat.add_assoc, State.byPrefixLoop, hslot]
    dsimp only
    rw [ih (by omega), List.take_add_one, hget]
    simp only [Option.toList_some, List.reverse_append, List.reverse_singleton,
      List.singleton_append, List.find?_cons]
    split <;> simp_all

/-- The slots that the search meets further down have been seen before. -/
lemma Holds.byPrefixLoop_none (h : Holds cmds s) {pre : Str}
    (hnone : ∀ cmd ∈ lastCommands cmds, startsWith cmd pre = false) {i : Nat}
    (hi : i ≤ cmds.length) : s.byPrefixLoop pre i = none := by
  induction i with
  | zero => rfl
  | succ i ih =>
    obtain ⟨j, -, hrecent, hlt, hslot⟩ := h.alias (i := i) (by omega)
    have hin : cmds[j] ∈ lastCommands cmds := by
      rw [lastCommands, List.mem_drop_iff_getElem]
      exact ⟨j - (cmds.length - maxHistory), by omega, by congr 1; omega⟩
    rw [State.byPrefixLoop, hslot, List.getElem?_eq_getElem hlt]
    dsimp only
    rw [hnone _ hin, if_neg (by decide), ih (by omega)]

lemma Holds.getHistoryByPrefix (h : Holds cmds s) (pre : Str) :
    s.getHistoryByPrefix pre = (lastCommands cmds).reverse.find? (startsWith · pre) := by
  have hlen : (lastCommands cmds).length = cmds.length - (cmds.length - maxHistory) := by
    rw [lastCommands, List.length_drop]
  have hsplit : cmds.length = (cmds.length - maxHistory) + (lastCommands cmds).length := by
    rw [hlen]
    omega
  have hloop := h.byPrefixLoop_add pre (m := (lastCommands cmds).length) hsplit.ge
  rw [← hsplit, List.take_length] at hloop
  rw [State.getHistoryByPrefix, h.count, Int.toNat_natCast, hloop]
  cases hfind : (lastCommands cmds).reverse.find? (startsWith · pre) with
  | some cmd => rfl
  | none =>
    rw [List.find?_eq_none] at hfind
    refine h.byPrefixLoop_none (fun cmd hcmd => ?_) (Nat.sub_le _ _)
    simpa using hfind cmd (List.mem_reverse.mpr hcmd)

lemma Holds.printHistory (h : Holds cmds s) : s.printHistory =
    (cmds.zipIdx.drop (cmds.length - maxHistory)).map fun c => ((c.2 : Int) + 1, c.1) := by
  have hstart : (if (maxHistory : Int) < s.historyCount then s.historyCount - maxHistory + 1
      else 1) = ((cmds.length - maxHistory : Nat) : Int) + 1 := by
    rw [h.count]
    split <;> omega
  have hcount : (s.historyCount + 1 - (((cmds.length - maxHistory : Nat) : Int) + 1)).toNat =
      cmds.length - (cmds.length - maxHistory) := by
    rw [h.count]
    omega
  have hline : ∀ j < cmds.length - (cmds.length - maxHistory),
      ((s.history (((((cmds.length - maxHistory : Nat) : Int) + 1 + j - 1).tmod maxHistory).toNat)).map
        fun cmd => (((cmds.length - maxHistory : Nat) : Int) + 1 + j, cmd)) =
      ((cmds.zipIdx.drop (cmds.length - maxHistory)).map
        fun c => ((c.2 : Int) + 1, c.1))[j]? := by
    intro j hj
    have hindex : (((cmds.length - maxHistory : Nat) : Int) + 1 + j - 1).tmod (maxHistory : Int) =
        (((cmds.length - maxHistory) + j) % maxHistory : Nat) := by
      rw [show ((cmds.length - maxHistory : Nat) : Int) + 1 + j - 1 =
        ((cmds.length - maxHistory + j : Nat) : Int) by push_cast; ring]
      exact (Int.ofNat_tmod _ _).symm
    have hlt : cmds.length - maxHistory + j < cmds.length := by omega
    rw [hindex, Int.toNat_natCast, h.recent _ (by omega) hlt, List.getElem?_eq_getElem hlt]
    simp only [Option.map_some, List.getElem?_map, List.getElem?_drop, List.getElem?_zipIdx,
      List.getElem?_eq_getElem hlt, Option.some.injEq, Prod.mk.injEq, and_true]
    push_cast
    ring
  unfold State.printHistory
  dsimp only
  rw [hstart, hcount, List.filterMap_congr fun j hj => hline j (List.mem_range.mp hj)]
  obtain ⟨l, hl⟩ : ∃ l, l = (cmds.zipIdx.drop (cmds.length - maxHistory)).map
      fun c => ((c.2 : Int) + 1, c.1) := ⟨_, rfl⟩
  have hlen : cmds.length - (cmds.length - maxHistory) = l.length := by simp [hl]
  have hread : (List.range l.length).map (fun j => l[j]?) = l.map some :=
    List.ext_getElem (by simp) fun j _ _ => by simp
  have hall : ((List.range l.length).map fun j => l[j]?).filterMap id = l := by
    rw [hread]
    simp
  rw [List.filterMap_map] at hall
  rwa [← hl, hlen]

/-- The last hundred commands are printed and searched as they should be whatever `n` is; looking
one up by its number is right as long as no slot has been used twice. -/
lemma Holds.keeps_iff (h : Holds cmds s) : Keeps cmds s ↔ cmds.length ≤ maxHistory := by
  constructor
  · intro hk
    by_contra hgt
    have hlt : cmds.length - 1 - maxHistory < cmds.length := by omega
    obtain ⟨j, -, -, hj, hslot⟩ := h.alias hlt
    have hnum := hk.byNum ((cmds.length - 1 - maxHistory : Nat) + 1)
    rw [h.getHistoryByNum hlt, hslot, List.getElem?_eq_getElem hj, if_neg] at hnum
    · cases hnum
    · simp only [maxHistory] at hgt ⊢
      omega
  · intro hle
    refine ⟨fun k => ?_, h.printHistory, h.getHistoryByPrefix, h.getLastHistory⟩
    simp only [maxHistory] at hle
    by_cases hk : 1 ≤ k ∧ k ≤ cmds.length
    · obtain ⟨i, rfl⟩ : ∃ i : Nat, k = i + 1 := ⟨(k - 1).toNat, by omega⟩
      have hi : i < cmds.length := by omega
      rw [h.getHistoryByNum hi, h.recent i (by simp only [maxHistory]; omega) hi,
        if_pos ⟨by omega, hk.2⟩, add_sub_cancel_right, Int.toNat_natCast]
    · rw [if_neg (by omega)]
      unfold State.getHistoryByNum
      rw [h.count, if_pos (by omega)]

/-- The history is as it should be exactly when there have been no more than a hundred commands. -/
theorem history_keeps_iff (hlen : cmds.length < 2 ^ 31) :
    ∃ s, cmds.foldlM State.record State.initial = .ok s ∧
      (Keeps cmds s ↔ cmds.length ≤ maxHistory) := by
  obtain ⟨s, hs, hh⟩ := holds_foldlM hlen
  exact ⟨s, hs, hh.keeps_iff⟩

/-- Commands `a`, `b` and `c`, with their numbers. -/
theorem history_keeps_three : ∃ s,
    [[97], [98], [99]].foldlM State.record State.initial = .ok s ∧
      Keeps [[97], [98], [99]] s := by
  obtain ⟨s, hs, hk⟩ := @history_keeps_iff [[97], [98], [99]] (by decide)
  exact ⟨s, hs, hk.mpr (by decide)⟩

/-- One hundred and one commands, each of a single byte. -/
def hundredAndOne : List Str := (List.range 101).map fun i => [UInt8.ofNat (i + 1)]

/-- Command 1 has been overwritten by command 101, and its number leads there. -/
theorem history_alias : ∃ s, hundredAndOne.foldlM State.record State.initial = .ok s ∧
    s.getHistoryByNum 1 = some [101] ∧ ¬ Keeps hundredAndOne s := by
  obtain ⟨s, hs, hh⟩ := @holds_foldlM hundredAndOne (by decide)
  have hslot : s.getHistoryByNum 1 = some [101] := by
    have hone := hh.getHistoryByNum (i := 0) (by decide)
    have hlast := hh.recent 100 (by decide) (by decide)
    exact hone.trans hlast
  refine ⟨s, hs, hslot, fun hk => ?_⟩
  rw [hk.byNum 1, if_neg (by decide)] at hslot
  cases hslot

end State

end FogOS.Shell
