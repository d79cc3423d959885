import Mathlib.Data.List.GetD
import FogOS.Lib.Register
import FogOS.Kernel.Chunks
import FogOS.Kernel.Paths

/-!
# Directories as maps

`dirlookup` with the offset of the entry, `dirlink`, and the removal of an entry in `sys_unlink`. The
entries that are in use stand for a map from names to inode numbers; each operation changes it at one
name, or not at all.
-/

namespace FogOS.Kernel

open ByteMem

namespace Fs

variable {fs fs' : Fs} {ip : Fin ninode} {d : Dinode} {name : List UInt8} {pid : Int}

/-! ### The operations -/

/-- A name as `strncmp` and `strncpy` see it: up to a NUL, and at most `DIRSIZ` bytes. -/
def cut (s : List UInt8) : List UInt8 := (s.takeWhile (· ≠ 0)).take dirsiz

/-- `namecmp(s, t) == 0`. -/
def namecmp (s t : List UInt8) : Bool := cut s = cut t

/-- The entries from `off` on, for `dirlookup` with `poff`. -/
def dirlookupOffLoop (ip : Fin ninode) (name : List UInt8) :
    Nat → Fs → Nat → Except Stop (Option (Fin ninode × Nat) × Fs)
  | 0, fs, _ => pure (none, fs)
  | fuel + 1, fs, off =>
    if (fs.itable ip).d.size ≤ off then pure (none, fs)
    else do
      let (de, fs) ← fs.readi ip off 16
      if de.length ≠ 16 then throw (.panic .dirlookupRead)
      else if leNat (de.take 2) = 0 then dirlookupOffLoop ip name fuel fs (off + 16)
      else if namecmp name (de.drop 2) then
        let (next, fs) ← fs.iget (fs.itable ip).dev (leNat (de.take 2))
        pure (some (next, off), fs)
      else dirlookupOffLoop ip name fuel fs (off + 16)

/-- `dirlookup`: the inode, and the byte offset of the entry. -/
def dirlookupOff (fs : Fs) (ip : Fin ninode) (name : List UInt8) :
    Except Stop (Option (Fin ninode × Nat) × Fs) :=
  if (fs.itable ip).d.type ≠ tDir then throw (.panic .dirlookupNotDir)
  else dirlookupOffLoop ip name ((fs.itable ip).d.size / 16 + 1) fs 0

/-- Look for an empty dirent: its offset, or the size. -/
def dirlinkLoop (ip : Fin ninode) : Nat → Fs → Nat → Except Stop (Nat × Fs)
  | 0, fs, off => pure (off, fs)
  | fuel + 1, fs, off =>
    if (fs.itable ip).d.size ≤ off then pure (off, fs)
    else do
      let (de, fs) ← fs.readi ip off 16
      if de.length ≠ 16 then throw (.panic .dirlinkRead)
      else if leNat (de.take 2) = 0 then pure (off, fs)
      else dirlinkLoop ip fuel fs (off + 16)

/-- `de` after `strncpy(de.name, name, DIRSIZ)` and `de.inum = inum`. -/
def direntOf (name : List UInt8) (inum : Nat) : List UInt8 :=
  [UInt8.ofNat inum, UInt8.ofNat (inum / 256)] ++ (cut name ++ List.replicate (dirsiz - (cut name).length) 0)

/-- Write a new directory entry into the directory. -/
def dirlink (fs : Fs) (pid : Int) (ip : Fin ninode) (name : List UInt8) (inum : Nat) :
    Except Stop (Int × Fs) := do
  match ← fs.dirlookupOff ip name with
  | (some (next, _), fs) =>
    let fs ← fs.iput pid next
    pure (-1, fs)
  | (none, fs) =>
    let (off, fs) ← dirlinkLoop ip ((fs.itable ip).d.size / 16 + 1) fs 0
    let (r, fs) ← fs.writei ip (fun j => (direntOf name inum)[j]?) off 16
    if r ≠ 16 then pure (-1, fs) else pure (0, fs)

/-- The removal of an entry in `sys_unlink`: the entry is looked up and overwritten with zeros, and the
reference is put. -/
def dirunlink (fs : Fs) (pid : Int) (ip : Fin ninode) (name : List UInt8) : Except Stop (Int × Fs) := do
  match ← fs.dirlookupOff ip name with
  | (none, fs) => pure (-1, fs)
  | (some (next, off), fs) =>
    let (r, fs) ← fs.writei ip (fun j => (List.replicate 16 0)[j]?) off 16
    if r ≠ 16 then throw (.panic .unlinkWritei)
    else
      let fs ← fs.iput pid next
      pure (0, fs)

/-! ### Names and entries -/

lemma length_cut_le (name : List UInt8) : (cut name).length ≤ dirsiz := List.length_take_le _ _

lemma zero_notMem_cut (name : List UInt8) : (0 : UInt8) ∉ cut name := by
  intro h
  have hmem := List.mem_takeWhile_imp (List.mem_of_mem_take h)
  simp at hmem

/-- The name of an entry that has been read. -/
lemma cut_drop {de : List UInt8} (h : de.length = 16) : cut (de.drop 2) = (dirent de).2 := by
  have hlen := (List.takeWhile_prefix (fun b : UInt8 => decide (b ≠ 0)) (l := de.drop 2)).length_le
  rw [List.length_drop, h] at hlen
  exact List.take_of_length_le hlen

@[simp] lemma length_direntOf (name : List UInt8) (inum : Nat) : (direntOf name inum).length = 16 := by
  have hlen := length_cut_le name
  unfold direntOf
  simp only [List.length_append, List.length_cons, List.length_nil, List.length_replicate]
  unfold dirsiz at *
  omega

/-- What has been written is read back. -/
lemma dirent_direntOf {inum : Nat} (h : inum < 65536) : dirent (direntOf name inum) = (inum, cut name) := by
  have hhead : leNat [UInt8.ofNat inum, UInt8.ofNat (inum / 256)] = inum := by
    simp only [leNat, UInt8.toNat_ofNat']
    omega
  have htail : (cut name ++ List.replicate (dirsiz - (cut name).length) 0).takeWhile (· ≠ 0) = cut name := by
    rw [List.takeWhile_append_of_pos]
    · cases dirsiz - (cut name).length with
      | zero => simp
      | succ m => simp [List.replicate_succ]
    · intro b hb
      have hne : b ≠ 0 := by
        rintro rfl
        exact zero_notMem_cut name hb
      simpa using hne
  exact Prod.ext hhead htail

/-- The entries in a sequence of bytes. -/
def entriesOf (l : List UInt8) : List (Nat × List UInt8) :=
  (List.range (l.length / 16)).map fun k => dirent ((l.drop (16 * k)).take 16)

lemma entries_eq (fs : Fs) (d : Dinode) : fs.entries d = entriesOf (fs.content d) := by
  unfold entries entriesOf
  rw [length_content]

lemma getElem?_entriesOf (l : List UInt8) (k : Nat) : (entriesOf l)[k]? =
    if 16 * k + 16 ≤ l.length then some (dirent ((l.drop (16 * k)).take 16)) else none := by
  unfold entriesOf
  rw [List.getElem?_map]
  by_cases hk : k < l.length / 16
  · rw [List.getElem?_range hk, if_pos (by omega)]
    rfl
  · rw [List.getElem?_eq_none (by rw [List.length_range]; omega), if_neg (by omega)]
    rfl

/-- An entry is overwritten, or one is added at the end. -/
lemma entriesOf_put {l b : List UInt8} {j : Nat} (hl : l.length % 16 = 0) (hb : b.length = 16)
    (hj : 16 * j ≤ l.length) (k : Nat) :
    (entriesOf (l.take (16 * j) ++ b ++ l.drop (16 * j + 16)))[k]? =
      if k = j then some (dirent b) else (entriesOf l)[k]? := by
  obtain ⟨l', hl'⟩ : ∃ l', l' = l.take (16 * j) ++ b ++ l.drop (16 * j + 16) := ⟨_, rfl⟩
  have hlen : l'.length = max l.length (16 * j + 16) := by
    rw [hl']
    simp only [List.length_append, List.length_take, List.length_drop, hb]
    omega
  have hbyte : ∀ y, l'[y]? = if 16 * j ≤ y ∧ y < 16 * j + 16 then b[y - 16 * j]? else l[y]? := by
    intro y
    rw [hl', List.append_assoc, List.getElem?_append, List.length_take, min_eq_left hj]
    by_cases hlow : y < 16 * j
    · rw [if_pos hlow, if_neg (by omega), List.getElem?_take_of_lt hlow]
    · rw [if_neg hlow, List.getElem?_append, hb]
      by_cases hin : y < 16 * j + 16
      · rw [if_pos (by omega), if_pos (by omega)]
      · rw [if_neg (by omega), if_neg (by omega), List.getElem?_drop]
        congr 1
        omega
  have hslice : ∀ (m : List UInt8) (x : Nat), ((m.drop (16 * k)).take 16)[x]? =
      if x < 16 then m[16 * k + x]? else none := by
    intro m x
    rw [List.getElem?_take, List.getElem?_drop]
  rw [← hl', getElem?_entriesOf, getElem?_entriesOf, hlen]
  by_cases hkj : k = j
  · subst hkj
    rw [if_pos rfl, if_pos (by omega)]
    have hsame : (l'.drop (16 * k)).take 16 = b := by
      apply List.ext_getElem?
      intro x
      rw [hslice, hbyte]
      by_cases hx : x < 16
      · rw [if_pos hx, if_pos (by omega), Nat.add_sub_cancel_left]
      · rw [if_neg hx, List.getElem?_eq_none (by omega)]
    rw [hsame]
  · rw [if_neg hkj]
    have hsame : (l'.drop (16 * k)).take 16 = (l.drop (16 * k)).take 16 := by
      apply List.ext_getElem?
      intro x
      rw [hslice, hslice, hbyte]
      by_cases hx : x < 16
      · rw [if_pos hx, if_pos hx, if_neg (by omega)]
      · rw [if_neg hx, if_neg hx]
    rw [hsame]
    refine if_congr ?_ rfl rfl
    omega

/-- What an entry stands for: a name and an inode number, or nothing. -/
def meaning (e : Nat × List UInt8) : Option (List UInt8 × Nat) := if e.1 = 0 then none else some (e.2, e.1)

/-- The place `k` of a directory. -/
def place (fs : Fs) (d : Dinode) (k : Nat) : Option (List UInt8 × Nat) := (fs.entries d)[k]?.bind meaning

lemma place_put {fs fs' : Fs} {d d' : Dinode} {b : List UInt8} {j : Nat} (hsize : d.size % 16 = 0) (hb : b.length = 16)
    (hj : 16 * j ≤ d.size) (hcontent : fs'.content d' =
      (fs.content d).take (16 * j) ++ b ++ (fs.content d).drop (16 * j + 16)) :
    fs'.place d' = Function.update (fs.place d) j (meaning (dirent b)) := by
  funext k
  unfold place
  rw [entries_eq, entries_eq, hcontent, entriesOf_put (by rwa [length_content]) hb (by rwa [length_content])]
  by_cases hk : k = j
  · rw [if_pos hk, hk, Function.update_self]
    rfl
  · rw [if_neg hk, Function.update_of_ne hk]

/-! ### Looking up -/

/-- The entry in use with a name. -/
def hit (name : List UInt8) (e : Nat × List UInt8) : Bool := e.1 ≠ 0 ∧ cut name = e.2

/-- Take a reference to the inode of the entry `k`. -/
def foundAt (fs : Fs) (ip : Fin ninode) (es : List (Nat × List UInt8)) :
    Option Nat → Except Stop (Option (Fin ninode × Nat) × Fs)
  | none => .ok (none, fs)
  | some k => do
    let (next, fs) ← fs.iget (fs.itable ip).dev (es.getD k (0, [])).1
    pure (some (next, 16 * k), fs)

/-- An entry of a whole directory is read. -/
lemma readi_entry (hd : IsDirectory fs (fs.itable ip).d) {k : Nat} (hk : k < (fs.entries (fs.itable ip).d).length) :
    ∃ de, fs.readi ip (16 * k) 16 = .ok (de, fs) ∧ de.length = 16 ∧ dirent de = (fs.entries (fs.itable ip).d)[k] := by
  have hsize := hd.dense.size
  have hwhole := hd.whole
  have hmax : maxfile * bsize = 274432 := by decide
  rw [length_entries] at hk
  refine ⟨_, readi_ok hd.dense (by omega), ?_, ?_⟩
  · rw [List.length_take, List.length_drop, length_content]
    omega
  · simp [entries]

lemma dirlookupOffLoop_ok (hd : IsDirectory fs (fs.itable ip).d) (name : List UInt8) : ∀ (fuel k : Nat),
    (fs.itable ip).d.size / 16 < fuel + k → dirlookupOffLoop ip name fuel fs (16 * k) =
      fs.foundAt ip (fs.entries (fs.itable ip).d)
        ((((fs.entries (fs.itable ip).d).drop k).findIdx? (hit name)).map (k + ·)) := by
  intro fuel
  induction fuel with
  | zero =>
    intro k hk
    rw [List.drop_eq_nil_of_le (by rw [length_entries]; omega)]
    rfl
  | succ fuel ih =>
    intro k hk
    have hwhole := hd.whole
    rw [dirlookupOffLoop]
    by_cases hend : (fs.itable ip).d.size ≤ 16 * k
    · rw [if_pos hend, List.drop_eq_nil_of_le (by rw [length_entries]; omega)]
      rfl
    · have hlt : k < (fs.entries (fs.itable ip).d).length := by
        rw [length_entries]
        omega
      obtain ⟨de, hread, hlen, hentry⟩ := readi_entry hd hlt
      have hnext := ih (k + 1) (by omega)
      have hshift : ∀ o : Option Nat, (o.map (k + 1 + ·)) = (o.map (· + 1)).map (k + ·) := by
        intro o
        rw [Option.map_map]
        congr 1
        funext x
        simp only [Function.comp]
        omega
      rw [hshift] at hnext
      rw [if_neg hend, hread, ok_bind, List.drop_eq_getElem_cons hlt, List.findIdx?_cons, ← hentry]
      dsimp only
      rw [if_neg (by simpa using hlen)]
      by_cases hzero : leNat (de.take 2) = 0
      · have hmiss : hit name (dirent de) = false := by simp [hit, dirent, hzero]
        rw [if_pos hzero, hmiss]
        exact hnext
      · rw [if_neg hzero]
        by_cases hname : cut name = (dirent de).2
        · have hhit : hit name (dirent de) = true := by simpa [hit, dirent, hzero] using hname
          have hcmp : namecmp name (de.drop 2) = true := by
            rw [← cut_drop hlen] at hname
            exact decide_eq_true hname
          rw [if_pos hcmp, hhit]
          have hget : (fs.entries (fs.itable ip).d).getD k (0, []) = dirent de := by
            rw [hentry]
            exact List.getD_eq_getElem _ _ hlt
          simp only [if_true, Option.map_some, Nat.add_zero, foundAt, hget]
          rfl
        · have hmiss : hit name (dirent de) = false := by simp [hit, hname]
          have hcmp : namecmp name (de.drop 2) ≠ true := by
            intro hcmp
            have heq := of_decide_eq_true hcmp
            rw [cut_drop hlen] at heq
            exact hname heq
          rw [if_neg hcmp, hmiss]
          exact hnext

lemma dirlookupLoop_eq (ip : Fin ninode) (name : List UInt8) (fuel : Nat) : ∀ (fs : Fs) (off : Nat),
    dirlookupLoop ip (cut name) fuel fs off =
      (dirlookupOffLoop ip name fuel fs off).map fun r => (r.1.map (·.1), r.2) := by
  induction fuel with
  | zero =>
    intro fs off
    rfl
  | succ fuel ih =>
    intro fs off
    rw [dirlookupLoop, dirlookupOffLoop]
    split
    · rfl
    · cases fs.readi ip off 16 with
      | error e => rfl
      | ok x =>
        obtain ⟨de, fs₁⟩ := x
        rw [ok_bind, ok_bind]
        dsimp only
        split
        · rfl
        · next hlen =>
          rw [not_not] at hlen
          by_cases hzero : leNat (de.take 2) = 0
          · rw [if_neg (fun h => h.1 hzero), if_pos hzero]
            exact ih fs₁ (off + 16)
          · have hiff : namecmp name (de.drop 2) = true ↔ cut name = (de.drop 2).takeWhile (· ≠ 0) := by
              rw [namecmp, decide_eq_true_iff, cut_drop hlen]
              rfl
            rw [if_neg hzero]
            by_cases hname : cut name = (de.drop 2).takeWhile (· ≠ 0)
            · rw [if_pos ⟨hzero, hname⟩, if_pos (hiff.mpr hname)]
              cases fs₁.iget (fs₁.itable ip).dev (leNat (de.take 2)) with
              | error e => rfl
              | ok x => rfl
            · rw [if_neg (fun h => hname h.2), if_neg (fun h => hname (hiff.mp h))]
              exact ih fs₁ (off + 16)

/-- Without the offset this is the `dirlookup` of path lookup. -/
theorem dirlookup_eq (fs : Fs) (ip : Fin ninode) (name : List UInt8) : fs.dirlookup ip (cut name) =
    (fs.dirlookupOff ip name).map fun r => (r.1.map (·.1), r.2) := by
  unfold Fs.dirlookup dirlookupOff
  split
  · rfl
  · exact dirlookupLoop_eq ip name _ fs 0

/-- `dirlookup` finds the first entry of that name, and its offset. -/
lemma dirlookupOff_ok (hd : IsDirectory fs (fs.itable ip).d) (name : List UInt8) : fs.dirlookupOff ip name =
    fs.foundAt ip (fs.entries (fs.itable ip).d) ((fs.entries (fs.itable ip).d).findIdx? (hit name)) := by
  unfold dirlookupOff
  rw [if_neg (not_not.mpr hd.type)]
  have hloop := dirlookupOffLoop_ok hd name ((fs.itable ip).d.size / 16 + 1) 0 (Nat.lt_succ_self _)
  simpa using hloop

/-- The first entry that is not in use, or the end. -/
lemma dirlinkLoop_ok (hd : IsDirectory fs (fs.itable ip).d) : ∀ (fuel k : Nat),
    (fs.itable ip).d.size / 16 < fuel + k → k ≤ (fs.itable ip).d.size / 16 → dirlinkLoop ip fuel fs (16 * k) =
      .ok (16 * (k + ((fs.entries (fs.itable ip).d).drop k).findIdx fun e => e.1 = 0), fs) := by
  intro fuel
  induction fuel with
  | zero =>
    intro k hk hle
    omega
  | succ fuel ih =>
    intro k hk hle
    have hwhole := hd.whole
    rw [dirlinkLoop]
    by_cases hend : (fs.itable ip).d.size ≤ 16 * k
    · rw [if_pos hend, List.drop_eq_nil_of_le (by rw [length_entries]; omega)]
      rfl
    · have hlt : k < (fs.entries (fs.itable ip).d).length := by
        rw [length_entries]
        omega
      obtain ⟨de, hread, hlen, hentry⟩ := readi_entry hd hlt
      rw [if_neg hend, hread, ok_bind, List.drop_eq_getElem_cons hlt, List.findIdx_cons, ← hentry]
      dsimp only
      rw [if_neg (by simpa using hlen)]
      by_cases hzero : leNat (de.take 2) = 0
      · have hfree : decide ((dirent de).1 = 0) = true := decide_eq_true hzero
        rw [if_pos hzero, hfree]
        rfl
      · have hused : decide ((dirent de).1 = 0) = false := decide_eq_false hzero
        rw [if_neg hzero, hused]
        refine (ih (k + 1) (by omega) (by omega)).trans ?_
        simp only [cond_false]
        congr 3
        omega

/-! ### References -/

/-- Entries of the inode table that are not in use have changed, or references to entries in use. -/
structure Shifts (fs : Fs) (jp : Fin ninode) (v : Inode) : Prop where
  seen : (0 < v.ref ∧ v.valid = true) ↔ (0 < (fs.itable jp).ref ∧ (fs.itable jp).valid = true)
  same : 0 < v.ref → 0 < (fs.itable jp).ref → v.inum = (fs.itable jp).inum ∧ v.d = (fs.itable jp).d

lemma Shifts.inode {jp : Fin ninode} {v : Inode} (h : Shifts fs jp v) : (fs.setInode jp v).inode = fs.inode := by
  have hpred : ∀ j kp, (0 < ((fs.setInode jp v).itable kp).ref ∧ ((fs.setInode jp v).itable kp).valid = true ∧
      ((fs.setInode jp v).itable kp).inum = j) ↔
      (0 < (fs.itable kp).ref ∧ (fs.itable kp).valid = true ∧ (fs.itable kp).inum = j) := by
    intro j kp
    by_cases hk : kp = jp
    · subst hk
      have hself : (fs.setInode kp v).itable kp = v := Function.update_self ..
      rw [hself]
      constructor
      · rintro ⟨href, hv, hj⟩
        obtain ⟨href', hv'⟩ := h.seen.mp ⟨href, hv⟩
        exact ⟨href', hv', (h.same href href').1 ▸ hj⟩
      · rintro ⟨href, hv, hj⟩
        obtain ⟨href', hv'⟩ := h.seen.mpr ⟨href, hv⟩
        exact ⟨href', hv', (h.same href' href).1.trans hj⟩
    · have hother : (fs.setInode jp v).itable kp = fs.itable kp := Function.update_of_ne hk _ _
      rw [hother]
  funext j
  unfold Fs.inode
  simp only [hpred]
  split
  · next kp hfind =>
    have hfound := List.find?_some hfind
    simp only [decide_eq_true_eq] at hfound
    by_cases hk : kp = jp
    · subst hk
      have hself : (fs.setInode kp v).itable kp = v := Function.update_self ..
      have href := (h.seen.mpr ⟨hfound.1, hfound.2.1⟩).1
      rw [hself]
      exact (h.same href hfound.1).2
    · exact congrArg Inode.d (Function.update_of_ne hk _ _)
  · rfl

/-- A file that is open stays what it is. -/
lemma Sound.setInode (h : Sound fs ip) {jp : Fin ninode} {v : Inode} (hs : Shifts fs jp v)
    (hself : jp = ip → 0 < v.ref) (hother : jp ≠ ip → 0 < v.ref → v.inum ≠ (fs.itable ip).inum) :
    Sound (fs.setInode jp v) ip ∧ ((fs.setInode jp v).itable ip).d = (fs.itable ip).d ∧
      ((fs.setInode jp v).itable ip).inum = (fs.itable ip).inum := by
  have hinode := hs.inode
  obtain ⟨hd, hinum, href, hvalid⟩ : ((fs.setInode jp v).itable ip).d = (fs.itable ip).d ∧
      ((fs.setInode jp v).itable ip).inum = (fs.itable ip).inum ∧ 0 < ((fs.setInode jp v).itable ip).ref ∧
      ((fs.setInode jp v).itable ip).valid = true := by
    by_cases hj : jp = ip
    · subst hj
      have heq : (fs.setInode jp v).itable jp = v := Function.update_self ..
      have hpos := hself rfl
      rw [heq]
      exact ⟨(hs.same hpos h.live.ref).2, (hs.same hpos h.live.ref).1, hpos,
        (hs.seen.mpr ⟨h.live.ref, h.live.valid⟩).2⟩
    · have heq : (fs.setInode jp v).itable ip = fs.itable ip := Function.update_of_ne (Ne.symm hj) _ _
      rw [heq]
      exact ⟨rfl, rfl, h.live.ref, h.live.valid⟩
  refine ⟨⟨?_, ⟨href, hvalid, fun kp hk heq => ?_⟩, ?_, ?_, ⟨h.opened.outstanding, h.opened.nodup⟩⟩, hd, hinum⟩
  · rw [hinode]
    exact h.owned.congr rfl rfl rfl
  · rw [hinum] at heq
    by_cases hkj : kp = jp
    · subst hkj
      have hset : (fs.setInode kp v).itable kp = v := Function.update_self ..
      rw [hset] at hk heq
      by_contra hne
      exact hother hne hk heq
    · have hset : (fs.setInode jp v).itable kp = fs.itable kp := Function.update_of_ne hkj _ _
      rw [hset] at hk heq
      exact h.live.unique kp hk heq
  · rw [hd]
    exact h.type
  · rw [hd]
    exact ⟨h.dense.size, h.dense.blocks⟩

/-- The references, the lock of `ip` and what is reserved of the log are as before. -/
structure Framed (fs : Fs) (ip : Fin ninode) (fs' : Fs) : Prop where
  ref : ∀ jp, (fs'.itable jp).ref = (fs.itable jp).ref
  locked : (fs'.itable ip).locked = (fs.itable ip).locked
  lockPid : (fs'.itable ip).lockPid = (fs.itable ip).lockPid
  outstanding : fs'.log.outstanding = fs.log.outstanding
  committing : fs'.log.committing = fs.log.committing

lemma Framed.refl (fs : Fs) (ip : Fin ninode) : Framed fs ip fs := ⟨fun _ => rfl, rfl, rfl, rfl, rfl⟩

/-- The reference that a lookup has taken. -/
structure Taken (fs : Fs) (ip jp : Fin ninode) (fs' : Fs) : Prop where
  sound : Sound fs' ip
  d : (fs'.itable ip).d = (fs.itable ip).d
  disk : fs'.block = fs.block
  bitmap : fs'.bitmap = fs.bitmap
  sb : fs'.sb = fs.sb
  shared : 2 ≤ (fs'.itable jp).ref ∨ (fs'.itable jp).ref = 1 ∧ (fs'.itable jp).valid = false
  apart : jp ≠ ip → (fs'.itable jp).inum ≠ (fs'.itable ip).inum
  ref : ∀ kp, (fs'.itable kp).ref = (fs.itable kp).ref + if kp = jp then 1 else 0
  locked : (fs'.itable ip).locked = (fs.itable ip).locked
  lockPid : (fs'.itable ip).lockPid = (fs.itable ip).lockPid
  log : fs'.log = fs.log

/-- A reference is taken as long as an entry of the inode table is free. -/
lemma iget_returns {kp : Fin ninode} (hfree : (fs.itable kp).ref = 0) (dev inum : Nat) :
    ∃ jp fs', fs.iget dev inum = .ok (jp, fs') ∧ (fs'.itable jp).inum = inum := by
  have hset : ∀ jp v, (fs.setInode jp v).itable jp = v := fun jp v => Function.update_self ..
  unfold Fs.iget
  split
  · next jp hfind =>
    have hfound := List.find?_some hfind
    simp only [decide_eq_true_eq] at hfound
    exact ⟨_, _, rfl, by rw [hset]; exact hfound.2.2⟩
  · split
    · next hnone =>
      have hmiss := List.find?_eq_none.mp hnone kp (List.mem_finRange kp)
      exact absurd (decide_eq_true hfree) hmiss
    · exact ⟨_, _, rfl, by rw [hset]⟩

/-- A change of one entry, seen from all. -/
lemma ref_setInode (fs : Fs) (jp : Fin ninode) {v : Inode} {n : Int} (hv : v.ref = (fs.itable jp).ref + n)
    (kp : Fin ninode) :
    ((fs.setInode jp v).itable kp).ref = (fs.itable kp).ref + if kp = jp then n else 0 := by
  by_cases hk : kp = jp
  · subst hk
    have hset : (fs.setInode kp v).itable kp = v := Function.update_self ..
    rw [hset, hv, if_pos rfl]
  · have hset : (fs.setInode jp v).itable kp = fs.itable kp := Function.update_of_ne hk _ _
    rw [hset, if_neg hk, add_zero]

/-- The lock of an entry that keeps it. -/
lemma lock_setInode (fs : Fs) (ip jp : Fin ninode) {v : Inode}
    (hv : jp = ip → v.locked = (fs.itable ip).locked ∧ v.lockPid = (fs.itable ip).lockPid) :
    ((fs.setInode jp v).itable ip).locked = (fs.itable ip).locked ∧
      ((fs.setInode jp v).itable ip).lockPid = (fs.itable ip).lockPid := by
  by_cases hj : jp = ip
  · subst hj
    have hset : (fs.setInode jp v).itable jp = v := Function.update_self ..
    rw [hset]
    exact hv rfl
  · have hset : (fs.setInode jp v).itable ip = fs.itable ip := Function.update_of_ne (Ne.symm hj) _ _
    rw [hset]
    exact ⟨rfl, rfl⟩

lemma Sound.iget (h : Sound fs ip) {inum : Nat} {jp : Fin ninode}
    (hop : fs.iget (fs.itable ip).dev inum = .ok (jp, fs')) : Taken fs ip jp fs' := by
  have hset : ∀ v, (fs.setInode jp v).itable jp = v := fun v => Function.update_self ..
  unfold Fs.iget at hop
  split at hop
  · next kp hfind =>
    cases hop
    have hfound := List.find?_some hfind
    simp only [decide_eq_true_eq] at hfound
    have hs : Shifts fs jp { fs.itable jp with ref := (fs.itable jp).ref + 1 } := by
      refine ⟨and_congr_left' ?_, fun _ _ => ⟨rfl, rfl⟩⟩
      exact iff_of_true (by dsimp only; omega) hfound.1
    have hapart : jp ≠ ip → (fs.itable jp).inum ≠ (fs.itable ip).inum :=
      fun hne heq => hne (h.live.unique jp hfound.1 heq)
    obtain ⟨hsound, hd, hinum⟩ := h.setInode hs (fun _ => by dsimp only; omega) fun hne _ => hapart hne
    obtain ⟨hlocked, hpid⟩ := lock_setInode fs ip jp
      (v := { fs.itable jp with ref := (fs.itable jp).ref + 1 }) fun heq => by
        rw [heq]
        exact ⟨rfl, rfl⟩
    refine ⟨hsound, hd, rfl, rfl, rfl, Or.inl ?_, fun hne => ?_, ref_setInode fs jp rfl, hlocked, hpid,
      rfl⟩
    · rw [hset]
      dsimp only
      omega
    · rw [hset, hinum]
      exact hapart hne
  · next hnone =>
    split at hop
    · cases hop
    · next kp hfind =>
      cases hop
      have hzero : (fs.itable jp).ref = 0 := by simpa using List.find?_some hfind
      have hs : Shifts fs jp { fs.itable jp with dev := (fs.itable ip).dev, inum := inum, ref := 1, valid := false } := by
        refine ⟨iff_of_false (fun hv => by cases hv.2) fun hv => by omega, fun _ href => by omega⟩
      have hne : jp ≠ ip := by
        rintro rfl
        have href := h.live.ref
        omega
      have hapart : inum ≠ (fs.itable ip).inum := by
        intro heq
        have hmiss := List.find?_eq_none.mp hnone ip (List.mem_finRange ip)
        refine hmiss (decide_eq_true ?_)
        exact ⟨h.live.ref, rfl, heq.symm⟩
      obtain ⟨hsound, hd, hinum⟩ := h.setInode hs (fun heq => absurd heq hne) fun _ _ => hapart
      obtain ⟨hlocked, hpid⟩ := lock_setInode fs ip jp
        (v := { fs.itable jp with dev := (fs.itable ip).dev, inum := inum, ref := 1, valid := false })
        fun heq => absurd heq hne
      refine ⟨hsound, hd, rfl, rfl, rfl, Or.inr ?_, fun _ => ?_,
        ref_setInode fs jp (by rw [hzero, zero_add]), hlocked, hpid, rfl⟩
      · exact ⟨congrArg Inode.ref (hset _), congrArg Inode.valid (hset _)⟩
      · rw [hset, hinum]
        exact hapart

/-- Putting the reference frees nothing. -/
lemma Sound.iput (h : Sound fs ip) (pid : Int) {jp : Fin ninode}
    (hshared : 2 ≤ (fs.itable jp).ref ∨ (fs.itable jp).ref = 1 ∧ (fs.itable jp).valid = false)
    (hapart : jp ≠ ip → (fs.itable jp).inum ≠ (fs.itable ip).inum) :
    fs.iput pid jp = .ok (fs.idrop jp) ∧ Sound (fs.idrop jp) ip ∧
      ((fs.idrop jp).itable ip).d = (fs.itable ip).d := by
  have hnot : ¬ ((fs.itable jp).ref = 1 ∧ (fs.itable jp).valid = true ∧ (fs.itable jp).d.nlink = 0) := by
    rintro ⟨href, hv, -⟩
    rcases hshared with htwo | ⟨-, hinvalid⟩
    · omega
    · rw [hinvalid] at hv
      cases hv
  have hput : fs.iput pid jp = .ok (fs.idrop jp) := by
    unfold Fs.iput
    dsimp only
    rw [if_neg hnot]
    rfl
  have hs : Shifts fs jp { fs.itable jp with ref := (fs.itable jp).ref - 1 } := by
    refine ⟨?_, fun _ _ => ⟨rfl, rfl⟩⟩
    rcases hshared with htwo | ⟨-, hinvalid⟩
    · exact and_congr_left' (iff_of_true (by dsimp only; omega) (by omega))
    · refine iff_of_false (fun hv => ?_) fun hv => ?_
      · have hvalid := hv.2
        dsimp only at hvalid
        rw [hinvalid] at hvalid
        cases hvalid
      · rw [hinvalid] at hv
        cases hv.2
  have hself : jp = ip → 0 < (fs.itable jp).ref - 1 := by
    rintro rfl
    rcases hshared with htwo | ⟨-, hinvalid⟩
    · omega
    · have hvalid := h.live.valid
      rw [hinvalid] at hvalid
      cases hvalid
  obtain ⟨hsound, hd, -⟩ := h.setInode hs hself fun hne _ => hapart hne
  exact ⟨hput, hsound, hd⟩

/-- A reference has been taken, the references are as then, and it is put. -/
lemma Taken.framed {fs₁ fs₂ : Fs} {jp : Fin ninode} (h : Taken fs ip jp fs₁) (hf : Framed fs₁ ip fs₂) :
    Framed fs ip (fs₂.idrop jp) := by
  obtain ⟨hlocked, hpid⟩ := lock_setInode fs₂ ip jp
    (v := { fs₂.itable jp with ref := (fs₂.itable jp).ref - 1 }) fun heq => by
      rw [heq]
      exact ⟨rfl, rfl⟩
  refine ⟨fun kp => ?_, hlocked.trans (hf.locked.trans h.locked), hpid.trans (hf.lockPid.trans h.lockPid),
    ?_, ?_⟩
  · have hdrop := ref_setInode fs₂ jp (v := { fs₂.itable jp with ref := (fs₂.itable jp).ref - 1 })
      (n := -1) rfl kp
    unfold idrop
    rw [hdrop, hf.ref, h.ref]
    split <;> omega
  · change fs₂.log.outstanding = _
    rw [hf.outstanding, h.log]
  · change fs₂.log.committing = _
    rw [hf.committing, h.log]

/-! ### One operation -/

/-- The directory `ip` is open and whole, and its entries hold the map `m`. -/
structure Dir (fs : Fs) (ip : Fin ninode) (m : List UInt8 → Option Nat) : Prop where
  sound : Sound fs ip
  type : (fs.itable ip).d.type = tDir
  whole : (fs.itable ip).d.size % 16 = 0
  holds : Register.Holds (fs.place (fs.itable ip).d) m

/-- No entry is free. -/
def Full (fs : Fs) (d : Dinode) : Prop := ∀ e ∈ fs.entries d, e.1 ≠ 0

/-- The directory is not as long as a file can be, and there are free blocks for what is missing of the
block with the next entry: the block itself, and the indirect block. -/
def Extensible (fs : Fs) (d : Dinode) : Prop :=
  d.size + 16 ≤ maxfile * bsize ∧ fs.missing d (d.size / bsize) ≤ fs.freeCount

variable {m : List UInt8 → Option Nat} {inum : Nat}

lemma Dir.isDirectory (h : Dir fs ip m) : IsDirectory fs (fs.itable ip).d := ⟨h.type, h.sound.dense, h.whole⟩

lemma place_congr (hblock : fs'.block = fs.block) : fs'.place d = fs.place d := by
  have hcontent : fs'.content d = fs.content d :=
    List.map_congr_left fun x _ => byteAt_congr (fun _ _ => rfl) hblock
  funext k
  rw [place, place, entries_eq, entries_eq, hcontent]

lemma Taken.place {jp : Fin ninode} (h : Taken fs ip jp fs') :
    fs'.place (fs'.itable ip).d = fs.place (fs.itable ip).d := by
  rw [h.d]
  exact place_congr h.disk

/-- The contents and the size have not changed. -/
lemma Dir.congr (h : Dir fs ip m) (hsound : Sound fs' ip) (hd : (fs'.itable ip).d = (fs.itable ip).d)
    (hblock : fs'.block = fs.block) : Dir fs' ip m := by
  refine ⟨hsound, ?_, ?_, ?_⟩
  · rw [hd, h.type]
  · rw [hd, h.whole]
  · rw [hd, place_congr hblock]
    exact h.holds

lemma place_some {k : Nat} {v : List UInt8 × Nat} : fs.place d k = some v ↔
    ∃ hk : k < (fs.entries d).length, (fs.entries d)[k].1 ≠ 0 ∧ v = ((fs.entries d)[k].2, (fs.entries d)[k].1) := by
  unfold place
  rw [Option.bind_eq_some_iff]
  constructor
  · rintro ⟨e, he, hv⟩
    obtain ⟨hk, rfl⟩ := List.getElem?_eq_some_iff.mp he
    unfold meaning at hv
    split at hv
    · cases hv
    · exact ⟨hk, ‹_›, (Option.some.inj hv).symm⟩
  · rintro ⟨hk, hne, rfl⟩
    exact ⟨_, List.getElem?_eq_getElem hk, if_neg hne⟩

/-- The entry that a lookup finds. -/
lemma hit_some (h : Register.Holds (fs.place d) m) {k : Nat}
    (hfind : (fs.entries d).findIdx? (hit name) = some k) :
    ∃ inum, fs.place d k = some (cut name, inum) ∧ m (cut name) = some inum ∧
      ((fs.entries d).getD k (0, [])).1 = inum ∧ 16 * k < d.size := by
  obtain ⟨hk, hhit, -⟩ := List.findIdx?_eq_some_iff_getElem.mp hfind
  have hmatch := of_decide_eq_true hhit
  have hplace := place_some.mpr ⟨hk, hmatch.1, rfl⟩
  rw [← hmatch.2] at hplace
  refine ⟨_, hplace, h.of_place hplace, ?_, ?_⟩
  · rw [List.getD_eq_getElem _ _ hk]
  · rw [length_entries] at hk
    omega

lemma hit_none (h : Register.Holds (fs.place d) m)
    (hfind : (fs.entries d).findIdx? (hit name) = none) : m (cut name) = none := by
  refine h.none_iff.mpr fun k inum hplace => ?_
  obtain ⟨hk, hne, heq⟩ := place_some.mp hplace
  obtain ⟨hname, -⟩ := Prod.mk.inj heq
  have hmiss := List.findIdx?_eq_none_iff.mp hfind _ (List.getElem_mem hk)
  have hhit : hit name (fs.entries d)[k] = true := decide_eq_true ⟨hne, hname⟩
  rw [hmiss] at hhit
  cases hhit

/-- `dirlookup` finds what the map has for the name, and the offset of its entry. -/
lemma dirlookup_map (hd : IsDirectory fs (fs.itable ip).d)
    (h : Register.Holds (fs.place (fs.itable ip).d) m) (name : List UInt8) :
    (m (cut name) = none ∧ fs.dirlookupOff ip name = .ok (none, fs)) ∨
    ∃ inum k, m (cut name) = some inum ∧ fs.place (fs.itable ip).d k = some (cut name, inum) ∧
      16 * k < (fs.itable ip).d.size ∧ fs.dirlookupOff ip name = (do
        let (next, fs) ← fs.iget (fs.itable ip).dev inum
        pure (some (next, 16 * k), fs)) := by
  have hrun := dirlookupOff_ok hd name
  cases hfind : (fs.entries (fs.itable ip).d).findIdx? (hit name) with
  | none =>
    rw [hfind] at hrun
    exact Or.inl ⟨hit_none h hfind, hrun⟩
  | some k =>
    obtain ⟨inum, hplace, hm, hinum, hsize⟩ := hit_some h hfind
    rw [hfind, foundAt, hinum] at hrun
    exact Or.inr ⟨inum, k, hm, hplace, hsize, hrun⟩

/-- An entry lies in one block. -/
lemma needed_entry {off : Nat} (hoff : off % 16 = 0) (hmax : off + 16 ≤ maxfile * bsize) :
    fs.needed d off (off + 16) = fs.missing d (off / bsize) := by
  have hblock : ∀ bn, (off / bsize ≤ bn ∧ bn * bsize < off + 16) ↔ bn = off / bsize := by
    intro bn
    unfold bsize
    omega
  have hfar : ndirect * bsize < off + 16 ↔ ndirect ≤ off / bsize := by
    unfold bsize ndirect
    omega
  have hlt : off / bsize < maxfile := by
    unfold bsize at *
    omega
  have hcard : ((Finset.range maxfile).filter fun bn =>
      off / bsize ≤ bn ∧ bn * bsize < off + 16 ∧ fs.fileBlock d bn = 0).card =
      if fs.fileBlock d (off / bsize) = 0 then 1 else 0 := by
    simp only [← and_assoc, hblock]
    split
    · next hzero =>
      rw [Finset.card_eq_one]
      refine ⟨off / bsize, ?_⟩
      ext bn
      simp only [Finset.mem_filter, Finset.mem_range, Finset.mem_singleton]
      constructor
      · rintro ⟨-, rfl, -⟩
        rfl
      · rintro rfl
        exact ⟨hlt, rfl, hzero⟩
    · next hne =>
      rw [Finset.card_eq_zero, Finset.filter_eq_empty_iff]
      rintro bn - ⟨rfl, hzero⟩
      exact hne hzero
  unfold needed missing
  rw [hcard]
  simp only [hfar]

/-- For an entry of a directory there is nothing missing. -/
lemma entry_fits {k : Nat} (h : Dense fs d) (hwhole : d.size % 16 = 0) (hlt : 16 * k < d.size) :
    16 * k + 16 ≤ maxfile * bsize ∧ fs.missing d (16 * k / bsize) ≤ fs.freeCount := by
  have hblock := h.blocks (16 * k / bsize) ((Nat.div_mul_le_self (16 * k) bsize).trans_lt hlt)
  have hind := indirect_of_fileBlock hblock
  have hsize := h.size
  have hmax : maxfile * bsize = 274432 := by decide
  have hzero : fs.missing d (16 * k / bsize) = 0 := by
    unfold missing
    rw [if_neg hblock, if_neg fun hboth => hind hboth.1 hboth.2]
  rw [hzero]
  exact ⟨by omega, Nat.zero_le _⟩

/-- What `writei` of an entry does: it is written, or nothing is. -/
lemma writei_entry (h : Sound fs ip) {b : List UInt8} (hb : b.length = 16) {off : Nat} (hoff : off % 16 = 0)
    (hle : off ≤ (fs.itable ip).d.size) (hlog : fs.log.block.length + maxopblocks ≤ logblocks) :
    ∃ r fs', fs.writei ip (fun j => b[j]?) off 16 = .ok (r, fs') ∧ Sound fs' ip ∧
      (fs'.itable ip).d.type = (fs.itable ip).d.type ∧ Framed fs ip fs' ∧
      (∀ jp, (fs'.itable jp).ref = (fs.itable jp).ref ∧ (fs'.itable jp).valid = (fs.itable jp).valid ∧
        (fs'.itable jp).inum = (fs.itable jp).inum) ∧
      (r = 16 ↔ off + 16 ≤ maxfile * bsize ∧ fs.missing (fs.itable ip).d (off / bsize) ≤ fs.freeCount) ∧
      (r = 16 → (fs'.itable ip).d.size = max (fs.itable ip).d.size (off + 16) ∧
        fs'.content (fs'.itable ip).d = (fs.content (fs.itable ip).d).take off ++ b ++
          (fs.content (fs.itable ip).d).drop (off + 16)) ∧
      (r ≠ 16 → (fs'.itable ip).d.size = (fs.itable ip).d.size ∧
        fs'.content (fs'.itable ip).d = fs.content (fs.itable ip).d) := by
  have hmax32 : maxfile * bsize = 274432 := by decide
  have hsize := h.dense.size
  by_cases hlim : maxfile * bsize < off + 16
  · refine ⟨-1, fs, writei_rejects (by omega) (by decide) (Or.inr hlim), h, rfl, Framed.refl fs ip,
      fun _ => ⟨rfl, rfl, rfl⟩, iff_of_false (by decide) fun hboth => ?_, fun hr => absurd hr (by decide),
      fun _ => ⟨rfl, rfl⟩⟩
    omega
  · rw [not_lt] at hlim
    obtain ⟨r, fs', hwrite, -⟩ := writei_fits (fun j => b[j]?) h hle (by decide) hlim hlog
    have hsound := (writei_sound h (by omega) (by decide) hwrite).1
    have hread : ∀ j < 16, (b[j]?).isSome := by
      intro j hj
      rw [List.getElem?_eq_getElem (by omega)]
      rfl
    obtain ⟨tot, hi, fs₁, L, hgives, hwrote, henough, -⟩ := @writei_ok _ _ h.owned h.live h.type h.opened
      (fun j => b[j]?) off 16 _ _ hle hlim (marks_of_bitmapBlocks (Finset.Subset.refl _) _) le_rfl
    obtain ⟨rfl, rfl⟩ := Prod.mk.inj (hgives.unique hwrite)
    obtain rfl := hwrote.hi_eq hread
    have hlast := hwrote.hi_le
    rw [needed_entry hoff hlim] at henough
    have hcontent := hwrote.content hle
    have hsize' := hwrote.size
    have htot : tot = 0 ∨ tot = 16 := by
      by_contra hpart
      rw [not_or] at hpart
      have hin : (off + tot) / bsize = off / bsize := by
        unfold bsize
        omega
      rcases hwrote.ended with ⟨-, hall | hnone⟩ | ⟨hlt, hstop, -⟩
      · exact hpart.2 hall
      · rw [hin] at hnone
        exact hwrote.filled off le_rfl (by omega) hnone
      · rw [Nat.add_sub_cancel_left] at hstop
        have hsome := hread tot (by omega)
        rw [hstop] at hsome
        cases hsome
    have hentry : ∀ jp, fs'.itable jp =
        if jp = ip then { fs.itable ip with d := (fs'.itable ip).d } else fs.itable jp := by
      intro jp
      rw [hwrote.itable]
      by_cases hj : jp = ip
      · subst hj
        rw [Function.update_self, if_pos rfl]
      · rw [Function.update_of_ne hj, if_neg hj]
    have hsame : ∀ jp, (fs'.itable jp).ref = (fs.itable jp).ref ∧
        (fs'.itable jp).valid = (fs.itable jp).valid ∧ (fs'.itable jp).inum = (fs.itable jp).inum := by
      intro jp
      rw [hentry]
      by_cases hj : jp = ip
      · rw [if_pos hj, hj]
        exact ⟨rfl, rfl, rfl⟩
      · rw [if_neg hj]
        exact ⟨rfl, rfl, rfl⟩
    have hframed : Framed fs ip fs' := by
      refine ⟨fun jp => (hsame jp).1, ?_, ?_, ?_, ?_⟩
      · rw [hentry, if_pos rfl]
      · rw [hentry, if_pos rfl]
      · rw [hwrote.users]
      · rw [hwrote.users]
    refine ⟨tot, fs', hwrite, hsound, hwrote.type, hframed, hsame, ?_, fun hr => ?_, fun hr => ?_⟩
    · constructor
      · intro hr
        exact ⟨hlim, hwrote.first (by omega)⟩
      · rintro ⟨-, hroom⟩
        rw [henough hread hroom]
        rfl
    · obtain rfl : tot = 16 := by omega
      refine ⟨hsize', ?_⟩
      have hbytes : (List.range 16).map (fun j => (b[j]?).getD 0) = b := by
        apply List.ext_getElem
        · simp [hb]
        · intro x hx hx'
          simp [hx']
      rw [hcontent, hbytes]
    · obtain rfl : tot = 0 := by omega
      refine ⟨by omega, ?_⟩
      rw [hcontent]
      simp

/-- `dirlink` returns -1 and changes nothing if the name is there, or if no entry is free and the directory
cannot be extended; else it adds the name to the map. -/
lemma Dir.dirlink (h : Dir fs ip m) (pid : Int) (name : List UInt8) (hinum : 0 < inum ∧ inum < 65536)
    (hlog : fs.log.block.length + maxopblocks ≤ logblocks) {kp : Fin ninode}
    (hfree : (fs.itable kp).ref = 0) :
    ∃ r fs', fs.dirlink pid ip name inum = .ok (r, fs') ∧ Framed fs ip fs' ∧ (
    (r = -1 ∧ (m (cut name) ≠ none ∨ fs.Full (fs.itable ip).d ∧ ¬ fs.Extensible (fs.itable ip).d) ∧ Dir fs' ip m ∧
      (fs'.itable ip).d.size = (fs.itable ip).d.size ∧
      fs'.content (fs'.itable ip).d = fs.content (fs.itable ip).d) ∨
    (r = 0 ∧ m (cut name) = none ∧ (¬ fs.Full (fs.itable ip).d ∨ fs.Extensible (fs.itable ip).d) ∧
      Dir fs' ip (Function.update m (cut name) (some inum)))) := by
  rcases dirlookup_map h.isDirectory h.holds name with ⟨hnone, hrun⟩ | ⟨inum', k, hsome, -, -, hrun⟩
  · have hd := h.isDirectory
    have hslot := dirlinkLoop_ok hd ((fs.itable ip).d.size / 16 + 1) 0 (Nat.lt_succ_self _) (Nat.zero_le _)
    obtain ⟨j, hj⟩ : ∃ j, j = (fs.entries (fs.itable ip).d).findIdx fun e => e.1 = 0 := ⟨_, rfl⟩
    rw [Nat.zero_add, List.drop_zero, ← hj, Nat.mul_zero] at hslot
    have hle : j ≤ (fs.itable ip).d.size / 16 := by
      rw [hj, ← length_entries fs]
      exact List.findIdx_le_length
    have hfull : fs.Full (fs.itable ip).d ↔ j = (fs.itable ip).d.size / 16 := by
      rw [hj, ← length_entries fs, List.findIdx_eq_length]
      refine forall₂_congr fun e _ => ?_
      exact (decide_eq_false_iff_not (p := e.1 = 0)).symm
    have hwhole := h.whole
    obtain ⟨w, fs', hwrite, hsound, htype, hframed, -, hiff, hdone, hfail⟩ :=
      writei_entry h.sound (length_direntOf name inum) (Nat.mul_mod_right 16 j) (by omega) hlog
    have hop : fs.dirlink pid ip name inum = .ok (if w ≠ 16 then -1 else 0, fs') := by
      unfold Fs.dirlink
      rw [hrun, ok_bind]
      dsimp only
      rw [hslot, ok_bind]
      dsimp only
      rw [hwrite, ok_bind]
      dsimp only
      split <;> rfl
    refine ⟨_, fs', hop, hframed, ?_⟩
    -- an entry that is free is in a block that is there
    have hroom : (16 * j + 16 ≤ maxfile * bsize ∧ fs.missing (fs.itable ip).d (16 * j / bsize) ≤ fs.freeCount) ↔
        ¬ fs.Full (fs.itable ip).d ∨ fs.Extensible (fs.itable ip).d := by
      rw [hfull]
      by_cases hend : j = (fs.itable ip).d.size / 16
      · have hoff : 16 * j = (fs.itable ip).d.size := by omega
        rw [hoff, Extensible]
        simp [hend]
      · exact iff_of_true (entry_fits h.sound.dense hwhole (by omega)) (Or.inl hend)
    split
    · next hne =>
      obtain ⟨hsize, hcontent⟩ := hfail hne
      have hcant := (hiff.trans hroom).not.mp hne
      rw [not_or, not_not] at hcant
      have hplace : fs'.place (fs'.itable ip).d = fs.place (fs.itable ip).d := by
        funext k
        rw [place, place, entries_eq, entries_eq, hcontent]
      refine Or.inl ⟨rfl, Or.inr hcant, ⟨hsound, ?_, ?_, ?_⟩, hsize, hcontent⟩
      · rw [htype, h.type]
      · rw [hsize, h.whole]
      · rw [hplace]
        exact h.holds
    · next hw =>
      rw [not_not] at hw
      obtain ⟨hsize, hcontent⟩ := hdone hw
      have hplace := place_put hwhole (length_direntOf name inum) (by omega) hcontent
      have hmeaning : meaning (dirent (direntOf name inum)) = some (cut name, inum) := by
        rw [dirent_direntOf hinum.2]
        exact if_neg hinum.1.ne'
      have hempty : fs.place (fs.itable ip).d j = none := by
        rcases hp : fs.place (fs.itable ip).d j with _ | v
        · rfl
        · obtain ⟨hk, hne, -⟩ := place_some.mp hp
          have hlt := hk
          rw [hj] at hlt
          have hat := List.findIdx_getElem (w := hlt)
          simp only [← hj, decide_eq_true_eq] at hat
          exact absurd hat hne
      refine Or.inr ⟨rfl, hnone, (hiff.trans hroom).mp hw, hsound, ?_, ?_, ?_⟩
      · rw [htype, h.type]
      · rw [hsize]
        omega
      · rw [hplace, hmeaning]
        exact h.holds.insert hempty hnone inum
  · obtain ⟨jp, fs₁, hget, -⟩ := iget_returns hfree (fs.itable ip).dev inum'
    have htaken := h.sound.iget hget
    obtain ⟨hput, hsound, hd⟩ := htaken.sound.iput pid htaken.shared htaken.apart
    have hop : fs.dirlink pid ip name inum = .ok (-1, fs₁.idrop jp) := by
      unfold Fs.dirlink
      rw [hrun, hget]
      change (fs₁.iput pid jp >>= fun fs => pure (-1, fs)) = _
      rw [hput]
      rfl
    have hd' := hd.trans htaken.d
    refine ⟨-1, fs₁.idrop jp, hop, htaken.framed (Framed.refl fs₁ ip), Or.inl ⟨rfl, Or.inl (by rw [hsome]; simp),
      h.congr hsound hd' htaken.disk, by rw [hd'], ?_⟩⟩
    rw [hd']
    exact List.map_congr_left fun x _ => byteAt_congr (fun _ _ => rfl) htaken.disk

/-- The removal takes the name out of the map, if it is there. -/
lemma Dir.dirunlink (h : Dir fs ip m) (pid : Int) (name : List UInt8)
    (hlog : fs.log.block.length + maxopblocks ≤ logblocks) {kp : Fin ninode}
    (hfree : (fs.itable kp).ref = 0) :
    ∃ r fs', fs.dirunlink pid ip name = .ok (r, fs') ∧ Framed fs ip fs' ∧ (
    (r = -1 ∧ m (cut name) = none ∧ fs' = fs) ∨
    (r = 0 ∧ m (cut name) ≠ none ∧ Dir fs' ip (Function.update m (cut name) none))) := by
  rcases dirlookup_map h.isDirectory h.holds name with ⟨hnone, hrun⟩ | ⟨inum', k, hsome, hplace, hlt, hrun⟩
  · refine ⟨-1, fs, ?_, Framed.refl fs ip, Or.inl ⟨rfl, hnone, rfl⟩⟩
    unfold Fs.dirunlink
    rw [hrun]
    rfl
  · obtain ⟨jp, fs₁, hget, -⟩ := iget_returns hfree (fs.itable ip).dev inum'
    have htaken := h.sound.iget hget
    have h₁ : Dir fs₁ ip m := h.congr htaken.sound htaken.d htaken.disk
    have hzeros : (List.replicate 16 (0 : UInt8)).length = 16 := rfl
    have hwhole := h₁.whole
    rw [← htaken.d] at hlt
    rw [← htaken.log] at hlog
    obtain ⟨w, fs₂, hwrite, hsound, htype, hframed, hsame, hiff, hdone, -⟩ :=
      writei_entry htaken.sound hzeros (Nat.mul_mod_right 16 k) hlt.le hlog
    -- the block with the entry is there
    have hw : w = 16 := hiff.mpr (entry_fits htaken.sound.dense hwhole hlt)
    obtain ⟨hsize, hcontent⟩ := hdone hw
    have hplace' := place_put hwhole hzeros hlt.le hcontent
    obtain ⟨href, hvalid, hinum⟩ := hsame jp
    obtain ⟨hput, hsound', hd'⟩ := hsound.iput pid (by rw [href, hvalid]; exact htaken.shared)
      (by rw [hinum, (hsame ip).2.2]; exact htaken.apart)
    have hop : fs.dirunlink pid ip name = .ok (0, fs₂.idrop jp) := by
      unfold Fs.dirunlink
      rw [hrun, hget]
      change (fs₁.writei ip _ (16 * k) 16 >>= fun x =>
        if x.1 ≠ 16 then throw (.panic .unlinkWritei) else x.2.iput pid jp >>= fun fs => pure (0, fs)) = _
      rw [hwrite, ok_bind, if_neg (not_not_intro hw), hput]
      rfl
    have h₂ : Dir fs₂ ip (Function.update m (cut name) none) := by
      refine ⟨hsound, ?_, ?_, ?_⟩
      · rw [htype, h₁.type]
      · rw [hsize]
        omega
      · rw [hplace']
        have hheld : fs₁.place (fs₁.itable ip).d k = some (cut name, inum') := by
          rw [htaken.place]
          exact hplace
        exact h₁.holds.erase hheld
    exact ⟨0, fs₂.idrop jp, hop, htaken.framed hframed, Or.inr ⟨rfl, by rw [hsome]; simp, h₂.congr hsound' hd' rfl⟩⟩

end Fs

end FogOS.Kernel
