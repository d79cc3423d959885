import FogOS.Kernel.Files

/-!
# Writing a file in several transactions

`filewrite` of `kernel/file.c` splits what it writes so that every part fits what `begin_op` reserves in
the log. No other process comes between the parts.
-/

namespace FogOS.Kernel

open ByteMem

namespace Fs

variable {fs fs' fs'' : Fs} {ip : Fin ninode} {src : Nat → Option UInt8} {off n m : Nat} {pid r : Int}

/-! ### `filewrite` -/

/-- The `max` of `filewrite`. -/
def maxWrite : Nat := (maxopblocks - 1 - 1 - 2) / 2 * bsize

/-- The body of the loop of `filewrite`, up to `end_op`. -/
def writeChunk (fs : Fs) (pid : Int) (ip : Fin ninode) (src : Nat → Option UInt8) (off n : Nat) : Except Stop (Int × Fs) := do
  let fs ← fs.beginOp
  let fs ← fs.ilock pid ip
  let (r, fs) ← fs.writei ip src off n
  let fs ← fs.iunlock pid ip
  let fs ← fs.endOp
  pure (r, fs)

/-- The loop of `filewrite`: `i` and `f->off` at its end. Every round but the last writes at least one byte. -/
def filewriteLoop (pid : Int) (ip : Fin ninode) (src : Nat → Option UInt8) (n : Nat) :
    Nat → Fs → Nat → Nat → Except Stop (Nat × Nat × Fs)
  | 0, fs, i, off => pure (i, off, fs)
  | fuel + 1, fs, i, off =>
    if n ≤ i then pure (i, off, fs)
    else do
      let n1 := min (n - i) maxWrite
      let (r, fs) ← fs.writeChunk pid ip (fun j => src (i + j)) off n1
      let off := if 0 < r then u32 (off + r.toNat) else off
      if r ≠ n1 then pure (i, off, fs)
      else filewriteLoop pid ip src n fuel fs (i + n1) off

/-- Write to a file that is an inode: the number of bytes written or -1, and the new `f->off`. -/
def filewrite (fs : Fs) (pid : Int) (writable : Bool) (ip : Fin ninode) (off : Nat) (src : Nat → Option UInt8) (n : Int) :
    Except Stop (Int × Nat × Fs) :=
  if !writable then pure (-1, off, fs)
  else do
    let (i, off, fs) ← filewriteLoop pid ip src n.toNat n.toNat fs 0 off
    pure (if (i : Int) = n then n else -1, off, fs)

/-! ### Locks and the log -/

/-- The file systems differ at most in their locks and logs. -/
structure Alike (fs fs' : Fs) : Prop where
  sb : fs'.sb = fs.sb
  dinode : fs'.dinode = fs.dinode
  bitmap : fs'.bitmap = fs.bitmap
  block : fs'.block = fs.block
  itable : ∀ jp, (fs'.itable jp).ref = (fs.itable jp).ref ∧ (fs'.itable jp).valid = (fs.itable jp).valid ∧
    (fs'.itable jp).inum = (fs.itable jp).inum ∧ (fs'.itable jp).d = (fs.itable jp).d

lemma Alike.trans (h : Alike fs fs') (h' : Alike fs' fs'') : Alike fs fs'' := by
  refine ⟨h'.sb.trans h.sb, h'.dinode.trans h.dinode, h'.bitmap.trans h.bitmap, h'.block.trans h.block, fun jp => ?_⟩
  obtain ⟨href, hvalid, hinum, hd⟩ := h.itable jp
  obtain ⟨href', hvalid', hinum', hd'⟩ := h'.itable jp
  exact ⟨href'.trans href, hvalid'.trans hvalid, hinum'.trans hinum, hd'.trans hd⟩

lemma Alike.inode (h : Alike fs fs') : fs'.inode = fs.inode := by
  funext j
  have hfind : ((List.finRange ninode).find? fun jp =>
      0 < (fs'.itable jp).ref ∧ (fs'.itable jp).valid ∧ (fs'.itable jp).inum = j) =
      (List.finRange ninode).find? fun jp => 0 < (fs.itable jp).ref ∧ (fs.itable jp).valid ∧ (fs.itable jp).inum = j := by
    congr
    funext jp
    rw [(h.itable jp).1, (h.itable jp).2.1, (h.itable jp).2.2.1]
  unfold Fs.inode
  rw [hfind]
  split
  · next jp _ => exact (h.itable jp).2.2.2
  · exact congrFun h.dinode j

lemma Alike.content (h : Alike fs fs') (d : Dinode) : fs'.content d = fs.content d :=
  List.map_congr_left fun _ _ => byteAt_congr (fun _ _ => rfl) h.block

lemma Alike.owned (h : Alike fs fs') (howned : Owned fs fs.inode) : Owned fs' fs'.inode := by
  refine howned.congr h.sb h.bitmap ?_
  rw [h.inode]
  exact loc_congr (fun _ => rfl) (fun _ _ _ => rfl) h.block

lemma Alike.fileBlock {d : Dinode} (h : Alike fs fs') (bn : Nat) : fs'.fileBlock d bn = fs.fileBlock d bn :=
  slot_congr (fun _ _ => rfl) fun _ => by rw [h.block]

lemma Alike.dense {d : Dinode} (h : Alike fs fs') (hdense : Dense fs d) : Dense fs' d := by
  refine ⟨hdense.size, fun bn hbn => ?_⟩
  rw [h.fileBlock]
  exact hdense.blocks bn hbn

lemma Alike.needed {d : Dinode} (h : Alike fs fs') (lo hi : Nat) : fs'.needed d lo hi = fs.needed d lo hi := by
  unfold Fs.needed
  simp only [h.fileBlock]

lemma Alike.freeCount (h : Alike fs fs') : fs'.freeCount = fs.freeCount := by
  unfold Fs.freeCount
  rw [h.sb, h.bitmap]

/-- A file that is in use, between two calls. -/
structure Settled (fs : Fs) (ip : Fin ninode) : Prop where
  owned : Owned fs fs.inode
  live : Live fs ip
  type : (fs.itable ip).d.type ≠ 0
  dense : Dense fs (fs.itable ip).d
  outstanding : 0 ≤ fs.log.outstanding
  nodup : fs.log.block.Nodup

lemma Alike.settled (h : Alike fs fs') (hs : Settled fs ip) (hout : 0 ≤ fs'.log.outstanding) (hnodup : fs'.log.block.Nodup) :
    Settled fs' ip := by
  have hd := (h.itable ip).2.2.2
  refine ⟨h.owned hs.owned, hs.live.congr fun jp => ?_, ?_, ?_, hout, hnodup⟩
  · obtain ⟨href, hvalid, hinum, -⟩ := h.itable jp
    exact ⟨href, hvalid, hinum⟩
  · rw [hd]
    exact hs.type
  · rw [hd]
    exact h.dense hs.dense

lemma Settled.sound (h : Settled fs ip) (hout : 1 ≤ fs.log.outstanding) : Sound fs ip :=
  ⟨h.owned, h.live, h.type, h.dense, hout, h.nodup⟩

lemma beginOp_alike (h : fs.beginOp = .ok fs') :
    Alike fs fs' ∧ fs'.itable = fs.itable ∧ fs'.log = { fs.log with outstanding := fs.log.outstanding + 1 } ∧
      (fs.log.block.length : Int) + (fs.log.outstanding + 1) * maxopblocks ≤ logblocks := by
  unfold beginOp at h
  obtain ⟨hcommit, h⟩ := guard_ok h
  obtain ⟨hroom, h⟩ := guard_ok h
  obtain rfl := pure_ok h
  exact ⟨⟨rfl, rfl, rfl, rfl, fun jp => ⟨rfl, rfl, rfl, rfl⟩⟩, rfl, rfl, by omega⟩

/-- The lock of an entry changes. -/
lemma setInode_alike {v : Inode} (href : v.ref = (fs.itable ip).ref) (hvalid : v.valid = (fs.itable ip).valid)
    (hinum : v.inum = (fs.itable ip).inum) (hd : v.d = (fs.itable ip).d) : Alike fs (fs.setInode ip v) := by
  refine ⟨rfl, rfl, rfl, rfl, fun jp => ?_⟩
  unfold setInode
  dsimp only
  by_cases hjp : jp = ip
  · rw [hjp, Function.update_self]
    exact ⟨href, hvalid, hinum, hd⟩
  · rw [Function.update_of_ne hjp]
    exact ⟨rfl, rfl, rfl, rfl⟩

lemma ilock_alike (hvalid : (fs.itable ip).valid = true) (h : fs.ilock pid ip = .ok fs') : Alike fs fs' ∧ fs'.log = fs.log := by
  unfold ilock at h
  obtain ⟨-, h⟩ := guard_ok h
  obtain ⟨fs1, hacquire, h⟩ := bind_ok h
  unfold acquiresleep at hacquire
  obtain ⟨-, hacquire⟩ := guard_ok hacquire
  obtain rfl := pure_ok hacquire
  have hvalid' : ((fs.setInode ip { fs.itable ip with locked := true, lockPid := pid }).itable ip).valid = true := by
    simp [setInode, hvalid]
  rw [if_pos hvalid'] at h
  obtain rfl := pure_ok h
  exact ⟨setInode_alike rfl rfl rfl rfl, rfl⟩

lemma iunlock_alike (h : fs.iunlock pid ip = .ok fs') : Alike fs fs' ∧ fs'.log = fs.log := by
  unfold iunlock at h
  obtain ⟨-, h⟩ := guard_ok h
  obtain rfl := pure_ok h
  exact ⟨setInode_alike rfl rfl rfl rfl, rfl⟩

lemma endOp_alike (h : fs.endOp = .ok fs') : Alike fs fs' ∧ fs'.log.outstanding = fs.log.outstanding - 1 ∧
    (fs'.log.block = [] ∨ fs'.log.block = fs.log.block) := by
  unfold endOp at h
  obtain ⟨-, h⟩ := guard_ok h
  dsimp only at h
  split at h
  · obtain rfl := pure_ok h
    exact ⟨⟨rfl, rfl, rfl, rfl, fun jp => ⟨rfl, rfl, rfl, rfl⟩⟩, rfl, Or.inl rfl⟩
  · obtain rfl := pure_ok h
    exact ⟨⟨rfl, rfl, rfl, rfl, fun jp => ⟨rfl, rfl, rfl, rfl⟩⟩, rfl, Or.inr rfl⟩

/-! ### One part -/

/-- In the file the bytes from `off` on have become the first `n` of the source; all other files are as before. -/
structure Put (fs : Fs) (ip : Fin ninode) (off n : Nat) (src : Nat → Option UInt8) (fs' : Fs) : Prop where
  inum : (fs'.itable ip).inum = (fs.itable ip).inum
  type : (fs'.itable ip).d.type = (fs.itable ip).d.type
  nlink : (fs'.itable ip).d.nlink = (fs.itable ip).d.nlink
  content : fs'.content (fs'.itable ip).d = (fs.content (fs.itable ip).d).take off ++
    (List.range n).map (fun j => (src j).getD 0) ++ (fs.content (fs.itable ip).d).drop (off + n)
  others : ∀ j, j ≠ (fs.itable ip).inum → (fs.inode j).type ≠ 0 →
    fs'.inode j = fs.inode j ∧ fs'.content (fs'.inode j) = fs.content (fs.inode j)

lemma Put.refl (fs : Fs) (ip : Fin ninode) (off : Nat) (src : Nat → Option UInt8) : Put fs ip off 0 src fs := by
  refine ⟨rfl, rfl, rfl, ?_, fun _ _ _ => ⟨rfl, rfl⟩⟩
  simp

lemma Put.congr (h : Put fs ip off n src fs') {fs1 fs1' : Fs} (ha : Alike fs1 fs) (ha' : Alike fs' fs1') :
    Put fs1 ip off n src fs1' := by
  obtain ⟨hinum, htype, hnlink, hcontent, hothers⟩ := h
  obtain ⟨-, -, hi, hd⟩ := ha.itable ip
  obtain ⟨-, -, hi', hd'⟩ := ha'.itable ip
  rw [hi] at hinum hothers
  rw [hd] at htype hnlink hcontent
  rw [ha.inode] at hothers
  simp only [ha.content] at hcontent hothers
  refine ⟨hi'.trans hinum, ?_, ?_, ?_, fun j hj ht => ?_⟩
  · rw [hd', htype]
  · rw [hd', hnlink]
  · rw [hd', ha'.content, hcontent]
  · rw [ha'.inode, ha'.content]
    exact hothers j hj ht

/-- Two parts, the second right behind the first. -/
lemma Put.trans (h : Put fs ip off n src fs') (h' : Put fs' ip (off + n) m (fun j => src (n + j)) fs'')
    (hoff : off ≤ (fs.itable ip).d.size) : Put fs ip off (n + m) src fs'' := by
  obtain ⟨hinum, htype, hnlink, hcontent, hothers⟩ := h'
  refine ⟨hinum.trans h.inum, htype.trans h.type, hnlink.trans h.nlink, ?_, fun j hj ht => ?_⟩
  · obtain ⟨old, hold⟩ : ∃ old, old = fs.content (fs.itable ip).d := ⟨_, rfl⟩
    obtain ⟨bytes, hbytes⟩ : ∃ bytes, bytes = (List.range n).map fun j => (src j).getD 0 := ⟨_, rfl⟩
    have hlen : (old.take off ++ bytes).length = off + n := by
      rw [hold, hbytes]
      simpa using hoff
    have hfirst : (old.take off ++ bytes ++ old.drop (off + n)).take (off + n) = old.take off ++ bytes :=
      List.take_left' hlen
    have hrest : (old.take off ++ bytes ++ old.drop (off + n)).drop (off + n + m) = old.drop (off + (n + m)) := by
      rw [← List.drop_drop, List.drop_left' hlen, List.drop_drop, Nat.add_assoc]
    rw [hcontent, h.content, ← hold, ← hbytes, hfirst, hrest, List.range_add, List.map_append, List.map_map, ← hbytes]
    simp only [List.append_assoc, Function.comp_def]
  · obtain ⟨hinode, hsame⟩ := h.others j hj ht
    obtain ⟨hinode', hsame'⟩ := hothers j (by rwa [h.inum]) (by rwa [hinode])
    exact ⟨hinode'.trans hinode, hsame'.trans hsame⟩

lemma Wrote.put (h : Wrote fs ip off n src n (off + n) fs') (hoff : off ≤ (fs.itable ip).d.size) : Put fs ip off n src fs' := by
  refine ⟨?_, h.type, h.nlink, h.content hoff, fun j hj ht => h.content_of_ne hj ht⟩
  rw [h.itable, Function.update_self]

/-- What a successful `writei` does: it stays within the limits, the source can be read, and everything is
written. -/
lemma writei_put (h : Sound fs ip) (hoff : off < 2 ^ 32) (hn : n < 2 ^ 32) (hwrite : fs.writei ip src off n = .ok ((n : Int), fs')) :
    off ≤ (fs.itable ip).d.size ∧ off + n ≤ maxfile * bsize ∧ (∀ j < n, (src j).isSome) ∧ Put fs ip off n src fs' := by
  have hlimits : ¬ ((fs.itable ip).d.size < off ∨ maxfile * bsize < off + n) := by
    intro hout
    rw [writei_rejects hoff hn hout] at hwrite
    have hr := (Prod.mk.inj (Except.ok.inj hwrite)).1
    omega
  rw [not_or, not_lt, not_lt] at hlimits
  obtain ⟨tot, hi, fs1, L, hgives, hwrote, -⟩ := writei_ok h.owned h.live h.type h.opened src hlimits.1 hlimits.2
    (marks_of_bitmapBlocks (Finset.Subset.refl _) _) le_rfl
  obtain ⟨htot, rfl⟩ := Prod.mk.inj (hgives.unique hwrite)
  obtain rfl : n = tot := Int.ofNat.inj htot
  obtain rfl : hi = off + n := le_antisymm hwrote.hi_le hwrote.le_hi
  exact ⟨hlimits.1, hlimits.2, fun j hj => hwrote.source j (by omega), hwrote.put hlimits.1⟩

/-- The file stays what it is when `writei` has returned, whatever it returns. -/
lemma writei_sound (h : Sound fs ip) (hoff : off < 2 ^ 32) (hn : n < 2 ^ 32) (hwrite : fs.writei ip src off n = .ok (r, fs')) :
    Sound fs' ip ∧ fs'.log.outstanding = fs.log.outstanding := by
  by_cases hlimits : (fs.itable ip).d.size < off ∨ maxfile * bsize < off + n
  · rw [writei_rejects hoff hn hlimits] at hwrite
    obtain rfl := (Prod.mk.inj (Except.ok.inj hwrite)).2
    exact ⟨h, rfl⟩
  · rw [not_or, not_lt, not_lt] at hlimits
    obtain ⟨tot, hi, fs1, L, hgives, hwrote, -, -, hopen, -⟩ := writei_ok h.owned h.live h.type h.opened src hlimits.1
      hlimits.2 (marks_of_bitmapBlocks (Finset.Subset.refl _) _) le_rfl
    obtain ⟨-, rfl⟩ := Prod.mk.inj (hgives.unique hwrite)
    refine ⟨⟨hwrote.owned, hwrote.live, ?_, hwrote.dense h.dense hlimits.1 hlimits.2, hopen⟩, ?_⟩
    · rw [hwrote.type]
      exact h.type
    · rw [hwrote.users]

/-! ### What a part takes of the log -/

/-- At most three new blocks, and a new indirect block, unless four blocks are written to and the first of them
is there. -/
lemma touched_add_needed_le {d : Dinode} (h : Dense fs d) (hoff : off ≤ d.size) (hn : n ≤ maxWrite) :
    touched off (off + n) + fs.needed d off (off + n) ≤ 8 := by
  have hmax : n ≤ 3 * bsize := hn
  have hsub : ((Finset.range maxfile).filter fun bn => off / bsize ≤ bn ∧ bn * bsize < off + n ∧ fs.fileBlock d bn = 0) ⊆
      Finset.Ico ((off + bsize - 1) / bsize) ((off + n + bsize - 1) / bsize) := by
    intro bn hbn
    obtain ⟨-, -, hbelow, hnone⟩ := Finset.mem_filter.mp hbn
    have hbehind : d.size ≤ bn * bsize := by
      by_contra hlt
      exact h.blocks bn (not_le.mp hlt) hnone
    rw [Finset.mem_Ico]
    unfold bsize at hbelow hbehind ⊢
    omega
  have hcard := Finset.card_le_card hsub
  rw [Nat.card_Ico] at hcard
  have hnew : (off + n + bsize - 1) / bsize - (off + bsize - 1) / bsize ≤ 3 := by
    unfold bsize at hmax ⊢
    omega
  have htouched : touched off (off + n) ≤ 4 := by
    unfold touched
    unfold bsize at hmax ⊢
    split <;> omega
  have hind : (if ndirect * bsize < off + n ∧ d.addrs ndirect = 0 then 1 else 0) ≤ 1 := by
    split <;> omega
  unfold needed
  omega

/-- One part fits what `begin_op` has reserved. -/
lemma writei_fits (src : Nat → Option UInt8) (h : Sound fs ip) (hoff : off ≤ (fs.itable ip).d.size) (hn : n ≤ maxWrite) (hmax : off + n ≤ maxfile * bsize)
    (hroom : fs.log.block.length + maxopblocks ≤ logblocks) :
    ∃ r fs', fs.writei ip src off n = .ok (r, fs') ∧ fs'.log.block.length ≤ fs.log.block.length + maxopblocks := by
  have hcount := touched_add_needed_le h.dense hoff hn
  obtain ⟨B, hmarks, hcard⟩ := fs.exists_marks (fs.needed (fs.itable ip).d off (off + n))
  obtain ⟨tot, hi, fs', L, hgives, -, -, hL, -, hlen⟩ := writei_ok h.owned h.live h.type h.opened src hoff hmax hmarks le_rfl
  unfold maxopblocks at hroom ⊢
  exact ⟨tot, fs', hgives.eq_ok (by omega), by omega⟩

/-- Nobody is in a transaction. -/
structure Idle (fs : Fs) : Prop where
  outstanding : fs.log.outstanding = 0
  committing : fs.log.committing = false
  block : fs.log.block = []

lemma Idle.beginOp (h : Idle fs) : fs.beginOp = .ok { fs with log := ⟨1, false, []⟩ } := by
  obtain ⟨sb, dinode, bitmap, block, itable, ⟨outstanding, committing, blocks⟩⟩ := fs
  obtain rfl : outstanding = 0 := h.outstanding
  obtain rfl : committing = false := h.committing
  obtain rfl : blocks = [] := h.block
  rfl

/-- The last one to leave commits. -/
lemma endOp_last (hout : fs.log.outstanding = 1) (hcommit : fs.log.committing = false) :
    fs.endOp = .ok { fs with log := ⟨0, false, []⟩ } := by
  obtain ⟨sb, dinode, bitmap, block, itable, ⟨outstanding, committing, blocks⟩⟩ := fs
  obtain rfl : outstanding = 1 := hout
  obtain rfl : committing = false := hcommit
  rfl

lemma ilock_free (href : 0 < (fs.itable ip).ref) (hfree : (fs.itable ip).locked = false) (hvalid : (fs.itable ip).valid = true)
    (pid : Int) : fs.ilock pid ip = .ok (fs.setInode ip { fs.itable ip with locked := true, lockPid := pid }) := by
  have hvalid' : ((fs.setInode ip { fs.itable ip with locked := true, lockPid := pid }).itable ip).valid = true := by
    simp [setInode, hvalid]
  unfold ilock acquiresleep
  rw [if_neg (by omega), hfree, if_neg Bool.false_ne_true]
  exact if_pos hvalid'

lemma iunlock_held (href : 0 < (fs.itable ip).ref) (hlocked : (fs.itable ip).locked = true) (hpid : (fs.itable ip).lockPid = pid) :
    fs.iunlock pid ip = .ok (fs.releasesleep ip) := by
  unfold iunlock holdingsleep
  rw [hlocked, hpid, if_neg]
  · rfl
  · simp
    omega

/-- A part is written in full, and the blocks that it has taken are not missing any more. -/
structure Paid (fs : Fs) (ip : Fin ninode) (off n : Nat) (r : Int) (fs' : Fs) : Prop where
  full : r = n
  budget : ∀ top, off + n ≤ top → top ≤ maxfile * bsize →
    fs'.needed (fs'.itable ip).d (off + n) top + fs.freeCount ≤
      fs.needed (fs.itable ip).d off top + fs'.freeCount

lemma Paid.congr (h : Paid fs ip off n r fs') {fs1 fs1' : Fs} (ha : Alike fs1 fs) (ha' : Alike fs' fs1') :
    Paid fs1 ip off n r fs1' := by
  refine ⟨h.full, fun top hle htop => ?_⟩
  have hpaid := h.budget top hle htop
  rwa [ha.needed, (ha.itable ip).2.2.2, ha.freeCount, ← ha'.needed, ← ha'.freeCount,
    ← (ha'.itable ip).2.2.2] at hpaid

/-- Where nobody else is in a transaction or holds the lock, a part gets done, with enough free blocks and a
source that can be read in full. -/
lemma writeChunk_returns (pid : Int) (src : Nat → Option UInt8) (h : Settled fs ip) (hidle : Idle fs)
    (hfree : (fs.itable ip).locked = false) (hoff : off < 2 ^ 32) (hn : n ≤ maxWrite) :
    ∃ r fs', fs.writeChunk pid ip src off n = .ok (r, fs') ∧ Idle fs' ∧ (fs'.itable ip).locked = false ∧
      (off ≤ (fs.itable ip).d.size → off + n ≤ maxfile * bsize → (∀ j < n, (src j).isSome) →
        fs.needed (fs.itable ip).d off (off + n) ≤ fs.freeCount → Paid fs ip off n r fs') := by
  obtain ⟨fs1, hfs1⟩ : ∃ fs1 : Fs, fs1 = { fs with log := ⟨1, false, []⟩ } := ⟨_, rfl⟩
  have hbegin : fs.beginOp = .ok fs1 := by rw [hidle.beginOp, hfs1]
  have hentry : fs1.itable ip = fs.itable ip := by rw [hfs1]
  obtain ⟨fs2, hfs2⟩ : ∃ fs2, fs2 = fs1.setInode ip { fs1.itable ip with locked := true, lockPid := pid } := ⟨_, rfl⟩
  have hlock : fs1.ilock pid ip = .ok fs2 := by
    rw [hfs2]
    exact ilock_free (hentry ▸ h.live.ref) (hentry ▸ hfree) (hentry ▸ h.live.valid) pid
  have hlog : fs2.log = ⟨1, false, []⟩ := by
    rw [hfs2, hfs1]
    rfl
  have hheld : (fs2.itable ip).locked = true ∧ (fs2.itable ip).lockPid = pid := by
    rw [hfs2]
    simp [setInode]
  have halike : Alike fs fs2 := (beginOp_alike hbegin).1.trans (ilock_alike (hentry ▸ h.live.valid) hlock).1
  have hsound : Sound fs2 ip := by
    have hsettled : Settled fs2 ip := halike.settled h (by rw [hlog]; decide) (by rw [hlog]; exact List.nodup_nil)
    exact hsettled.sound (by rw [hlog])
  -- also where it writes nothing, the lock is still held
  obtain ⟨r, fs3, hwrite, hlog3, hheld3, href3, hpaid⟩ : ∃ r fs3, fs2.writei ip src off n = .ok (r, fs3) ∧
      (fs3.log.outstanding = 1 ∧ fs3.log.committing = false) ∧
      ((fs3.itable ip).locked = true ∧ (fs3.itable ip).lockPid = pid) ∧ 0 < (fs3.itable ip).ref ∧
      (off ≤ (fs2.itable ip).d.size → off + n ≤ maxfile * bsize → (∀ j < n, (src j).isSome) →
        fs2.needed (fs2.itable ip).d off (off + n) ≤ fs2.freeCount → Paid fs2 ip off n r fs3) := by
    have hn' : n < 2 ^ 32 := lt_of_le_of_lt hn (by decide)
    by_cases hlimits : (fs2.itable ip).d.size < off ∨ maxfile * bsize < off + n
    · exact ⟨-1, _, writei_rejects hoff hn' hlimits, by rw [hlog]; exact ⟨rfl, rfl⟩, hheld, hsound.live.ref,
        fun hsize hmax _ _ => by omega⟩
    · rw [not_or, not_lt, not_lt] at hlimits
      obtain ⟨tot, hi, fs3, L, hgives, hwrote, henough, -⟩ := writei_ok hsound.owned hsound.live hsound.type hsound.opened src
        hlimits.1 hlimits.2 (marks_of_bitmapBlocks (Finset.Subset.refl _) _) le_rfl
      obtain ⟨r, fs3', hwrite, -⟩ := writei_fits src hsound hlimits.1 hn hlimits.2 (by rw [hlog]; decide)
      obtain ⟨rfl, rfl⟩ := Prod.mk.inj (hgives.unique hwrite)
      refine ⟨_, fs3', hwrite, ?_, ?_, hwrote.live.ref, fun _ _ hread hblocks => ?_⟩
      · rw [hwrote.users, hlog]
        exact ⟨rfl, rfl⟩
      · rw [hwrote.itable, Function.update_self]
        exact hheld
      · have hall := henough hread hblocks
        exact ⟨by rw [hall], hwrote.budget hall⟩
  have hunlock : fs3.iunlock pid ip = .ok (fs3.releasesleep ip) := iunlock_held href3 hheld3.1 hheld3.2
  have hend : (fs3.releasesleep ip).endOp = .ok { fs3.releasesleep ip with log := ⟨0, false, []⟩ } :=
    endOp_last hlog3.1 hlog3.2
  have halike' : Alike fs3 { fs3.releasesleep ip with log := ⟨0, false, []⟩ } :=
    (iunlock_alike hunlock).1.trans (endOp_alike hend).1
  refine ⟨r, { fs3.releasesleep ip with log := ⟨0, false, []⟩ }, ?_, ⟨rfl, rfl, rfl⟩, ?_,
    fun hsize hmax hread hblocks => ?_⟩
  · unfold writeChunk
    rw [hbegin, ok_bind, hlock, ok_bind, hwrite, ok_bind]
    dsimp only
    rw [hunlock, ok_bind, hend]
    rfl
  · simp [releasesleep, setInode]
  · refine (hpaid ?_ hmax hread ?_).congr halike halike'
    · rwa [(halike.itable ip).2.2.2]
    · rwa [halike.needed, (halike.itable ip).2.2.2, halike.freeCount]

/-! ### All parts -/

lemma writeChunk_put (h : Settled fs ip) (hoff : off < 2 ^ 32) (hn : n < 2 ^ 32)
    (hchunk : fs.writeChunk pid ip src off n = .ok (r, fs')) :
    Settled fs' ip ∧ (r = n → off ≤ (fs.itable ip).d.size ∧ off + n ≤ maxfile * bsize ∧ (∀ j < n, (src j).isSome) ∧
      Put fs ip off n src fs') := by
  unfold writeChunk at hchunk
  obtain ⟨fs1, hbegin, hchunk⟩ := bind_ok hchunk
  obtain ⟨fs2, hlock, hchunk⟩ := bind_ok hchunk
  obtain ⟨⟨r', fs3⟩, hwrite, hchunk⟩ := bind_ok hchunk
  obtain ⟨fs4, hunlock, hchunk⟩ := bind_ok hchunk
  obtain ⟨fs5, hend, hchunk⟩ := bind_ok hchunk
  obtain ⟨rfl, rfl⟩ := Prod.mk.inj (pure_ok hchunk)
  obtain ⟨halike1, htable, hlog1, -⟩ := beginOp_alike hbegin
  obtain ⟨halike2, hlog2⟩ := ilock_alike (htable ▸ h.live.valid) hlock
  obtain ⟨halike4, hlog4⟩ := iunlock_alike hunlock
  obtain ⟨halike5, hout5, hblock5⟩ := endOp_alike hend
  have halike := halike1.trans halike2
  have hlog : fs2.log = { fs.log with outstanding := fs.log.outstanding + 1 } := hlog2.trans hlog1
  have hout := h.outstanding
  have hout2 : fs2.log.outstanding = fs.log.outstanding + 1 := by rw [hlog]
  have hsound : Sound fs2 ip := by
    refine (halike.settled h (by omega) ?_).sound (by omega)
    rw [hlog]
    exact h.nodup
  obtain ⟨hsound3, hout3⟩ := writei_sound hsound hoff hn hwrite
  have halike' := halike4.trans halike5
  have hsettled3 : Settled fs3 ip :=
    ⟨hsound3.owned, hsound3.live, hsound3.type, hsound3.dense, by omega, hsound3.opened.nodup⟩
  rw [hlog4] at hout5 hblock5
  refine ⟨halike'.settled hsettled3 (by omega) ?_, ?_⟩
  · rcases hblock5 with hempty | hsame
    · rw [hempty]
      exact List.nodup_nil
    · rw [hsame]
      exact hsound3.opened.nodup
  · rintro rfl
    obtain ⟨hsize, hmax, hread, hput⟩ := writei_put hsound hoff hn hwrite
    rw [(halike.itable ip).2.2.2] at hsize
    exact ⟨hsize, hmax, hread, hput.congr halike halike'⟩

lemma filewriteLoop_put {fuel off' : Nat} : ∀ {fs : Fs} {i off : Nat}, Settled fs ip → off < 2 ^ 32 → n < 2 ^ 31 → i ≤ n →
    filewriteLoop pid ip src n fuel fs i off = .ok (n, off', fs') →
    Settled fs' ip ∧ Put fs ip off (n - i) (fun j => src (i + j)) fs' ∧ off' = off + (n - i) := by
  induction fuel with
  | zero =>
    intro fs i off h hoff hn hi hloop
    obtain ⟨rfl, hrest⟩ := Prod.mk.inj (pure_ok hloop)
    obtain ⟨rfl, rfl⟩ := Prod.mk.inj hrest
    rw [Nat.sub_self]
    exact ⟨h, Put.refl _ _ _ _, rfl⟩
  | succ fuel ih =>
    intro fs i off h hoff hn hi hloop
    rw [filewriteLoop] at hloop
    by_cases hdone : n ≤ i
    · rw [if_pos hdone] at hloop
      obtain ⟨rfl, hrest⟩ := Prod.mk.inj (pure_ok hloop)
      obtain ⟨rfl, rfl⟩ := Prod.mk.inj hrest
      rw [Nat.sub_self]
      exact ⟨h, Put.refl _ _ _ _, rfl⟩
    rw [if_neg hdone] at hloop
    obtain ⟨m, hm⟩ : ∃ m, m = min (n - i) maxWrite := ⟨_, rfl⟩
    dsimp only at hloop
    rw [← hm] at hloop
    obtain ⟨⟨r, fs1⟩, hchunk, hloop⟩ := bind_ok hloop
    dsimp only at hloop
    obtain ⟨hsettled, hput⟩ := writeChunk_put h hoff (by omega) hchunk
    by_cases hr : r = m
    · obtain ⟨hsize, hmax, -, hput⟩ := hput hr
      have hpos : 0 < m := by
        have : 0 < maxWrite := by decide
        omega
      have hfit : off + m < 2 ^ 32 := lt_of_le_of_lt hmax (by decide)
      have hnext : (if 0 < r then u32 (off + r.toNat) else off) = off + m := by
        rw [if_pos (by omega), hr]
        exact Nat.mod_eq_of_lt hfit
      rw [if_neg (not_not_intro hr), hnext] at hloop
      obtain ⟨hsettled', hput', hoff'⟩ := ih hsettled hfit hn (by omega) hloop
      have hsplit : n - i = m + (n - (i + m)) := by omega
      rw [hsplit]
      simp only [Nat.add_assoc] at hput'
      exact ⟨hsettled', hput.trans hput' hsize, by omega⟩
    · rw [if_pos hr] at hloop
      have hin := (Prod.mk.inj (pure_ok hloop)).1
      omega

lemma filewriteLoop_returns (pid : Int) (src : Nat → Option UInt8) (n : Nat) {fuel : Nat} : ∀ {fs : Fs} {i off : Nat}, Settled fs ip → Idle fs → (fs.itable ip).locked = false →
    off < 2 ^ 32 → ∃ i' off' fs', filewriteLoop pid ip src n fuel fs i off = .ok (i', off', fs') := by
  induction fuel with
  | zero =>
    intro fs i off _ _ _ _
    exact ⟨i, off, fs, rfl⟩
  | succ fuel ih =>
    intro fs i off h hidle hfree hoff
    rw [filewriteLoop]
    by_cases hdone : n ≤ i
    · rw [if_pos hdone]
      exact ⟨i, off, fs, rfl⟩
    have hm : min (n - i) maxWrite ≤ maxWrite := min_le_right _ _
    obtain ⟨r, fs1, hchunk, hidle1, hfree1, -⟩ := writeChunk_returns pid (fun j => src (i + j)) h hidle hfree hoff hm
    have hsettled := (writeChunk_put h hoff (lt_of_le_of_lt hm (by decide)) hchunk).1
    rw [if_neg hdone]
    dsimp only
    rw [hchunk, ok_bind]
    dsimp only
    by_cases hr : r = (min (n - i) maxWrite : Nat)
    · rw [if_neg (not_not_intro hr)]
      refine ih hsettled hidle1 hfree1 ?_
      split
      · exact Nat.mod_lt _ (by decide)
      · exact hoff
    · rw [if_pos hr]
      exact ⟨i, _, fs1, rfl⟩

lemma needed_mono {d : Dinode} {lo hi hi' : Nat} (hle : hi ≤ hi') : fs.needed d lo hi ≤ fs.needed d lo hi' := by
  have hblocks := Finset.card_le_card (Finset.monotone_filter_right (Finset.range maxfile)
    fun bn _ (h : lo / bsize ≤ bn ∧ bn * bsize < hi ∧ fs.fileBlock d bn = 0) =>
      (⟨h.1, h.2.1.trans_le hle, h.2.2⟩ : lo / bsize ≤ bn ∧ bn * bsize < hi' ∧ fs.fileBlock d bn = 0))
  have hind : (if ndirect * bsize < hi ∧ d.addrs ndirect = 0 then 1 else 0) ≤
      if ndirect * bsize < hi' ∧ d.addrs ndirect = 0 then 1 else 0 := by
    split <;> split <;> omega
  unfold needed
  omega

/-- A write reaches the end of the file or stays below it. -/
lemma Put.le_size (h : Put fs ip off n src fs') (hoff : off ≤ (fs.itable ip).d.size) :
    off + n ≤ (fs'.itable ip).d.size := by
  have hlength := congrArg List.length h.content
  simp only [length_content, List.length_append, List.length_take, List.length_map, List.length_range,
    List.length_drop] at hlength
  omega

/-- With enough free blocks and a source that can be read, every part is written in full. -/
lemma filewriteLoop_full (pid : Int) {n fuel : Nat} (hread : ∀ j < n, (src j).isSome) :
    ∀ {fs : Fs} {i off : Nat}, Settled fs ip → Idle fs → (fs.itable ip).locked = false → i ≤ n →
      n - i ≤ fuel → off ≤ (fs.itable ip).d.size → off + (n - i) ≤ maxfile * bsize →
      fs.needed (fs.itable ip).d off (off + (n - i)) ≤ fs.freeCount →
      ∃ fs', filewriteLoop pid ip src n fuel fs i off = .ok (n, off + (n - i), fs') := by
  induction fuel with
  | zero =>
    intro fs i off _ _ _ hi hfuel _ _ _
    obtain rfl : i = n := by omega
    rw [Nat.sub_self]
    exact ⟨fs, rfl⟩
  | succ fuel ih =>
    intro fs i off h hidle hfree hi hfuel hsize hmax hblocks
    rw [filewriteLoop]
    by_cases hdone : n ≤ i
    · obtain rfl : i = n := by omega
      rw [if_pos hdone, Nat.sub_self]
      exact ⟨fs, rfl⟩
    obtain ⟨m, hm⟩ : ∃ m, m = min (n - i) maxWrite := ⟨_, rfl⟩
    have hpos : 0 < m := by
      have : 0 < maxWrite := by decide
      omega
    have hlimit : off + (n - i) < 2 ^ 32 := lt_of_le_of_lt hmax (by decide)
    obtain ⟨r, fs1, hchunk, hidle1, hfree1, hpaid⟩ := writeChunk_returns pid (fun j => src (i + j)) h hidle hfree
      (by omega : off < 2 ^ 32) (hm ▸ min_le_right _ _ : m ≤ maxWrite)
    obtain ⟨rfl, hbudget⟩ := hpaid hsize (by omega) (fun j hj => hread (i + j) (by omega))
      ((needed_mono (by omega)).trans hblocks)
    obtain ⟨hsettled, hput⟩ := writeChunk_put h (by omega) (by omega) hchunk
    obtain ⟨-, -, -, hput⟩ := hput rfl
    have hnext : (if (0 : Int) < m then u32 (off + (m : Int).toNat) else off) = off + m := by
      rw [if_pos (by omega), Int.toNat_natCast]
      exact Nat.mod_eq_of_lt (by omega)
    have hsplit : off + (n - i) = off + m + (n - (i + m)) := by omega
    have hrest := hbudget (off + (n - i)) (by omega) hmax
    rw [hsplit] at hrest hmax hblocks ⊢
    rw [if_neg hdone]
    dsimp only
    rw [← hm, hchunk, ok_bind]
    dsimp only
    rw [if_neg (not_not_intro rfl), hnext]
    exact ih hsettled hidle1 hfree1 (by omega) (by omega) (hput.le_size hsize) hmax (by omega)

/-- Two writes of the same bytes to the same place are the same for every file. -/
lemma Put.unique (h : Put fs ip off n src fs') (h' : Put fs ip off n src fs'') (hlive' : Live fs' ip)
    (hlive'' : Live fs'' ip) {j : Nat} (ht : (fs.inode j).type ≠ 0) :
    (fs''.inode j).type = (fs'.inode j).type ∧ (fs''.inode j).nlink = (fs'.inode j).nlink ∧
      fs''.content (fs''.inode j) = fs'.content (fs'.inode j) := by
  by_cases hj : j = (fs.itable ip).inum
  · have hd : fs'.inode j = (fs'.itable ip).d := by rw [hj, ← h.inum, hlive'.inode]
    have hd' : fs''.inode j = (fs''.itable ip).d := by rw [hj, ← h'.inum, hlive''.inode]
    rw [hd, hd', h.type, h'.type, h.nlink, h'.nlink, h.content, h'.content]
    exact ⟨rfl, rfl, rfl⟩
  · obtain ⟨hsame, hcontent⟩ := h.others j hj ht
    obtain ⟨hsame', hcontent'⟩ := h'.others j hj ht
    rw [hcontent, hcontent', hsame, hsame']
    exact ⟨rfl, rfl, rfl⟩

/-- A part of a write logs no more blocks than an operation may, whatever is in the log; a write in parts that
reports success has done what one write would have; and when nobody else is in the way it returns, with
success if the source can be read and there are enough free blocks. -/
theorem filewrite_fits (h : Settled fs ip) :
    (1 ≤ fs.log.outstanding → fs.log.block.length + maxopblocks ≤ logblocks →
      ∀ (src : Nat → Option UInt8) (off n : Nat), off ≤ (fs.itable ip).d.size → n ≤ (maxopblocks - 1 - 1 - 2) / 2 * bsize →
      off + n ≤ maxfile * bsize →
      ∃ r fs', fs.writei ip src off n = .ok (r, fs') ∧ fs'.log.block.length ≤ fs.log.block.length + maxopblocks) ∧
    (∀ (pid : Int) (src : Nat → Option UInt8) (off n off' : Nat) (fs' : Fs), off < 2 ^ 32 → n < 2 ^ 31 →
      fs.filewrite pid true ip off src n = .ok ((n : Int), off', fs') → off' = off + n ∧ Put fs ip off n src fs' ∧
      ∀ fs1 fs2 fs3, fs.beginOp = .ok fs1 → fs1.ilock pid ip = .ok fs2 → fs2.writei ip src off n = .ok ((n : Int), fs3) →
        ∀ j, (fs.inode j).type ≠ 0 → (fs3.inode j).type = (fs'.inode j).type ∧ (fs3.inode j).nlink = (fs'.inode j).nlink ∧
          fs3.content (fs3.inode j) = fs'.content (fs'.inode j)) ∧
    (Idle fs → (fs.itable ip).locked = false → ∀ (pid : Int) (src : Nat → Option UInt8) (off : Nat) (n : Int), off < 2 ^ 32 →
      ∃ r off' fs', fs.filewrite pid true ip off src n = .ok (r, off', fs')) ∧
    (Idle fs → (fs.itable ip).locked = false → ∀ (pid : Int) (src : Nat → Option UInt8) (off n : Nat),
      off ≤ (fs.itable ip).d.size → off + n ≤ maxfile * bsize → (∀ j < n, (src j).isSome) →
      fs.needed (fs.itable ip).d off (off + n) ≤ fs.freeCount →
      ∃ fs', fs.filewrite pid true ip off src n = .ok ((n : Int), off + n, fs')) := by
  refine ⟨fun hout hroom src off n hoff hn hmax => writei_fits src (h.sound hout) hoff hn hmax hroom, ?_, ?_, ?_⟩
  · intro pid src off n off' fs' hoff hn hwrite
    unfold filewrite at hwrite
    rw [Bool.not_true, if_neg Bool.false_ne_true] at hwrite
    obtain ⟨⟨i, off1, fs1⟩, hloop, hwrite⟩ := bind_ok hwrite
    obtain ⟨hret, hrest⟩ := Prod.mk.inj (pure_ok hwrite)
    obtain ⟨rfl, rfl⟩ := Prod.mk.inj hrest
    obtain rfl : i = n := by
      by_contra hne
      rw [if_neg (by omega)] at hret
      omega
    obtain ⟨hsettled, hput, hoff'⟩ := filewriteLoop_put h hoff hn (Nat.zero_le _) hloop
    simp only [Nat.sub_zero, Nat.zero_add] at hput hoff'
    refine ⟨hoff', hput, fun fs1 fs2 fs3 hbegin hlock hone j ht => ?_⟩
    obtain ⟨halike1, htable, hlog1, -⟩ := beginOp_alike hbegin
    obtain ⟨halike2, hlog2⟩ := ilock_alike (htable ▸ h.live.valid) hlock
    have halike := halike1.trans halike2
    have hlog := hlog2.trans hlog1
    have hout := h.outstanding
    have hsound : Sound fs2 ip := by
      refine (halike.settled h ?_ ?_).sound ?_
      · rw [hlog]
        dsimp only
        omega
      · rw [hlog]
        exact h.nodup
      · rw [hlog]
        dsimp only
        omega
    obtain ⟨-, -, -, hput3⟩ := writei_put hsound hoff (by omega) hone
    have hsound3 := (writei_sound hsound hoff (by omega) hone).1
    have hrefl : Alike fs3 fs3 := ⟨rfl, rfl, rfl, rfl, fun _ => ⟨rfl, rfl, rfl, rfl⟩⟩
    exact hput.unique (hput3.congr halike hrefl) hsettled.live hsound3.live ht
  · intro hidle hfree pid src off n hoff
    obtain ⟨i, off', fs', hloop⟩ := filewriteLoop_returns pid src n.toNat h hidle hfree hoff
    refine ⟨if (i : Int) = n then n else -1, off', fs', ?_⟩
    unfold filewrite
    rw [Bool.not_true, if_neg Bool.false_ne_true, hloop, ok_bind]
    rfl
  · intro hidle hfree pid src off n hoff hmax hread hblocks
    obtain ⟨fs', hloop⟩ := @filewriteLoop_full ip src pid n n hread fs 0 off h hidle hfree (Nat.zero_le n) le_rfl
      hoff hmax hblocks
    refine ⟨fs', ?_⟩
    unfold filewrite
    rw [Bool.not_true, if_neg Bool.false_ne_true, Int.toNat_natCast, hloop, ok_bind]
    exact congrArg (fun r : Int => Except.ok (r, _)) (if_pos rfl)

/-- The file system of `oneFile` outside transactions. -/
def oneFileIdle : Fs := { oneFile with log := ⟨0, false, []⟩ }

lemma settled_oneFileIdle : Settled oneFileIdle ⟨0, by decide⟩ := by
  have h := sound_oneFile
  have halike : Alike oneFile oneFileIdle := ⟨rfl, rfl, rfl, rfl, fun _ => ⟨rfl, rfl, rfl, rfl⟩⟩
  exact halike.settled ⟨h.owned, h.live, h.type, h.dense, by decide, h.opened.nodup⟩ (by decide) List.nodup_nil

/-- 4000 bytes are written in two parts. -/
theorem filewrite_fits_two : ∃ off fs, oneFileIdle.filewrite 1 true ⟨0, by decide⟩ 0 (fun _ => some 7) 4000 = .ok (4000, off, fs) ∧
    off = 4000 ∧ fs.content (fs.itable ⟨0, by decide⟩).d = (List.range 4000).map fun _ => 7 := by
  obtain ⟨fs, hwrite⟩ := (filewrite_fits settled_oneFileIdle).2.2.2 ⟨rfl, rfl, rfl⟩ rfl 1 (fun _ => some 7) 0
    4000 (by decide) (by decide) (fun _ _ => rfl) (by decide)
  obtain ⟨hoff, hput, -⟩ := (filewrite_fits settled_oneFileIdle).2.1 1 (fun _ => some 7) 0 4000 _ fs (by decide) (by decide) hwrite
  have hempty : oneFileIdle.content (oneFileIdle.itable ⟨0, by decide⟩).d = [] := rfl
  refine ⟨_, fs, hwrite, hoff, ?_⟩
  rw [hput.content, hempty, List.take_nil, List.drop_nil, List.nil_append, List.append_nil]
  rfl

end Fs

end FogOS.Kernel
