import FogOS.Kernel.Dirs

/-!
# Directories over time

Names are linked and removed as `sys_link` and `sys_unlink` of `kernel/sysfile.c` do it: each call in a
transaction of its own, with the directory locked. The calls return, and the directory goes on to be
the map that they have made.
-/

namespace FogOS.Kernel

open ByteMem

namespace Fs

variable {fs fs' : Fs} {ip : Fin ninode} {d : Dinode} {name : List UInt8} {pid r : Int}
  {m m' : List UInt8 → Option Nat} {inum : Nat}

/-- A call on a directory. -/
inductive DirOp
  | link (name : List UInt8) (inum : Nat)
  | unlink (name : List UInt8)

def DirOp.key : DirOp → List UInt8
  | .link name _ => name
  | .unlink name => name

/-- Names are not empty, and inode numbers fit in an entry. -/
def DirOp.Proper : DirOp → Prop
  | .link name inum => cut name ≠ [] ∧ 0 < inum ∧ inum < 65536
  | .unlink name => cut name ≠ []

def DirOp.run (pid : Int) (ip : Fin ninode) : DirOp → Fs → Except Stop (Int × Fs)
  | .link name inum, fs => fs.dirlink pid ip name inum
  | .unlink name, fs => fs.dirunlink pid ip name

/-- The operation in a transaction, with the directory locked. -/
def DirOp.call (pid : Int) (ip : Fin ninode) (op : DirOp) (fs : Fs) : Except Stop (Int × Fs) := do
  let fs ← fs.beginOp
  let fs ← fs.ilock pid ip
  let (r, fs) ← op.run pid ip fs
  let fs ← fs.iunlock pid ip
  let fs ← fs.endOp
  pure (r, fs)

/-- The calls one after the other, with what they return. -/
def runDir (pid : Int) (ip : Fin ninode) : List DirOp → Fs → Except Stop (List Int × Fs)
  | [], fs => pure ([], fs)
  | op :: ops, fs => do
    let (r, fs) ← op.call pid ip fs
    let (rs, fs) ← runDir pid ip ops fs
    pure (r :: rs, fs)

/-- What a call that succeeds does to the map. -/
def DirOp.effect (m : List UInt8 → Option Nat) (r : Int) : DirOp → List UInt8 → Option Nat
  | .link name inum => if r = 0 then Function.update m (cut name) (some inum) else m
  | .unlink name => if r = 0 then Function.update m (cut name) none else m

lemma DirOp.effect_of_ne (op : DirOp) (hne : cut name ≠ cut op.key) :
    op.effect m r (cut name) = m (cut name) := by
  cases op with
  | link name' inum =>
    unfold effect
    split
    · exact Function.update_of_ne hne _ _
    · rfl
  | unlink name' =>
    unfold effect
    split
    · exact Function.update_of_ne hne _ _
    · rfl

/-- For each name the inode number that was linked last, if it has not been removed since. -/
def history (m : List UInt8 → Option Nat) : List DirOp → List Int → List UInt8 → Option Nat
  | op :: ops, r :: rs => history (op.effect m r) ops rs
  | _, _ => m

/-! ### One call -/

/-- Between calls: nobody is in a transaction or has the directory locked, an entry of the inode table is
free, and the entries of the directory hold the map `m`. -/
structure Resting (fs : Fs) (ip : Fin ninode) (m : List UInt8 → Option Nat) : Prop where
  settled : Settled fs ip
  idle : Idle fs
  unlocked : (fs.itable ip).locked = false
  spare : ∃ kp, (fs.itable kp).ref = 0
  type : (fs.itable ip).d.type = tDir
  whole : (fs.itable ip).d.size % 16 = 0
  holds : Register.Holds (fs.place (fs.itable ip).d) m

lemma Alike.entries (h : Alike fs fs') (d : Dinode) : fs'.entries d = fs.entries d := by
  rw [entries_eq, entries_eq, h.content]

lemma Alike.full (h : Alike fs fs') (d : Dinode) : fs'.Full d ↔ fs.Full d := by
  unfold Full
  rw [h.entries]

lemma Alike.extensible (h : Alike fs fs') (d : Dinode) : fs'.Extensible d ↔ fs.Extensible d := by
  unfold Extensible missing
  rw [h.fileBlock, h.freeCount]

/-- The call around an operation: it opens a transaction and locks the directory, and closes both. -/
lemma Resting.call (h : Resting fs ip m) (pid : Int) (op : DirOp) :
    ∃ fs₁, Alike fs fs₁ ∧ Dir fs₁ ip m ∧ fs₁.log.block.length + maxopblocks ≤ logblocks ∧
      (∃ kp, (fs₁.itable kp).ref = 0) ∧
      ∀ r fs₂ m', op.run pid ip fs₁ = .ok (r, fs₂) → Framed fs₁ ip fs₂ → Dir fs₂ ip m' →
        ∃ fs', op.call pid ip fs = .ok (r, fs') ∧ Alike fs₂ fs' ∧ Resting fs' ip m' := by
  obtain ⟨fs₀, hfs₀⟩ : ∃ fs₀ : Fs, fs₀ = { fs with log := ⟨1, false, []⟩ } := ⟨_, rfl⟩
  have hbegin : fs.beginOp = .ok fs₀ := by rw [h.idle.beginOp, hfs₀]
  have hentry : fs₀.itable ip = fs.itable ip := by rw [hfs₀]
  have hlive := h.settled.live
  obtain ⟨fs₁, hfs₁⟩ :
      ∃ fs₁, fs₁ = fs₀.setInode ip { fs₀.itable ip with locked := true, lockPid := pid } := ⟨_, rfl⟩
  have hlock : fs₀.ilock pid ip = .ok fs₁ := by
    rw [hfs₁]
    exact ilock_free (hentry ▸ hlive.ref) (hentry ▸ h.unlocked) (hentry ▸ hlive.valid) pid
  have halike := (beginOp_alike hbegin).1.trans (ilock_alike (hentry ▸ hlive.valid) hlock).1
  have hlog : fs₁.log = ⟨1, false, []⟩ := by
    rw [hfs₁, hfs₀]
    rfl
  have hheld : (fs₁.itable ip).locked = true ∧ (fs₁.itable ip).lockPid = pid := by
    rw [hfs₁]
    simp [setInode]
  have hsound : Sound fs₁ ip := by
    refine (halike.settled h.settled ?_ ?_).sound ?_
    · rw [hlog]
      decide
    · rw [hlog]
      exact List.nodup_nil
    · rw [hlog]
  have hdir : Dir fs₁ ip m := by
    have hd := (halike.itable ip).2.2.2
    refine ⟨hsound, by rw [hd, h.type], by rw [hd, h.whole], ?_⟩
    rw [hd, place_congr halike.block]
    exact h.holds
  obtain ⟨kp, hkp⟩ := h.spare
  refine ⟨fs₁, halike, hdir, by rw [hlog]; decide, ⟨kp, (halike.itable kp).1.trans hkp⟩, ?_⟩
  intro r fs₂ m' hrun hframed hdir₂
  have hunlock : fs₂.iunlock pid ip = .ok (fs₂.releasesleep ip) :=
    iunlock_held hdir₂.sound.live.ref (hframed.locked.trans hheld.1) (hframed.lockPid.trans hheld.2)
  have hend : (fs₂.releasesleep ip).endOp = .ok { fs₂.releasesleep ip with log := ⟨0, false, []⟩ } :=
    endOp_last (hframed.outstanding.trans (by rw [hlog])) (hframed.committing.trans (by rw [hlog]))
  have halike₂ := (iunlock_alike hunlock).1.trans (endOp_alike hend).1
  have hd := (halike₂.itable ip).2.2.2
  have hsound₂ := hdir₂.sound
  have hsettled : Settled fs₂ ip :=
    ⟨hsound₂.owned, hsound₂.live, hsound₂.type, hsound₂.dense,
      (zero_le_one' Int).trans hsound₂.opened.outstanding, hsound₂.opened.nodup⟩
  refine ⟨_, ?_, halike₂, halike₂.settled hsettled le_rfl List.nodup_nil, ⟨rfl, rfl, rfl⟩, ?_,
    ⟨kp, ?_⟩, by rw [hd, hdir₂.type], by rw [hd, hdir₂.whole], ?_⟩
  · unfold DirOp.call
    rw [hbegin, ok_bind, hlock, ok_bind, hrun, ok_bind]
    dsimp only
    rw [hunlock, ok_bind, hend]
    rfl
  · simp [releasesleep, setInode]
  · rw [(halike₂.itable kp).1, hframed.ref, (halike.itable kp).1, hkp]
  · rw [hd, place_congr halike₂.block]
    exact hdir₂.holds

/-- A call of `dirlink` fails and changes nothing if the name is there, or if no entry is free and the
directory cannot be extended; else it adds the name to the map. -/
lemma Resting.link (h : Resting fs ip m) (pid : Int) (name : List UInt8)
    (hinum : 0 < inum ∧ inum < 65536) :
    ∃ r fs', (DirOp.link name inum).call pid ip fs = .ok (r, fs') ∧
      Resting fs' ip ((DirOp.link name inum).effect m r) ∧ (r = 0 ∨ r = -1) ∧
      (r = -1 ↔ m (cut name) ≠ none ∨
        fs.Full (fs.itable ip).d ∧ ¬ fs.Extensible (fs.itable ip).d) ∧
      (r = -1 → (fs'.itable ip).d.size = (fs.itable ip).d.size ∧
        fs'.entries (fs'.itable ip).d = fs.entries (fs.itable ip).d) := by
  obtain ⟨fs₁, halike, hdir, hlog, ⟨kp, hkp⟩, hcall⟩ := h.call pid (.link name inum)
  obtain ⟨r, fs₂, hrun, hframed, hres⟩ := hdir.dirlink pid name hinum hlog hkp
  have hd := (halike.itable ip).2.2.2
  rw [hd, halike.full, halike.extensible] at hres
  rcases hres with ⟨rfl, hwhy, hdir₂, hsize, hcontent⟩ | ⟨rfl, hnone, hroom, hdir₂⟩
  · obtain ⟨fs', hop, halike', hrest⟩ := hcall _ _ _ hrun hframed hdir₂
    have hd' := (halike'.itable ip).2.2.2
    refine ⟨-1, fs', hop, hrest, Or.inr rfl, iff_of_true rfl hwhy, fun _ => ⟨?_, ?_⟩⟩
    · rw [hd', hsize]
    · rw [hd', halike'.entries, entries_eq, hcontent, ← entries_eq, halike.entries]
  · obtain ⟨fs', hop, -, hrest⟩ := hcall _ _ _ hrun hframed hdir₂
    refine ⟨0, fs', hop, hrest, Or.inl rfl, iff_of_false (by decide) ?_, fun hr => absurd hr (by decide)⟩
    rintro (hsome | ⟨hfull, hcant⟩)
    · exact hsome hnone
    · exact hroom.elim (fun hnot => hnot hfull) hcant

/-- A removal takes the name out of the map, or changes nothing if it is not there. -/
lemma Resting.unlink (h : Resting fs ip m) (pid : Int) (name : List UInt8) :
    ∃ r fs', (DirOp.unlink name).call pid ip fs = .ok (r, fs') ∧
      Resting fs' ip ((DirOp.unlink name).effect m r) ∧ (r = 0 ∨ r = -1) ∧
      (r = -1 ↔ m (cut name) = none) ∧ (r = -1 → Alike fs fs') := by
  obtain ⟨fs₁, halike, hdir, hlog, ⟨kp, hkp⟩, hcall⟩ := h.call pid (.unlink name)
  obtain ⟨r, fs₂, hrun, hframed, hres⟩ := hdir.dirunlink pid name hlog hkp
  rcases hres with ⟨rfl, hnone, rfl⟩ | ⟨rfl, hsome, hdir₂⟩
  · obtain ⟨fs', hop, halike', hrest⟩ := hcall _ _ _ hrun hframed hdir
    exact ⟨-1, fs', hop, hrest, Or.inr rfl, iff_of_true rfl hnone, fun _ => halike.trans halike'⟩
  · obtain ⟨fs', hop, -, hrest⟩ := hcall _ _ _ hrun hframed hdir₂
    exact ⟨0, fs', hop, hrest, Or.inl rfl, iff_of_false (by decide) hsome,
      fun hr => absurd hr (by decide)⟩

/-! ### Any number of calls -/

lemma Resting.step (h : Resting fs ip m) (pid : Int) {op : DirOp} (hp : op.Proper) :
    ∃ r fs', op.call pid ip fs = .ok (r, fs') ∧ Resting fs' ip (op.effect m r) := by
  cases op with
  | link name inum =>
    obtain ⟨r, fs', hop, hrest, -⟩ := h.link pid name hp.2
    exact ⟨r, fs', hop, hrest⟩
  | unlink name =>
    obtain ⟨r, fs', hop, hrest, -⟩ := h.unlink pid name
    exact ⟨r, fs', hop, hrest⟩

lemma Resting.runDir (h : Resting fs ip m) (pid : Int) {ops : List DirOp}
    (hp : ∀ op ∈ ops, op.Proper) :
    ∃ rs fs', runDir pid ip ops fs = .ok (rs, fs') ∧ rs.length = ops.length ∧
      Resting fs' ip (history m ops rs) := by
  induction ops generalizing fs m with
  | nil => exact ⟨[], fs, rfl, rfl, h⟩
  | cons op ops ih =>
    obtain ⟨r, fs₁, hop, h₁⟩ := h.step pid (hp op List.mem_cons_self)
    obtain ⟨rs, fs', hrest, hlen, h'⟩ := ih h₁ fun o ho => hp o (List.mem_cons_of_mem _ ho)
    refine ⟨r :: rs, fs', ?_, congrArg Nat.succ hlen, h'⟩
    rw [Fs.runDir, hop, ok_bind]
    dsimp only
    rw [hrest]
    rfl

/-- What the map `m` says of the directory: one entry for each name, what a lookup finds (also that of path
lookup, which has no use for the offset), and what the next call does. -/
structure Mapped (fs : Fs) (pid : Int) (ip : Fin ninode) (m : List UInt8 → Option Nat) : Prop where
  unique : Register.Unique (fs.place (fs.itable ip).d)
  lookup : ∀ name, (m (cut name) = none ∧ fs.dirlookupOff ip name = .ok (none, fs)) ∨
    ∃ inum k next fs', m (cut name) = some inum ∧
      fs.place (fs.itable ip).d k = some (cut name, inum) ∧ 16 * k < (fs.itable ip).d.size ∧
      fs.iget (fs.itable ip).dev inum = .ok (next, fs') ∧ (fs'.itable next).inum = inum ∧
      fs.dirlookupOff ip name = .ok (some (next, 16 * k), fs')
  path : ∀ name, fs.dirlookup ip (cut name) =
    (fs.dirlookupOff ip name).map fun found => (found.1.map (·.1), found.2)
  link : ∀ name inum, cut name ≠ [] → 0 < inum → inum < 65536 →
    ∃ r fs', (DirOp.link name inum).call pid ip fs = .ok (r, fs') ∧ (r = 0 ∨ r = -1) ∧
      (r = -1 ↔ m (cut name) ≠ none ∨
        fs.Full (fs.itable ip).d ∧ ¬ fs.Extensible (fs.itable ip).d) ∧
      (r = -1 → (fs'.itable ip).d.size = (fs.itable ip).d.size ∧
        fs'.entries (fs'.itable ip).d = fs.entries (fs.itable ip).d)
  unlink : ∀ name, cut name ≠ [] →
    ∃ r fs', (DirOp.unlink name).call pid ip fs = .ok (r, fs') ∧ (r = 0 ∨ r = -1) ∧
      (r = -1 ↔ m (cut name) = none) ∧ (r = -1 → Alike fs fs')
  others : ∀ op : DirOp, op.Proper → ∃ r fs', op.call pid ip fs = .ok (r, fs') ∧
    ∀ name inum, cut name ≠ cut op.key →
      ((∃ k, fs'.place (fs'.itable ip).d k = some (cut name, inum)) ↔
        ∃ k, fs.place (fs.itable ip).d k = some (cut name, inum))

lemma Resting.mapped (h : Resting fs ip m) (pid : Int) : Mapped fs pid ip m := by
  refine ⟨h.holds.unique, fun name => ?_, fun name => dirlookup_eq fs ip name,
    fun name inum _ hpos hlt => ?_, fun name _ => ?_, fun op hp => ?_⟩
  · obtain ⟨kp, hkp⟩ := h.spare
    rcases dirlookup_map ⟨h.type, h.settled.dense, h.whole⟩ h.holds name with
      hnone | ⟨inum, k, hsome, hplace, hlt, hrun⟩
    · exact Or.inl hnone
    · obtain ⟨next, fs', hget, hinum⟩ := iget_returns hkp (fs.itable ip).dev inum
      refine Or.inr ⟨inum, k, next, fs', hsome, hplace, hlt, hget, hinum, ?_⟩
      rw [hrun, hget]
      rfl
  · obtain ⟨r, fs', hop, -, hrest⟩ := h.link pid name ⟨hpos, hlt⟩
    exact ⟨r, fs', hop, hrest⟩
  · obtain ⟨r, fs', hop, -, hrest⟩ := h.unlink pid name
    exact ⟨r, fs', hop, hrest⟩
  · obtain ⟨r, fs', hop, h'⟩ := h.step pid hp
    refine ⟨r, fs', hop, fun name inum hne => ?_⟩
    rw [← h'.holds.mem_iff, ← h.holds.mem_iff, op.effect_of_ne hne]

/-- A directory without duplicate names stands for a map. With nobody else in a transaction or at its lock
and a free entry in the inode table, calls of `dirlink` and removals return, and the directory goes on
to stand for the map that they have made. -/
theorem directory_is_map (h : Settled fs ip) (hidle : Idle fs) (hunlocked : (fs.itable ip).locked = false)
    (hspare : ∃ kp, (fs.itable kp).ref = 0) (htype : (fs.itable ip).d.type = tDir)
    (hwhole : (fs.itable ip).d.size % 16 = 0) (hunique : Register.Unique (fs.place (fs.itable ip).d))
    (pid : Int) (ops : List DirOp) (hops : ∀ op ∈ ops, op.Proper) :
    ∃ rs fs', runDir pid ip ops fs = .ok (rs, fs') ∧ rs.length = ops.length ∧
      Mapped fs' pid ip (history (Register.toMap (fs.place (fs.itable ip).d)) ops rs) := by
  have hrest : Resting fs ip (Register.toMap (fs.place (fs.itable ip).d)) :=
    ⟨h, hidle, hunlocked, hspare, htype, hwhole, hunique.holds⟩
  obtain ⟨rs, fs', hrun, hlen, h'⟩ := hrest.runDir pid hops
  exact ⟨rs, fs', hrun, hlen, h'.mapped pid⟩

/-- An empty directory, which is open. -/
def oneDir : Fs where
  sb := ⟨64, 2, 3⟩
  dinode := fun i => ⟨if i = 2 then tDir else 0, 1, 0, fun _ => 0⟩
  bitmap := fun b => decide (b < 4)
  block := fun _ _ => 0
  itable := fun ip => ⟨1, 2, if ip.val = 0 then 1 else 0, false, 0, true, ⟨tDir, 1, 0, fun _ => 0⟩⟩
  log := ⟨0, false, []⟩

lemma settled_oneDir : Settled oneDir ⟨0, by decide⟩ := by
  have haddr : ∀ j k, (oneDir.inode j).addrs k = 0 := by
    intro j k
    unfold Fs.inode
    split <;> rfl
  have hlive : Live oneDir ⟨0, by decide⟩ := by
    refine ⟨by decide, rfl, fun jp href _ => ?_⟩
    by_contra hne
    have hzero : jp.val ≠ 0 := fun hv => hne (Fin.ext hv)
    simp [oneDir, hzero] at href
  obtain ⟨fs, hfs⟩ : ∃ fs : Fs, fs = { oneDir with log := ⟨1, false, []⟩ } := ⟨_, rfl⟩
  have halike : Alike fs oneDir := by
    rw [hfs]
    exact ⟨rfl, rfl, rfl, rfl, fun _ => ⟨rfl, rfl, rfl, rfl⟩⟩
  have h : Sound fs ⟨0, by decide⟩ := by
    rw [hfs]
    exact sound_of_empty haddr (fun b => decide_eq_true_iff) (by decide)
      (hlive.congr fun _ => ⟨rfl, rfl, rfl⟩) (by decide) rfl ⟨by decide, List.nodup_nil⟩
  exact halike.settled ⟨h.owned, h.live, h.type, h.dense, (zero_le_one' Int).trans h.opened.outstanding,
    h.opened.nodup⟩ le_rfl List.nodup_nil

/-- `a` and `b` are linked, `a` is linked again and removed, and `c` takes its place. -/
def linkTwice : List DirOp :=
  [.link [97] 5, .link [98] 6, .link [97] 7, .unlink [97], .link [99] 7]

theorem directory_is_map_linkTwice : ∃ rs fs',
    runDir 1 ⟨0, by decide⟩ linkTwice oneDir = .ok (rs, fs') ∧ rs = [0, 0, -1, 0, 0] ∧
      Mapped fs' 1 ⟨0, by decide⟩
        (history (Register.toMap (oneDir.place (oneDir.itable ⟨0, by decide⟩).d)) linkTwice rs) := by
  have hempty : ∀ k, oneDir.place (oneDir.itable ⟨0, by decide⟩).d k = none := fun _ => rfl
  obtain ⟨rs, fs', hrun, -, hmapped⟩ := directory_is_map settled_oneDir ⟨rfl, rfl, rfl⟩ rfl
    ⟨⟨1, by decide⟩, rfl⟩ rfl rfl (fun i j k v w hi => by rw [hempty] at hi; cases hi) 1 linkTwice (by
      intro op hop
      simp only [linkTwice, List.mem_cons, List.not_mem_nil, or_false] at hop
      rcases hop with rfl | rfl | rfl | rfl | rfl
      · exact ⟨by decide, by decide, by decide⟩
      · exact ⟨by decide, by decide, by decide⟩
      · exact ⟨by decide, by decide, by decide⟩
      · exact (by decide : cut [97] ≠ [])
      · exact ⟨by decide, by decide, by decide⟩)
  have hret : (runDir 1 ⟨0, by decide⟩ linkTwice oneDir).toOption.map Prod.fst =
      some [0, 0, -1, 0, 0] := by decide
  refine ⟨rs, fs', hrun, ?_, hmapped⟩
  rw [hrun] at hret
  exact Option.some.inj hret

end Fs

end FogOS.Kernel
