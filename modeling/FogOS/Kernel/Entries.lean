import FogOS.Kernel.Itable
import FogOS.Kernel.Inodes

/-!
# The two models of the inode table

`Fs` runs a call of `iget`, `idup`, `ilock`, `iunlock` or `iput` from its beginning to its end, with the
blocks that it reads and frees. `Itable` runs it in the parts that other processes can come between,
with the owners of the references. Where the file system shows the table of the second model, every call
that returns in the first is a run of the second.
-/

namespace FogOS.Kernel.Inodes

/-- The fields of a `struct dinode` that the file system uses, as a function of the index of a block. -/
def Dinode.fields (d : Dinode) : Kernel.Dinode where
  type := d.type
  nlink := d.nlink
  size := d.size
  addrs := fun k => if k ≤ ndirect then d.addrs.getD k 0 else 0

/-- An entry, with its sleep-lock as `locked` and `pid`. -/
def Inode.entry (v : Inode) : Kernel.Inode where
  dev := v.dev
  inum := v.inum
  ref := v.ref
  locked := v.lock.isSome
  lockPid := v.lock.elim 0 fun p => p
  valid := v.valid
  d := v.d.fields

/-- The file system shows the entries of the table and the inodes on the disk, which is the only one. -/
structure Itable.Shows (m : Itable) (fs : Fs) : Prop where
  table : ∀ ip, fs.itable ip = (m.inode ip).entry
  disk : ∀ i, fs.dinode i = (m.disk rootdev i).fields
  device : ∀ ip, 0 < (m.inode ip).ref → (m.inode ip).dev = rootdev

/-- A call of a function of the inode table. -/
inductive Call
  | iget (inum : Nat)
  | idup (ip : Fin ninode)
  | ilock (ip : Fin ninode)
  | iunlock (ip : Fin ninode)
  | iput (ip : Fin ninode)

/-- The call in `Fs`. -/
def Call.exec (fs : Fs) (p : Nat) : Call → Except Stop Fs
  | .iget inum => Prod.snd <$> fs.iget rootdev inum
  | .idup ip => return fs.idup ip
  | .ilock ip => fs.ilock p ip
  | .iunlock ip => fs.iunlock p ip
  | .iput ip => fs.iput p ip

/-- The step of `Itable` with which the call begins. -/
def Call.act (p : Nat) : Call → Act
  | .iget inum => .iget p rootdev inum
  | .idup ip => .idup p ip
  | .ilock ip => .ilock p ip
  | .iunlock ip => .iunlock p ip
  | .iput ip => .iput p ip

/-! ### Assignments and blocks -/

lemma Dinode.fields_trunc (d : Dinode) :
    d.trunc.fields = { d.fields with addrs := fun k => if k ≤ ndirect then 0 else d.fields.addrs k, size := 0 } := by
  unfold Dinode.fields Dinode.trunc
  congr 1
  funext k
  by_cases hk : k ≤ ndirect
  · simp only [if_pos hk, List.getD_eq_getElem?_getD, List.getElem?_replicate]
    rw [if_pos (Nat.lt_succ_of_le hk), Option.getD_some]
  · simp only [if_neg hk]

/-- Only the bitmap and the log may differ. -/
structure SameInodes (fs fs' : Fs) : Prop where
  table : fs'.itable = fs.itable
  disk : fs'.dinode = fs.dinode

section

variable {fs fs' fs'' : Fs}

lemma SameInodes.trans (h : SameInodes fs fs') (h' : SameInodes fs' fs'') : SameInodes fs fs'' :=
  ⟨h'.table.trans h.table, h'.disk.trans h.disk⟩

lemma sameInodes_logWrite {b : Nat} (h : fs.logWrite b = .ok fs') : SameInodes fs fs' := by
  obtain ⟨-, h⟩ := guard_ok h
  obtain ⟨-, h⟩ := guard_ok h
  split at h <;> cases h
  · exact ⟨rfl, rfl⟩
  · exact ⟨rfl, rfl⟩

lemma sameInodes_bfree {held : List Nat} {b : Nat} (h : fs.bfree held b = .ok fs') : SameInodes fs fs' := by
  obtain ⟨-, -, h⟩ := bind_ok h
  obtain ⟨-, h⟩ := guard_ok h
  have hlog := sameInodes_logWrite h
  exact ⟨hlog.table, hlog.disk⟩

lemma sameInodes_bfreeAll {held l : List Nat} (h : fs.bfreeAll held l = .ok fs') : SameInodes fs fs' := by
  unfold Fs.bfreeAll at h
  induction l generalizing fs with
  | nil =>
    cases h
    exact ⟨rfl, rfl⟩
  | cons b l ih =>
    rw [List.foldlM_cons] at h
    obtain ⟨fs1, h1, h⟩ := bind_ok h
    refine SameInodes.trans ?_ (ih h)
    split at h1
    · cases h1
      exact ⟨rfl, rfl⟩
    · exact sameInodes_bfree h1

lemma sameInodes_bfreeIndirect {ind : Nat} (h : fs.bfreeIndirect ind = .ok fs') : SameInodes fs fs' := by
  unfold Fs.bfreeIndirect at h
  split at h
  · cases h
    exact ⟨rfl, rfl⟩
  · obtain ⟨-, -, h⟩ := bind_ok h
    obtain ⟨fs1, h1, h⟩ := bind_ok h
    exact (sameInodes_bfreeAll h1).trans (sameInodes_bfree h)

end

namespace Itable

variable (m : Itable) (ip : Fin ninode) (p : Nat)

@[simp] lemma inode_setInode (v : Inode) : (m.setInode ip v).inode ip = v := by simp [setInode]
@[simp] lemma inode_setPc (w : Pc) : (m.setPc p w).inode = m.inode := rfl
@[simp] lemma inode_iupdate : (m.iupdate ip).inode = m.inode := rfl
@[simp] lemma pc_setPc (w : Pc) : (m.setPc p w).pc p = w := by simp [setPc]

end Itable

/-! ### Parts of calls -/

namespace Itable

variable {m m' : Itable} {fs fs' : Fs} {ip : Fin ninode} {p : Nat} {w : Pc}

/-- From `m` there is a run that begins with the first step of the call, and after it the process is outside again
and `fs'` is what the file system shows. -/
def Runs (m : Itable) (fs' : Fs) (p : Nat) (c : Call) : Prop :=
  ∃ l m', Steps Step m (c.act p :: l) m' ∧ m'.pc p = .idle ∧ m'.Shows fs'

lemma runs_one {c : Call} (h : m'.Shows fs') (hen : m.Enabled (c.act p))
    (hok : m.exec (c.act p) = .ok m') (hp : m'.pc p = .idle) : Runs m fs' p c :=
  ⟨[], m', Steps.cons ⟨hen, hok⟩ (Steps.nil m'), hp, h⟩

/-- The process is in the middle of a call about an entry that is in use. -/
structure Within (m : Itable) (fs : Fs) (p : Nat) (w : Pc) (ip : Fin ninode) : Prop where
  shows : m.Shows fs
  pc : m.pc p = w
  device : (m.inode ip).dev = rootdev

lemma Within.step (h : Within m fs p w ip) (hw : w ≠ .idle) (hok : m.run p = .ok m') : Step m (.run p) m' :=
  ⟨fun hidle => hw (h.pc.symm.trans hidle), hok⟩

end Itable

namespace Itable.Shows

variable {m : Itable} {fs fs' : Fs} {ip : Fin ninode} {p : Nat}

lemma same (h : m.Shows fs) (hsame : SameInodes fs fs') : m.Shows fs' :=
  ⟨fun i => by rw [hsame.table, h.table], fun i => by rw [hsame.disk, h.disk], h.device⟩

lemma setPc (h : m.Shows fs) (w : Pc) : (m.setPc p w).Shows fs := ⟨h.table, h.disk, h.device⟩

lemma setInode (h : m.Shows fs) (ip : Fin ninode) (v : Inode) (hdev : 0 < v.ref → v.dev = rootdev) :
    (m.setInode ip v).Shows (fs.setInode ip v.entry) := by
  refine ⟨fun i => ?_, h.disk, fun i hi => ?_⟩
  · by_cases hip : i = ip
    · subst hip
      simp only [Fs.setInode, Itable.setInode, Function.update_self]
    · simp only [Fs.setInode, Itable.setInode, Function.update_of_ne hip, h.table]
  · by_cases hip : i = ip
    · subst hip
      simp only [Itable.setInode, Function.update_self] at hi ⊢
      exact hdev hi
    · simp only [Itable.setInode, Function.update_of_ne hip] at hi ⊢
      exact h.device i hi

lemma iupdate (h : m.Shows fs) (hdev : (m.inode ip).dev = rootdev) (hop : fs.iupdate ip = .ok fs') :
    (m.iupdate ip).Shows fs' := by
  obtain ⟨-, -, hop⟩ := bind_ok hop
  have hlog := sameInodes_logWrite hop
  refine ⟨fun i => ?_, fun i => ?_, h.device⟩
  · rw [hlog.table]
    exact h.table i
  · rw [hlog.disk, h.table ip]
    unfold Itable.iupdate
    rw [hdev]
    simp only [Function.update_self]
    by_cases hi : i = (m.inode ip).inum
    · subst hi
      simp only [Inode.entry, Function.update_self]
    · rw [Function.update_of_ne hi, Function.update_of_ne (show i ≠ (m.inode ip).entry.inum from hi)]
      exact h.disk i

lemma refs (h : m.Shows fs) (r : List (Nat × Fin ninode)) : Shows { m with refs := r } fs :=
  ⟨h.table, h.disk, h.device⟩

lemma drop (h : m.Shows fs) : (m.drop p ip).Shows (fs.idrop ip) := by
  have hset := (h.setInode ip { m.inode ip with ref := (m.inode ip).ref - 1 } fun hpos => h.device ip (by
    have hsub : 0 < (m.inode ip).ref - 1 := hpos
    omega)).refs (m.refs.erase (p, ip))
  unfold Fs.idrop
  rw [h.table]
  exact hset

/-! ### Calls -/

lemma iget {inum : Nat} (h : m.Shows fs) (hp : m.pc p = .idle) (hop : fs.iget rootdev inum = .ok (ip, fs')) :
    Runs m fs' p (.iget inum) := by
  unfold Fs.iget at hop
  simp only [h.table] at hop
  split at hop
  · next i hfind =>
    cases hop
    have hpos := List.find?_some hfind
    simp only [decide_eq_true_eq] at hpos
    have hset := (h.setInode ip { m.inode ip with ref := (m.inode ip).ref + 1 } fun _ => hpos.2.1).refs ((p, ip) :: m.refs)
    refine runs_one hset hp ?_ hp
    change m.iget p rootdev inum = _
    unfold Itable.iget
    split
    · next j hj =>
      obtain rfl := Option.some.inj (hj.symm.trans hfind)
      rfl
    · next hnone => cases hnone.symm.trans hfind
  · next hnone =>
    split at hop
    · cases hop
    · next i hfind =>
      cases hop
      have hset := (h.setInode ip { m.inode ip with dev := rootdev, inum := inum, ref := 1, valid := false }
        fun _ => rfl).refs ((p, ip) :: m.refs)
      refine runs_one hset hp ?_ hp
      change m.iget p rootdev inum = _
      unfold Itable.iget
      split
      · next j hj => cases hj.symm.trans hnone
      · split
        · next hj => cases hj.symm.trans hfind
        · next j hj =>
          obtain rfl := Option.some.inj (hj.symm.trans hfind)
          rfl

lemma idup (h : m.Shows fs) (hen : m.Enabled (.idup p ip)) (hdev : (m.inode ip).dev = rootdev) :
    Runs m (fs.idup ip) p (.idup ip) := by
  have hset := (h.setInode ip { m.inode ip with ref := (m.inode ip).ref + 1 } fun _ => hdev).refs
    ((p, ip) :: m.refs)
  refine runs_one ?_ hen rfl hen.1
  unfold Fs.idup
  rw [h.table]
  exact hset

lemma iunlock (h : m.Shows fs) (hen : m.Enabled (.iunlock p ip)) (hop : fs.iunlock p ip = .ok fs') :
    Runs m fs' p (.iunlock ip) := by
  obtain ⟨hheld, hop⟩ := guard_ok hop
  cases hop
  have hset := h.setInode ip { m.inode ip with lock := none } (h.device ip)
  have hpos : ¬ (m.inode ip).ref < 1 := by
    intro hlt
    refine hheld ?_
    rw [h.table]
    exact Bool.or_eq_true_iff.mpr (Or.inr (decide_eq_true hlt))
  unfold Fs.releasesleep
  rw [h.table]
  refine runs_one hset hen (if_neg ?_) hen.1
  rintro (hlock | hlt)
  · exact hlock hen.2.1
  · exact hpos hlt

/-- `itrunc` by the process that has the lock. -/
lemma itrunc (h : m.Shows fs) (hdev : (m.inode ip).dev = rootdev) (hop : fs.itrunc ip = .ok fs') :
    ((m.setInode ip { m.inode ip with d := (m.inode ip).d.trunc }).iupdate ip).Shows fs' := by
  obtain ⟨fs1, h1, hop⟩ := bind_ok hop
  obtain ⟨fs2, h2, hop⟩ := bind_ok hop
  have hfreed := h.same ((sameInodes_bfreeAll h1).trans (sameInodes_bfreeIndirect h2))
  have hset : Shows (m.setInode ip { m.inode ip with d := (m.inode ip).d.trunc })
      (fs2.setInode ip { (m.inode ip).entry with d := (m.inode ip).d.trunc.fields }) :=
    hfreed.setInode ip { m.inode ip with d := (m.inode ip).d.trunc } (h.device ip)
  rw [hfreed.table, h.table] at hop
  refine hset.iupdate ?_ ?_
  · rw [inode_setInode]
    exact hdev
  · rw [Dinode.fields_trunc]
    exact hop

/-- Taking the lock, which is free. -/
lemma acquiresleep {w : Pc} (h : m.Shows fs) (hpos : 0 < (m.inode ip).ref) (hop : fs.acquiresleep p ip = .ok fs') :
    (m.inode ip).lock = none ∧
      Within ((m.setInode ip { m.inode ip with lock := some p }).setPc p w) fs' p w ip := by
  obtain ⟨hfree, hop⟩ := guard_ok hop
  cases hop
  rw [h.table] at hfree ⊢
  have hset := h.setInode ip { m.inode ip with lock := some p } (h.device ip)
  refine ⟨Option.not_isSome_iff_eq_none.mp hfree, hset.setPc w, pc_setPc _ p w, ?_⟩
  rw [inode_setPc, inode_setInode]
  exact h.device ip hpos

lemma run_loading (h : Within m fs p (.loading ip) ip)
    (hop : (if (fs.itable ip).valid then pure fs
      else
        let d := fs.dinode (fs.itable ip).inum
        if d.type = 0 then throw (.panic .ilockNoType)
        else pure (fs.setInode ip { fs.itable ip with d := d, valid := true }) : Except Stop Fs) = .ok fs') :
    ∃ m', Step m (.run p) m' ∧ m'.pc p = .idle ∧ m'.Shows fs' := by
  have ⟨hs, hpc, hdev⟩ := h
  have hrun : m.run p = if (m.inode ip).valid then .ok (m.setPc p .idle)
      else if (m.onDisk ip).type = 0 then .error (.panic .ilockNoType)
      else .ok ((m.setInode ip { m.inode ip with d := m.onDisk ip, valid := true }).setPc p .idle) := by
    unfold Itable.run
    rw [hpc]
    rfl
  rw [hs.table] at hop
  split at hop
  · next hvalid =>
    cases hop
    exact ⟨_, h.step nofun (hrun.trans (if_pos hvalid)), pc_setPc m p .idle, hs.setPc .idle⟩
  · next hvalid =>
    have hdisk : fs.dinode (m.inode ip).entry.inum = (m.onDisk ip).fields := by
      rw [hs.disk, onDisk, hdev]
      rfl
    rw [hdisk] at hop
    obtain ⟨htype, hop⟩ := guard_ok hop
    cases hop
    have hload := hs.setInode ip { m.inode ip with d := m.onDisk ip, valid := true } (hs.device ip)
    exact ⟨_, h.step nofun (hrun.trans ((if_neg hvalid).trans (if_neg htype))), pc_setPc _ p .idle, hload.setPc .idle⟩

lemma ilock (h : m.Shows fs) (hen : m.Enabled (.ilock p ip)) (hop : fs.ilock p ip = .ok fs') :
    Runs m fs' p (.ilock ip) := by
  obtain ⟨href, hop⟩ := guard_ok hop
  obtain ⟨fs1, h1, hop⟩ := bind_ok hop
  rw [h.table] at href
  have href : ¬ (m.inode ip).ref < 1 := href
  obtain ⟨hfree, hin⟩ := h.acquiresleep (w := .loading ip) (by omega) h1
  have hlock : Step m (.ilock p ip) ((m.setInode ip { m.inode ip with lock := some p }).setPc p (.loading ip)) := by
    refine ⟨hen, ?_⟩
    change m.ilock p ip = _
    unfold Itable.ilock
    rw [if_neg href, if_neg (not_not_intro hfree)]
    rfl
  obtain ⟨m', hrun, hp, hs⟩ := run_loading hin hop
  exact ⟨[.run p], m', Steps.cons hlock (Steps.cons hrun (Steps.nil m')), hp, hs⟩

lemma run_last (h : Within m fs p (.last ip) ip) (hop : fs.itrunc ip = .ok fs') :
    ∃ m', Step m (.run p) m' ∧ Within m' fs' p (.truncated ip) ip := by
  have ⟨hs, hpc, hdev⟩ := h
  have hrun : m.run p = .ok (((m.setInode ip { m.inode ip with d := (m.inode ip).d.trunc }).iupdate ip).setPc p
      (.truncated ip)) := by
    unfold Itable.run
    rw [hpc]
    rfl
  refine ⟨_, h.step nofun hrun, (hs.itrunc hdev hop).setPc _, pc_setPc _ p _, ?_⟩
  rw [inode_setPc, inode_iupdate, inode_setInode]
  exact hdev

/-- The inode is marked as free on the disk. -/
lemma run_truncated (h : Within m fs p (.truncated ip) ip)
    (hop : (fs.setInode ip { fs.itable ip with d := { (fs.itable ip).d with type := 0 } }).iupdate ip = .ok fs') :
    ∃ m', Step m (.run p) m' ∧ Within m' fs' p (.freed ip) ip := by
  have ⟨hs, hpc, hdev⟩ := h
  have hrun : m.run p = .ok (((m.setInode ip { m.inode ip with d := { (m.inode ip).d with type := 0 } }).iupdate ip).setPc p
      (.freed ip)) := by
    unfold Itable.run
    rw [hpc]
    rfl
  have hset := hs.setInode ip { m.inode ip with d := { (m.inode ip).d with type := 0 } } (hs.device ip)
  rw [hs.table] at hop
  refine ⟨_, h.step nofun hrun, (hset.iupdate ?_ hop).setPc _, pc_setPc _ p _, ?_⟩
  · rw [inode_setInode]
    exact hdev
  · rw [inode_setPc, inode_iupdate, inode_setInode]
    exact hdev

lemma run_freed (h : Within m fs p (.freed ip) ip) :
    ∃ m', Step m (.run p) m' ∧
      Within m' ((fs.setInode ip { fs.itable ip with valid := false }).releasesleep ip) p (.dropping ip) ip := by
  have ⟨hs, hpc, hdev⟩ := h
  have hrun : m.run p = .ok ((m.setInode ip { m.inode ip with valid := false, lock := none }).setPc p (.dropping ip)) := by
    unfold Itable.run
    rw [hpc]
    rfl
  have hset := hs.setInode ip { m.inode ip with valid := false, lock := none } (hs.device ip)
  have hrelease : (fs.setInode ip { fs.itable ip with valid := false }).releasesleep ip =
      fs.setInode ip { m.inode ip with valid := false, lock := none : Inode }.entry := by
    unfold Fs.releasesleep Fs.setInode
    simp only [Function.update_self, Function.update_idem, hs.table]
    rfl
  rw [hrelease]
  refine ⟨_, h.step nofun hrun, hset.setPc _, pc_setPc _ p _, ?_⟩
  rw [inode_setPc, inode_setInode]
  exact hdev

lemma run_dropping (h : Within m fs p (.dropping ip) ip) :
    ∃ m', Step m (.run p) m' ∧ m'.pc p = .idle ∧ m'.Shows (fs.idrop ip) := by
  have ⟨hs, hpc, _⟩ := h
  have hrun : m.run p = .ok ((m.drop p ip).setPc p .idle) := by
    unfold Itable.run
    rw [hpc]
    rfl
  exact ⟨_, h.step nofun hrun, pc_setPc _ p .idle, hs.drop.setPc .idle⟩

/-- The last reference to an inode without links: the lock is taken, and four parts follow. -/
lemma iput_last (h : m.Shows fs) (hen : m.Enabled (.iput p ip))
    (hlast : (m.inode ip).ref = 1 ∧ (m.inode ip).valid = true ∧ (m.inode ip).d.nlink = 0)
    (hop : fs.iputLast p ip = .ok fs') : Runs m (fs'.idrop ip) p (.iput ip) := by
  obtain ⟨fs1, h1, hop⟩ := bind_ok hop
  obtain ⟨fs2, h2, hop⟩ := bind_ok hop
  obtain ⟨fs3, h3, hop⟩ := bind_ok hop
  cases hop
  obtain ⟨hfree, hin⟩ := h.acquiresleep (w := .last ip) (by omega) h1
  have hlock : Step m (.iput p ip) ((m.setInode ip { m.inode ip with lock := some p }).setPc p (.last ip)) := by
    refine ⟨hen, ?_⟩
    change m.iput p ip = _
    unfold Itable.iput
    rw [if_pos hlast, if_neg (not_not_intro hfree)]
    rfl
  obtain ⟨m2, hrun2, hin2⟩ := run_last hin h2
  obtain ⟨m3, hrun3, hin3⟩ := run_truncated hin2 h3
  obtain ⟨m4, hrun4, hin4⟩ := run_freed hin3
  obtain ⟨m5, hrun5, hp, hs⟩ := run_dropping hin4
  exact ⟨[.run p, .run p, .run p, .run p], m5,
    Steps.cons hlock (Steps.cons hrun2 (Steps.cons hrun3 (Steps.cons hrun4 (Steps.cons hrun5 (Steps.nil m5))))), hp, hs⟩

lemma iput (h : m.Shows fs) (hen : m.Enabled (.iput p ip)) (hop : fs.iput p ip = .ok fs') :
    Runs m fs' p (.iput ip) := by
  unfold Fs.iput at hop
  rw [h.table] at hop
  dsimp only at hop
  split at hop
  · next hlast =>
    obtain ⟨fs1, h1, hop⟩ := bind_ok hop
    cases hop
    exact h.iput_last hen hlast h1
  · next hlast =>
    cases hop
    exact runs_one h.drop hen (if_neg hlast) hen.1

/-- Every call that returns in `Fs` is a run of `Itable`, and the table it leaves is shown again. -/
theorem call {c : Call} (h : m.Shows fs) (hinv : m.Inv) (hen : m.Enabled (c.act p)) (hop : c.exec fs p = .ok fs') :
    ∃ l m', Steps Step m (c.act p :: l) m' ∧ m'.pc p = .idle ∧ m'.Inv ∧ m'.Shows fs' := by
  have hruns : Runs m fs' p c := by
    cases c with
    | iget inum =>
      cases hget : fs.iget rootdev inum with
      | error e =>
        rw [Call.exec, hget] at hop
        cases hop
      | ok r =>
        rw [Call.exec, hget] at hop
        cases hop
        exact h.iget hen hget
    | idup ip =>
      cases hop
      exact h.idup hen (h.device ip ((hinv.sound ip).pos hen.2))
    | ilock ip => exact h.ilock hen hop
    | iunlock ip => exact h.iunlock hen hop
    | iput ip => exact h.iput hen hop
  obtain ⟨l, m', hsteps, hp, hs⟩ := hruns
  exact ⟨l, m', hsteps, hp, hsteps.invariant hinv fun _ _ _ hi hstep => hi.step hstep, hs⟩

end Itable.Shows

end FogOS.Kernel.Inodes
