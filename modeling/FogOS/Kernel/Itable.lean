import FogOS.Kernel.Fs

/-!
# References, locks and transactions held

What a piece of kernel code holds of the inode table and the log since a state `fs₀`: the
references it has taken and not yet put, the sleep-locks, and the operations it has begun and not
yet ended. Functions that read and write blocks hold nothing more afterwards than before.
-/

namespace FogOS.Kernel

open ByteMem

namespace Fs

/-- The reference counts of the inode table. -/
def refs (fs : Fs) : Fin ninode → Int := fun i => (fs.itable i).ref

/-- The holder of each inode's sleep-lock. -/
def locks (fs : Fs) : Fin ninode → Option Int :=
  fun i => if (fs.itable i).locked then some (fs.itable i).lockPid else none

/-- The inode each entry of the table stands for. -/
def ids (fs : Fs) : Fin ninode → Nat × Nat := fun i => ((fs.itable i).dev, (fs.itable i).inum)

/-- References, locks, identities and open operations are the same. -/
structure Quiet (fs fs' : Fs) : Prop where
  refs : fs'.refs = fs.refs
  locks : fs'.locks = fs.locks
  ids : fs'.ids = fs.ids
  outstanding : fs'.log.outstanding = fs.log.outstanding

variable {fs fs' fs'' : Fs} {pid : Int} {ip : Fin ninode}

lemma Quiet.refl (fs : Fs) : Quiet fs fs := ⟨rfl, rfl, rfl, rfl⟩

lemma Quiet.trans (h : Quiet fs fs') (h' : Quiet fs' fs'') : Quiet fs fs'' :=
  ⟨h'.refs.trans h.refs, h'.locks.trans h.locks, h'.ids.trans h.ids,
    h'.outstanding.trans h.outstanding⟩

/-- The inode table and the counter of open operations decide. -/
lemma Quiet.of_eq (ht : fs'.itable = fs.itable)
    (ho : fs'.log.outstanding = fs.log.outstanding) : Quiet fs fs' := by
  refine ⟨funext fun i => ?_, funext fun i => ?_, funext fun i => ?_, ho⟩
  · simp only [Fs.refs, ht]
  · simp only [Fs.locks, ht]
  · simp only [Fs.ids, ht]

/-- A write to the disk comes first. -/
lemma Quiet.after (h : Quiet fs' fs'') (ht : fs'.itable = fs.itable)
    (ho : fs'.log.outstanding = fs.log.outstanding) : Quiet fs fs'' :=
  (Quiet.of_eq ht ho).trans h

/-- An assignment to other fields of an entry. -/
lemma Quiet.setInode {v : Inode} (hr : v.ref = (fs.itable ip).ref)
    (hl : v.locked = (fs.itable ip).locked) (hp : v.lockPid = (fs.itable ip).lockPid)
    (hd : v.dev = (fs.itable ip).dev) (hi : v.inum = (fs.itable ip).inum) :
    Quiet fs (fs.setInode ip v) := by
  have hsame : ∀ i, ((fs.setInode ip v).itable i).ref = (fs.itable i).ref ∧
      ((fs.setInode ip v).itable i).locked = (fs.itable i).locked ∧
      ((fs.setInode ip v).itable i).lockPid = (fs.itable i).lockPid ∧
      ((fs.setInode ip v).itable i).dev = (fs.itable i).dev ∧
      ((fs.setInode ip v).itable i).inum = (fs.itable i).inum := by
    intro i
    by_cases h : i = ip
    · subst h
      simp [Fs.setInode, hr, hl, hp, hd, hi]
    · simp [Fs.setInode, Function.update_of_ne h]
  refine ⟨funext fun i => ?_, funext fun i => ?_, funext fun i => ?_, rfl⟩
  · exact (hsame i).1
  · simp only [Fs.locks, (hsame i).2.1, (hsame i).2.2.1]
  · simp only [Fs.ids, (hsame i).2.2.2.1, (hsame i).2.2.2.2]

/-! ### Blocks -/

lemma quiet_logWrite {b : Nat} (h : fs.logWrite b = .ok fs') : Quiet fs fs' := by
  obtain ⟨-, h⟩ := guard_ok h
  obtain ⟨-, h⟩ := guard_ok h
  split at h <;> cases h
  · exact Quiet.refl _
  · exact Quiet.of_eq rfl rfl

lemma quiet_balloc {b : Nat} (h : fs.balloc = .ok (b, fs')) : Quiet fs fs' := by
  unfold balloc at h
  split at h
  · cases h
    exact Quiet.refl _
  · obtain ⟨fs1, h1, h⟩ := bind_ok h
    obtain ⟨fs2, h2, h⟩ := bind_ok h
    cases h
    have q1 : Quiet fs fs1 := (quiet_logWrite h1).after rfl rfl
    exact q1.trans ((quiet_logWrite h2).after rfl rfl)

lemma quiet_bfree {b : Nat} {held : List Nat} (h : fs.bfree held b = .ok fs') : Quiet fs fs' := by
  obtain ⟨-, -, h⟩ := bind_ok h
  obtain ⟨-, h⟩ := guard_ok h
  exact (quiet_logWrite h).after rfl rfl

lemma quiet_bfreeAll {held l : List Nat} (h : fs.bfreeAll held l = .ok fs') : Quiet fs fs' := by
  unfold bfreeAll at h
  induction l generalizing fs with
  | nil =>
    cases h
    exact Quiet.refl _
  | cons b l ih =>
    rw [List.foldlM_cons] at h
    obtain ⟨fs1, h1, h⟩ := bind_ok h
    refine Quiet.trans ?_ (ih h)
    split at h1
    · cases h1
      exact Quiet.refl _
    · exact quiet_bfree h1

lemma quiet_bfreeIndirect {ind : Nat} (h : fs.bfreeIndirect ind = .ok fs') : Quiet fs fs' := by
  unfold bfreeIndirect at h
  split at h
  · cases h
    exact Quiet.refl _
  · obtain ⟨-, -, h⟩ := bind_ok h
    obtain ⟨fs1, h1, h⟩ := bind_ok h
    exact (quiet_bfreeAll h1).trans (quiet_bfree h)

lemma quiet_iupdate (h : fs.iupdate ip = .ok fs') : Quiet fs fs' := by
  obtain ⟨-, -, h⟩ := bind_ok h
  exact (quiet_logWrite h).after rfl rfl

lemma quiet_itrunc (h : fs.itrunc ip = .ok fs') : Quiet fs fs' := by
  obtain ⟨fs1, h1, h⟩ := bind_ok h
  obtain ⟨fs2, h2, h⟩ := bind_ok h
  have q := (quiet_bfreeAll h1).trans (quiet_bfreeIndirect h2)
  refine q.trans (Quiet.trans ?_ (quiet_iupdate h))
  exact Quiet.setInode rfl rfl rfl rfl rfl

lemma quiet_bmapDirect {bn addr : Nat} (h : fs.bmapDirect ip bn = .ok (addr, fs')) :
    Quiet fs fs' := by
  unfold bmapDirect at h
  dsimp only at h
  split at h
  · cases h
    exact Quiet.refl _
  · obtain ⟨⟨a, fs1⟩, h1, h⟩ := bind_ok h
    have q := quiet_balloc h1
    dsimp only at h
    split at h
    · cases h
      exact q
    · cases h
      exact q.trans (Quiet.setInode rfl rfl rfl rfl rfl)

lemma quiet_bmap {bn addr : Nat} (h : fs.bmap ip bn = .ok (addr, fs')) : Quiet fs fs' := by
  unfold bmap at h
  split at h
  · exact quiet_bmapDirect h
  split at h
  · obtain ⟨⟨ind, fs1⟩, h1, h⟩ := bind_ok h
    have q := quiet_bmapDirect h1
    dsimp only at h
    split at h
    · cases h
      exact q
    split at h
    · cases h
      exact q
    obtain ⟨⟨a, fs2⟩, h2, h⟩ := bind_ok h
    have q2 := q.trans (quiet_balloc h2)
    dsimp only at h
    split at h
    · cases h
      exact q2
    · obtain ⟨fs3, h3, h⟩ := bind_ok h
      cases h
      exact q2.trans ((quiet_logWrite h3).after rfl rfl)
  · cases h

lemma quiet_readiLoop {fuel off n : Nat} {acc r : List UInt8}
    (h : readiLoop ip fuel fs off n acc = .ok (r, fs')) : Quiet fs fs' := by
  induction fuel generalizing fs off n acc with
  | zero =>
    cases h
    exact Quiet.refl _
  | succ fuel ih =>
    rw [readiLoop] at h
    split at h
    · cases h
      exact Quiet.refl _
    · obtain ⟨⟨addr, fs1⟩, h1, h⟩ := bind_ok h
      have q := quiet_bmap h1
      dsimp only at h
      split at h
      · cases h
        exact q
      · exact q.trans (ih h)

lemma quiet_readi {off n : Nat} {r : List UInt8} (h : fs.readi ip off n = .ok (r, fs')) :
    Quiet fs fs' := by
  unfold readi at h
  dsimp only at h
  split at h
  · cases h
    exact Quiet.refl _
  · exact quiet_readiLoop h

/-! ### What is held -/

/-- Since `fs₀` the references `X` have been taken, `L` are the locks, and `n` operations more
are open. Entries that were in use stand for the same inode. -/
structure Holding (fs₀ : Fs) (X : Fin ninode → Int) (L : Fin ninode → Option Int) (n : Int)
    (fs : Fs) : Prop where
  refs : fs.refs = fs₀.refs + X
  nonneg : 0 ≤ X
  ids : ∀ i, 0 < fs₀.refs i → fs.ids i = fs₀.ids i
  locks : fs.locks = L
  outstanding : fs.log.outstanding = fs₀.log.outstanding + n

namespace Holding

variable {fs₀ : Fs} {X : Fin ninode → Int} {L : Fin ninode → Option Int} {n : Int}

lemma refl (fs : Fs) : Holding fs 0 fs.locks 0 fs :=
  ⟨by simp, le_rfl, fun _ _ => rfl, rfl, by simp⟩

lemma quiet (h : Holding fs₀ X L n fs) (q : Quiet fs fs') : Holding fs₀ X L n fs' :=
  ⟨q.refs.trans h.refs, h.nonneg, fun i hi => by rw [q.ids]; exact h.ids i hi,
    q.locks.trans h.locks, q.outstanding.trans h.outstanding⟩

lemma beginOp (h : Holding fs₀ X L n fs) (hop : fs.beginOp = .ok fs') :
    Holding fs₀ X L (n + 1) fs' := by
  obtain ⟨-, hop⟩ := guard_ok hop
  obtain ⟨-, hop⟩ := guard_ok hop
  cases hop
  refine ⟨h.refs, h.nonneg, h.ids, h.locks, ?_⟩
  change fs.log.outstanding + 1 = _
  rw [h.outstanding, add_assoc]

lemma endOp (h : Holding fs₀ X L n fs) (hop : fs.endOp = .ok fs') :
    Holding fs₀ X L (n - 1) fs' := by
  obtain ⟨-, hop⟩ := guard_ok hop
  have hout : fs.log.outstanding - 1 = fs₀.log.outstanding + (n - 1) := by
    rw [h.outstanding]
    ring
  split at hop <;> cases hop
  · exact ⟨h.refs, h.nonneg, h.ids, h.locks, hout⟩
  · exact ⟨h.refs, h.nonneg, h.ids, h.locks, hout⟩

/-- A reference to an entry is taken; a new identity is given only to an entry not in use. -/
lemma take {v : Inode} (h : Holding fs₀ X L n fs) (hr : v.ref = (fs.itable ip).ref + 1)
    (hl : v.locked = (fs.itable ip).locked) (hp : v.lockPid = (fs.itable ip).lockPid)
    (hid : (v.dev, v.inum) = fs.ids ip ∨ fs.refs ip = 0) :
    Holding fs₀ (X + Pi.single ip 1) L n (fs.setInode ip v) := by
  refine ⟨funext fun i => ?_, ?_, fun i hi => ?_, ?_, h.outstanding⟩
  · have hX := congrFun h.refs i
    by_cases hip : i = ip
    · subst hip
      simp only [Fs.refs, Pi.add_apply] at hX
      simp only [Fs.refs, setInode, Function.update_self, hr, Pi.add_apply, Pi.single_eq_same, hX]
      ring
    · simp only [Fs.refs, Pi.add_apply] at hX
      simp [Fs.refs, setInode, hip, hX]
  · refine add_nonneg h.nonneg fun i => ?_
    by_cases hip : i = ip
    · subst hip
      simp
    · simp [hip]
  · rw [← h.ids i hi]
    by_cases hip : i = ip
    · subst hip
      rcases hid with hid | hzero
      · simpa [Fs.ids, setInode] using hid
      · have hX := congrFun h.refs i
        have hpos : 0 ≤ X i := h.nonneg i
        rw [hzero, Pi.add_apply] at hX
        omega
    · simp [Fs.ids, setInode, hip]
  · rw [← h.locks]
    funext i
    by_cases hip : i = ip
    · subst hip
      simp [Fs.locks, setInode, hl, hp]
    · simp [Fs.locks, setInode, hip]

lemma iget {dev inum : Nat} (h : Holding fs₀ X L n fs) (hop : fs.iget dev inum = .ok (ip, fs')) :
    Holding fs₀ (X + Pi.single ip 1) L n fs' := by
  unfold Fs.iget at hop
  split at hop
  · cases hop
    exact h.take rfl rfl rfl (Or.inl rfl)
  · split at hop
    · cases hop
    · next i hfind =>
      cases hop
      have hzero : (fs.itable ip).ref = 0 := by simpa using List.find?_some hfind
      exact h.take (by simp [hzero]) rfl rfl (Or.inr hzero)

lemma idup (h : Holding fs₀ X L n fs) (ip : Fin ninode) :
    Holding fs₀ (X + Pi.single ip 1) L n (fs.idup ip) :=
  h.take rfl rfl rfl (Or.inl rfl)

/-- A lock changes hands. -/
lemma relock {v : Inode} {l : Option Int} (h : Holding fs₀ X L n fs)
    (hl : (if v.locked then some v.lockPid else none) = l) (hr : v.ref = (fs.itable ip).ref)
    (hd : v.dev = (fs.itable ip).dev) (hi : v.inum = (fs.itable ip).inum) :
    Holding fs₀ X (Function.update L ip l) n (fs.setInode ip v) := by
  refine ⟨?_, h.nonneg, fun i hpos => ?_, ?_, h.outstanding⟩
  · rw [← h.refs]
    funext i
    by_cases hip : i = ip
    · subst hip
      simp [Fs.refs, setInode, hr]
    · simp [Fs.refs, setInode, hip]
  · rw [← h.ids i hpos]
    by_cases hip : i = ip
    · subst hip
      simp [Fs.ids, setInode, hd, hi]
    · simp [Fs.ids, setInode, hip]
  · funext i
    by_cases hip : i = ip
    · subst hip
      simp [Fs.locks, setInode, hl]
    · have hL := congrFun h.locks i
      simp only [Fs.locks] at hL
      simp [Fs.locks, setInode, hip, hL]

lemma acquiresleep (h : Holding fs₀ X L n fs) (hop : fs.acquiresleep pid ip = .ok fs') :
    L ip = none ∧ Holding fs₀ X (Function.update L ip (some pid)) n fs' := by
  obtain ⟨hfree, hop⟩ := guard_ok hop
  cases hop
  have hL := congrFun h.locks ip
  simp only [Fs.locks, if_neg hfree] at hL
  exact ⟨hL.symm, h.relock rfl rfl rfl rfl⟩

lemma releasesleep (h : Holding fs₀ X L n fs) (ip : Fin ninode) :
    Holding fs₀ X (Function.update L ip none) n (fs.releasesleep ip) :=
  h.relock rfl rfl rfl rfl

lemma ilock (h : Holding fs₀ X L n fs) (hop : fs.ilock pid ip = .ok fs') :
    L ip = none ∧ Holding fs₀ X (Function.update L ip (some pid)) n fs' := by
  obtain ⟨-, hop⟩ := guard_ok hop
  obtain ⟨fs1, h1, hop⟩ := bind_ok hop
  obtain ⟨hL, hh⟩ := h.acquiresleep h1
  refine ⟨hL, ?_⟩
  split at hop
  · cases hop
    exact hh
  · obtain ⟨-, hop⟩ := guard_ok hop
    cases hop
    exact hh.quiet (Quiet.setInode rfl rfl rfl rfl rfl)

lemma iunlock (h : Holding fs₀ X L n fs) (hop : fs.iunlock pid ip = .ok fs') :
    L ip = some pid ∧ Holding fs₀ X (Function.update L ip none) n fs' := by
  obtain ⟨hheld, hop⟩ := guard_ok hop
  cases hop
  refine ⟨?_, h.releasesleep ip⟩
  rw [← h.locks]
  simp only [Bool.or_eq_true, not_or, Bool.not_eq_true, Bool.not_eq_eq_eq_not, Bool.not_true] at hheld
  have hb : fs.holdingsleep pid ip = true := by simpa using hheld.1
  simp only [holdingsleep, Bool.and_eq_true, beq_iff_eq] at hb
  simp [Fs.locks, hb.1, hb.2]

/-- `ip->ref--`. -/
lemma idrop (h : Holding fs₀ X L n fs) (hX : 1 ≤ X ip) :
    Holding fs₀ (X - Pi.single ip 1) L n (fs.idrop ip) := by
  refine ⟨funext fun i => ?_, fun i => ?_, fun i hi => ?_, ?_, h.outstanding⟩
  · have hr := congrFun h.refs i
    simp only [Fs.refs, Pi.add_apply] at hr
    by_cases hip : i = ip
    · subst hip
      simp only [Fs.refs, Fs.idrop, setInode, Function.update_self, Pi.add_apply, Pi.sub_apply,
        Pi.single_eq_same, hr]
      ring
    · simp [Fs.refs, Fs.idrop, setInode, hip, hr]
  · by_cases hip : i = ip
    · subst hip
      simpa using hX
    · simpa [hip] using h.nonneg i
  · rw [← h.ids i hi]
    by_cases hip : i = ip
    · subst hip
      simp [Fs.ids, Fs.idrop, setInode]
    · simp [Fs.ids, Fs.idrop, setInode, hip]
  · rw [← h.locks]
    funext i
    by_cases hip : i = ip
    · subst hip
      simp [Fs.locks, Fs.idrop, setInode]
    · simp [Fs.locks, Fs.idrop, setInode, hip]

lemma iputLast (h : Holding fs₀ X L n fs) (hop : fs.iputLast pid ip = .ok fs') :
    Holding fs₀ X L n fs' := by
  obtain ⟨fs1, h1, hop⟩ := bind_ok hop
  obtain ⟨fs2, h2, hop⟩ := bind_ok hop
  obtain ⟨fs3, h3, hop⟩ := bind_ok hop
  cases hop
  obtain ⟨hL, hh⟩ := h.acquiresleep h1
  have q3 : Quiet fs2 fs3 := by
    refine Quiet.trans ?_ (quiet_iupdate h3)
    exact Quiet.setInode rfl rfl rfl rfl rfl
  have q4 : Quiet fs3 (fs3.setInode ip { fs3.itable ip with valid := false }) :=
    Quiet.setInode rfl rfl rfl rfl rfl
  have hh4 := (((hh.quiet (quiet_itrunc h2)).quiet q3).quiet q4).releasesleep ip
  rwa [Function.update_idem, ← hL, Function.update_eq_self] at hh4

lemma iput (h : Holding fs₀ X L n fs) (hX : 1 ≤ X ip) (hop : fs.iput pid ip = .ok fs') :
    Holding fs₀ (X - Pi.single ip 1) L n fs' := by
  unfold Fs.iput at hop
  dsimp only at hop
  split at hop
  · obtain ⟨fs1, h1, hop⟩ := bind_ok hop
    cases hop
    exact (h.iputLast h1).idrop hX
  · cases hop
    exact h.idrop hX

lemma iunlockput (h : Holding fs₀ X L n fs) (hX : 1 ≤ X ip)
    (hop : fs.iunlockput pid ip = .ok fs') :
    Holding fs₀ (X - Pi.single ip 1) (Function.update L ip none) n fs' := by
  obtain ⟨fs1, h1, hop⟩ := bind_ok hop
  exact (h.iunlock h1).2.iput hX hop

/-! ### Paths -/

lemma dirlookupLoop {fuel off : Nat} {name : List UInt8} {r : Option (Fin ninode)}
    (h : Holding fs₀ X L n fs) (hop : Fs.dirlookupLoop ip name fuel fs off = .ok (r, fs')) :
    Holding fs₀ (X + r.elim 0 fun next => Pi.single next 1) L n fs' := by
  induction fuel generalizing fs off with
  | zero =>
    cases hop
    simpa using h
  | succ fuel ih =>
    rw [Fs.dirlookupLoop] at hop
    split at hop
    · cases hop
      simpa using h
    · obtain ⟨⟨de, fs1⟩, h1, hop⟩ := bind_ok hop
      have hh := h.quiet (quiet_readi h1)
      obtain ⟨-, hop⟩ := guard_ok hop
      split at hop
      · obtain ⟨⟨next, fs2⟩, h2, hop⟩ := bind_ok hop
        cases hop
        exact hh.iget h2
      · exact ih hh hop

lemma dirlookup {name : List UInt8} {r : Option (Fin ninode)} (h : Holding fs₀ X L n fs)
    (hop : fs.dirlookup ip name = .ok (r, fs')) :
    Holding fs₀ (X + r.elim 0 fun next => Pi.single next 1) L n fs' := by
  obtain ⟨-, hop⟩ := guard_ok hop
  exact h.dirlookupLoop hop

/-- The reference to the directory is exchanged for one to the file. -/
lemma namexLoop {nameiparent : Bool} {fuel : Nat} {path : List UInt8}
    {r : Option (Fin ninode × List UInt8)} (h : Holding fs₀ (X + Pi.single ip 1) L n fs)
    (hX : 0 ≤ X) (hop : Fs.namexLoop pid nameiparent fuel fs ip path = .ok (r, fs')) :
    Holding fs₀ (X + r.elim 0 fun p => Pi.single p.1 1) L n fs' := by
  induction fuel generalizing fs ip path with
  | zero => cases hop
  | succ fuel ih =>
    rw [Fs.namexLoop] at hop
    have hone : ∀ Y : Fin ninode → Int, 0 ≤ Y →
        1 ≤ (X + Pi.single ip 1 + Y : Fin ninode → Int) ip := by
      intro Y hY
      have h1 : 0 ≤ X ip := hX ip
      have h2 : 0 ≤ Y ip := hY ip
      simp only [Pi.add_apply, Pi.single_eq_same]
      omega
    have hback : ∀ Y : Fin ninode → Int,
        (X + Pi.single ip 1 + Y - Pi.single ip 1 : Fin ninode → Int) = X + Y := by
      intro Y
      abel
    split at hop
    · split at hop
      · obtain ⟨fs1, h1, hop⟩ := bind_ok hop
        cases hop
        have hh := h.iput (by simpa using hone 0 le_rfl) h1
        have := hback 0
        simp only [add_zero] at this
        rw [this] at hh
        simpa using hh
      · cases hop
        simpa using h
    · obtain ⟨fs1, h1, hop⟩ := bind_ok hop
      obtain ⟨hL, hh1⟩ := h.ilock h1
      split at hop
      · obtain ⟨fs2, h2, hop⟩ := bind_ok hop
        cases hop
        have hh := hh1.iunlockput (by simpa using hone 0 le_rfl) h2
        have := hback 0
        simp only [add_zero] at this
        rw [this, Function.update_idem, ← hL, Function.update_eq_self] at hh
        simpa using hh
      split at hop
      · obtain ⟨fs2, h2, hop⟩ := bind_ok hop
        cases hop
        have hh := (hh1.iunlock h2).2
        rw [Function.update_idem, ← hL, Function.update_eq_self] at hh
        exact hh
      obtain ⟨⟨next, fs2⟩, h2, hop⟩ := bind_ok hop
      obtain ⟨fs3, h3, hop⟩ := bind_ok hop
      have hnext : 0 ≤ next.elim (0 : Fin ninode → Int) fun next => Pi.single next 1 := by
        cases next with
        | none => exact le_rfl
        | some next =>
          intro i
          by_cases hi : i = next
          · subst hi
            simp
          · simp [hi]
      have hh := (hh1.dirlookup h2).iunlockput (hone _ hnext) h3
      rw [hback, Function.update_idem, ← hL, Function.update_eq_self] at hh
      cases next with
      | none =>
        cases hop
        exact hh
      | some next => exact ih hh hop

lemma namei {cwd r : Option (Fin ninode)} {path : List UInt8} (h : Holding fs₀ X L n fs)
    (hop : fs.namei pid cwd path = .ok (r, fs')) :
    Holding fs₀ (X + r.elim 0 fun ip => Pi.single ip 1) L n fs' := by
  obtain ⟨⟨r1, fs1⟩, h1, hop⟩ := bind_ok hop
  cases hop
  obtain ⟨⟨ip, fs2⟩, h2, h1⟩ := bind_ok h1
  have hstart : Holding fs₀ (X + Pi.single ip 1) L n fs2 := by
    unfold Fs.namexStart at h2
    split at h2
    · exact h.iget h2
    · split at h2
      · cases h2
      · cases h2
        exact h.idup ip
  have hh := hstart.namexLoop h.nonneg h1
  cases r1 <;> exact hh

end Holding

end Fs

end FogOS.Kernel
