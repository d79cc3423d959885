import FogOS.Kernel.Paths
import FogOS.Kernel.Runs

/-!
# What kexec holds when it returns

The transactions that `kexec` has begun and not ended, the inode locks and the inode references that
it has kept. It holds nothing more than before, unless it has followed a `#!` line: the script is left
locked, with its reference, in an operation that is never ended.
-/

namespace FogOS.Kernel

open ByteMem

variable {s t : State} {i : Fin nproc} {ip : Fin ninode} {path : CStr} {argv : List CStr}

namespace Fs

variable {fs fs' fs₀ : Fs} {pid : Int} {X : Fin ninode → Int} {L : Fin ninode → Option Int} {n : Int}

/-- Open operations, inode locks and inode references are as before; entries in use stand for the
same inodes. -/
structure Balanced (fs fs' : Fs) : Prop where
  outstanding : fs'.log.outstanding = fs.log.outstanding
  locks : fs'.locks = fs.locks
  refs : fs'.refs = fs.refs
  ids : ∀ i, 0 < fs.refs i → fs'.ids i = fs.ids i

lemma Holding.balanced (h : Holding fs 0 fs.locks 0 fs') : Balanced fs fs' :=
  ⟨by simpa using h.outstanding, h.locks, by simpa using h.refs, h.ids⟩

/-- The first two bytes of the file that a path leads to. -/
def firstTwo (fs : Fs) (pid : Int) (cwd : Option (Fin ninode)) (path : List UInt8) :
    Except Stop (Option (List UInt8)) := do
  let fs ← fs.beginOp
  match ← fs.namei pid cwd path with
  | (none, _) => pure none
  | (some ip, fs) =>
    let fs ← fs.ilock pid ip
    let (bytes, _) ← fs.readi ip 0 2
    pure (some bytes)

/-- The path leads to a file that begins with `#!`. -/
def NamesScript (fs : Fs) (pid : Int) (cwd : Option (Fin ninode)) (path : List UInt8) : Prop :=
  fs.firstTwo pid cwd path = .ok (some shebang)

lemma Graph.log (h : Graph fs) (l : Log) : Graph { fs with log := l } := by
  refine ⟨h.root, fun j hj => ?_, h.named⟩
  obtain ⟨htype, hdense, hwhole⟩ := h.directory j hj
  exact ⟨htype, ⟨hdense.size, hdense.blocks⟩, hwhole⟩

/-- An inode that is reached is allocated. -/
lemma Graph.type_of_walk (h : Graph fs) {j k : Nat} {names : List (List UInt8)}
    (hj : (fs.inode j).type ≠ 0) (hw : fs.walk j names = some k) : (fs.inode k).type ≠ 0 := by
  induction names generalizing j with
  | nil =>
    cases hw
    exact hj
  | cons name names ih =>
    rw [walk] at hw
    split at hw
    · next hdir =>
      obtain ⟨m, hm, hw⟩ := Option.bind_eq_some_iff.mp hw
      obtain ⟨e, he, hpos, rfl⟩ := mem_of_lookup hm
      exact ih (h.named j hdir e he hpos) hw
    · cases hw

lemma walk_log (fs : Fs) (l : Log) (j : Nat) (names : List (List UInt8)) :
    ({ fs with log := l } : Fs).walk j names = fs.walk j names := by
  induction names generalizing j with
  | nil => rfl
  | cons name names ih =>
    rw [walk, walk]
    refine if_congr Iff.rfl ?_ rfl
    exact congrArg _ (funext ih)

/-- In a file system that is in order, this is a matter of the names and of the contents. -/
lemma namesScript_iff {cwd : Option (Fin ninode)} {path : List UInt8} (ht : Distinct fs) (hg : Graph fs)
    (hl : Linked fs) (hspare : 2 ≤ fs.spare) (hunlocked : ∀ ip, (fs.itable ip).locked = false)
    (hstart : Starts fs cwd path) (hdense : ∀ j, (fs.inode j).type ≠ 0 → Dense fs (fs.inode j))
    (hbegin : fs.beginOp = .ok fs') : NamesScript fs pid cwd path ↔
      ∃ k, fs.walk (fs.origin cwd path) (components path) = some k ∧
        (fs.content (fs.inode k)).take 2 = shebang := by
  obtain ⟨l, rfl⟩ : ∃ l, fs' = { fs with log := l } := by
    obtain ⟨-, hbegin⟩ := guard_ok hbegin
    obtain ⟨-, hbegin⟩ := guard_ok hbegin
    cases hbegin
    exact ⟨_, rfl⟩
  have ht' : Distinct { fs with log := l } := ⟨ht.nonneg, ht.device, ht.unique⟩
  have hl' : Linked { fs with log := l } := ⟨hl.root, hl.named⟩
  obtain ⟨r, fs₂, hrun, hc, hh, hres⟩ :=
    @namex_found _ path _ ht' (hg.log l) hl' hspare hunlocked hstart pid false
  simp only [resolve, Bool.false_eq_true, if_false, walk_log] at hres
  unfold NamesScript firstTwo
  rw [hbegin, ok_bind, namei, hrun, ok_bind]
  change _ = (fs.walk (fs.origin cwd path) (components path)).map _ at hres
  cases r with
  | none =>
    rw [Option.map_eq_none_iff.mp hres.symm]
    refine iff_of_false ?_ ?_
    · intro h
      cases Except.ok.inj h
    · rintro ⟨k, hk, -⟩
      cases hk
  | some p =>
    obtain ⟨k, hk, heq⟩ := Option.map_eq_some_iff.mp hres.symm
    have hinum : k = (fs₂.itable p.1).inum := (Prod.mk.inj heq).1
    have horigin : (fs.inode (fs.origin cwd path)).type ≠ 0 := by
      unfold origin
      split
      · exact hg.root
      · next hrel =>
        obtain ⟨ip, rfl, -, htype⟩ := hstart hrel
        exact htype
    have htype := hg.type_of_walk horigin hk
    have href : 0 < (fs₂.itable p.1).ref := by
      have hrefs := congrFun hh.refs p.1
      have hpos := ht.nonneg p.1
      simp only [Fs.refs, Pi.add_apply, Option.elim_some, Pi.single_eq_same] at hrefs
      omega
    have hfree : (fs₂.itable p.1).locked = false := by
      have hlock := congrFun hh.locks p.1
      simpa [Fs.locks] using hlock
    obtain ⟨fs₃, hlock, hc₃, -, hd, -⟩ := hc.ilock pid href hfree (by rwa [← hinum])
    rw [← hinum] at hd
    have hsame : ∀ d, fs₃.fileBlock d = fs.fileBlock d ∧ fs₃.content d = fs.content d := by
      intro d
      rw [hc₃.rest]
      exact ⟨rfl, rfl⟩
    have hd' : (fs₃.itable p.1).d = fs.inode k := hd
    have hd₃ : Dense fs₃ (fs₃.itable p.1).d := by
      rw [hd']
      refine ⟨(hdense k htype).size, fun bn hbn => ?_⟩
      rw [(hsame _).1]
      exact (hdense k htype).blocks bn hbn
    have hread := @readi_ok fs₃ p.1 hd₃ 0 2 (by decide)
    rw [hd', (hsame _).2, List.drop_zero] at hread
    change (fs₂.ilock pid p.1 >>= fun fs => fs.readi p.1 0 2 >>= fun b => pure (some b.1)) = _ ↔ _
    rw [hlock, ok_bind, hread]
    constructor
    · intro h
      exact ⟨k, hk, Option.some.inj (Except.ok.inj h)⟩
    · rintro ⟨k', hk', hbytes⟩
      obtain rfl : k = k' := Option.some.inj (hk.symm.trans hk')
      rw [hbytes]
      rfl

lemma quiet_loadsegLoop {pt : Pagetable} {va offset sz m x : Nat} {k k' : Kmem} {b : Bool}
    (h : loadsegLoop pt va ip offset sz m k fs x = .ok (b, k', fs')) : Quiet fs fs' := by
  induction m generalizing k fs x with
  | zero =>
    cases h
    exact Quiet.refl _
  | succ m ih =>
    rw [loadsegLoop] at h
    obtain ⟨pa, -, h⟩ := bind_ok h
    obtain ⟨-, h⟩ := guard_ok h
    dsimp only at h
    generalize (if sz - x < pgsize then sz - x else pgsize) = len at h
    obtain ⟨⟨bytes, fs₁⟩, hread, h⟩ := bind_ok h
    have hquiet := quiet_readi hread
    dsimp only at h
    split at h
    · cases h
      exact hquiet
    · exact hquiet.trans (ih h)

lemma quiet_loadSegments {m : Nat} {k k' : Kmem} {pt pt' : Pagetable} {sz sz' off : Nat} {b : Bool}
    (h : loadSegments ip m k fs pt sz off = .ok (b, sz', k', fs', pt')) : Quiet fs fs' := by
  induction m generalizing k fs pt sz off with
  | zero =>
    cases h
    exact Quiet.refl _
  | succ m ih =>
    rw [loadSegments] at h
    obtain ⟨⟨ph, fs₁⟩, hread, h⟩ := bind_ok h
    have hquiet := quiet_readi hread
    dsimp only at h
    split at h
    · cases h
      exact hquiet
    split at h
    · exact hquiet.trans (ih h)
    split at h
    · cases h
      exact hquiet
    split at h
    · cases h
      exact hquiet
    split at h
    · cases h
      exact hquiet
    obtain ⟨⟨sz1, k₁, pt₁⟩, -, h⟩ := bind_ok h
    dsimp only at h
    split at h
    · cases h
      exact hquiet
    obtain ⟨⟨loaded, k₂, fs₂⟩, hseg, h⟩ := bind_ok h
    have hquiet₂ := hquiet.trans (quiet_loadsegLoop hseg)
    dsimp only at h
    split at h
    · cases h
      exact hquiet₂
    · exact hquiet₂.trans (ih h)

lemma quiet_readInterp {m off : Nat} {acc r : List UInt8}
    (h : readInterp ip m fs off acc = .ok (r, fs')) : Quiet fs fs' := by
  induction m generalizing fs off acc with
  | zero =>
    cases h
    exact Quiet.refl _
  | succ m ih =>
    rw [readInterp] at h
    obtain ⟨⟨c, fs₁⟩, hread, h⟩ := bind_ok h
    have hquiet := quiet_readi hread
    dsimp only at h
    split at h
    · split at h
      · cases h
        exact hquiet
      · exact hquiet.trans (ih h)
    · cases h
      exact hquiet

/-- The file is closed, and the operation ends. -/
lemma Holding.close (h : Holding fs₀ (X + Pi.single ip 1) (Function.update L ip (some pid)) (n + 1) fs)
    (hX : 0 ≤ X) (hL : L ip = none) {fs₁ : Fs} (hput : fs.iunlockput pid ip = .ok fs₁)
    (hend : fs₁.endOp = .ok fs') : Holding fs₀ X L n fs' := by
  have hone : 1 ≤ (X + Pi.single ip 1 : Fin ninode → Int) ip := by
    have hpos : 0 ≤ X ip := hX ip
    simp only [Pi.add_apply, Pi.single_eq_same]
    omega
  have hh := (h.iunlockput hone hput).endOp hend
  rwa [add_sub_cancel_right, add_sub_cancel_right, Function.update_idem, ← hL,
    Function.update_eq_self] at hh

end Fs

open Fs

/-- What is held while the file `ip` is open. -/
def Opened (s₀ s : State) (i : Fin nproc) (ip : Fin ninode) : Prop :=
  s₀.fs.locks ip = none ∧ Holding s₀.fs (0 + Pi.single ip 1)
    (Function.update s₀.fs.locks ip (some (s.proc i).pid)) (0 + 1) s.fs

lemma loadBad_holding {s₀ : State} (h : Opened s₀ s i ip) {r : Option Image}
    (hload : loadBad s i ip = .ok (r, t)) : Holding s₀.fs 0 s₀.fs.locks 0 t.fs := by
  obtain ⟨fs₁, hput, hload⟩ := bind_ok hload
  obtain ⟨fs₂, hend, hload⟩ := bind_ok hload
  cases hload
  exact h.2.close le_rfl h.1 hput hend

lemma loadElf_holding {s₀ : State} (h : Opened s₀ s i ip) {r : Option Image}
    (hload : loadElf s i ip path argv = .ok (r, t)) : Holding s₀.fs 0 s₀.fs.locks 0 t.fs := by
  unfold loadElf at hload
  obtain ⟨⟨hdr, fs₁⟩, hread, hload⟩ := bind_ok hload
  have hopen : Opened s₀ { s with fs := fs₁ } i ip := ⟨h.1, h.2.quiet (quiet_readi hread)⟩
  dsimp only at hload
  split at hload
  · exact loadBad_holding hopen hload
  split at hload
  · exact loadBad_holding hopen hload
  obtain ⟨tf, -, hload⟩ := bind_ok hload
  obtain ⟨⟨found, k₁⟩, -, hload⟩ := bind_ok hload
  cases found with
  | none => exact @loadBad_holding { s with kmem := k₁, fs := fs₁ } _ _ _ _ hopen _ hload
  | some pt₀ =>
    obtain ⟨⟨loaded, sz, k₂, fs₂, pt⟩, hseg, hload⟩ := bind_ok hload
    have hheld := hopen.2.quiet (quiet_loadSegments hseg)
    dsimp only at hload
    split at hload
    · obtain ⟨k₃, -, hload⟩ := bind_ok hload
      exact @loadBad_holding { s with kmem := k₃, fs := fs₂ } _ _ _ _ ⟨h.1, hheld⟩ _ hload
    · obtain ⟨fs₃, hput, hload⟩ := bind_ok hload
      obtain ⟨fs₄, hend, hload⟩ := bind_ok hload
      cases hload
      exact hheld.close le_rfl h.1 hput hend

/-- The file has been found and locked, in an operation of its own. -/
lemma opened_of_namei {fs₁ fs₂ fs₃ : Fs} (hbegin : s.fs.beginOp = .ok fs₁)
    (hnamei : fs₁.namei (s.proc i).pid (s.proc i).cwd path.bytes = .ok (some ip, fs₂))
    (hlock : fs₂.ilock (s.proc i).pid ip = .ok fs₃) : Opened s { s with fs := fs₃ } i ip :=
  (((Holding.refl s.fs).beginOp hbegin).namei hnamei).ilock hlock

/-- Finding the image: without a `#!` line all is given back, with one an operation stays open. -/
lemma loadImage_holding {fuel : Nat} {r : Option Image} (h : loadImage fuel s i path argv = .ok (r, t)) :
    (NamesScript s.fs (s.proc i).pid (s.proc i).cwd path.bytes →
      s.fs.log.outstanding < t.fs.log.outstanding) ∧
    (¬ NamesScript s.fs (s.proc i).pid (s.proc i).cwd path.bytes →
      Holding s.fs 0 s.fs.locks 0 t.fs) := by
  induction fuel generalizing s path argv with
  | zero => cases h
  | succ fuel ih =>
    rw [loadImage] at h
    obtain ⟨fs₁, hbegin, h⟩ := bind_ok h
    obtain ⟨⟨found, fs₂⟩, hnamei, h⟩ := bind_ok h
    cases found with
    | none =>
      obtain ⟨fs₃, hend, h⟩ := bind_ok h
      cases h
      have hnone : ¬ NamesScript s.fs (s.proc i).pid (s.proc i).cwd path.bytes := by
        intro hscript
        unfold NamesScript firstTwo at hscript
        rw [hbegin, ok_bind, hnamei] at hscript
        cases hscript
      have hh := (((Holding.refl s.fs).beginOp hbegin).namei hnamei).endOp hend
      refine ⟨fun hscript => absurd hscript hnone, fun _ => ?_⟩
      simpa using hh
    | some ip =>
      obtain ⟨fs₃, hlock, h⟩ := bind_ok h
      obtain ⟨⟨first, fs₄⟩, hread, h⟩ := bind_ok h
      have hopen : Opened s { s with fs := fs₄ } i ip := by
        obtain ⟨hfree, hh⟩ := opened_of_namei hbegin hnamei hlock
        exact ⟨hfree, hh.quiet (quiet_readi hread)⟩
      have hiff : NamesScript s.fs (s.proc i).pid (s.proc i).cwd path.bytes ↔ first = shebang := by
        unfold NamesScript firstTwo
        rw [hbegin, ok_bind, hnamei, ok_bind]
        dsimp only
        rw [hlock, ok_bind, hread]
        constructor
        · intro hscript
          exact Option.some.inj (Except.ok.inj hscript)
        · rintro rfl
          rfl
      dsimp only at h
      rw [hiff]
      split at h
      · next hlen =>
        have hne : first ≠ shebang := by
          rintro rfl
          exact hlen rfl
        exact ⟨fun heq => absurd heq hne, fun _ => @loadBad_holding { s with fs := fs₄ } _ _ _ _ hopen _ h⟩
      split at h
      · next heq =>
        refine ⟨fun _ => ?_, fun hne => absurd heq hne⟩
        obtain ⟨⟨line, fs₅⟩, hline, h⟩ := bind_ok h
        have hout := (hopen.2.quiet (quiet_readInterp hline)).outstanding
        obtain ⟨hscript, hplain⟩ := @ih { s with fs := fs₅ } _ _ h
        by_cases hs : NamesScript fs₅ (s.proc i).pid (s.proc i).cwd (toCStr line).bytes
        · have hlt := hscript hs
          dsimp only at hlt
          omega
        · have heq' := (hplain hs).outstanding
          dsimp only at heq'
          omega
      · next hne =>
        exact ⟨fun heq => absurd heq hne, fun _ => @loadElf_holding { s with fs := fs₄ } _ _ _ _ _ _ hopen _ h⟩

/-! ### After the file has been closed -/

lemma setupStack_fs {img : Image} {r : Option Ready} (h : setupStack s i img = .ok (r, t)) : t.fs = s.fs := by
  have hbad : ∀ {s' : State} {ppt k pt sz}, stackBad s' i ppt k pt sz = .ok (r, t) → t.fs = s'.fs := by
    intro s' ppt k pt sz hstop
    obtain ⟨k', -, hstop⟩ := bind_ok hstop
    cases hstop
    rfl
  unfold setupStack at h
  dsimp only at h
  obtain ⟨ppt, -, h⟩ := bind_ok h
  obtain ⟨⟨sz1, k, pt⟩, -, h⟩ := bind_ok h
  dsimp only at h
  split at h
  · exact (hbad h).trans rfl
  obtain ⟨pt', -, h⟩ := bind_ok h
  obtain ⟨⟨pushed, k', ppt'⟩, -, h⟩ := bind_ok h
  cases pushed with
  | none =>
    dsimp only at h
    exact (hbad h).trans rfl
  | some st =>
    obtain ⟨⟨sp, k'', ppt''⟩, -, h⟩ := bind_ok h
    cases sp with
    | none =>
      dsimp only at h
      exact (hbad h).trans rfl
    | some sp =>
      cases h
      rfl

lemma commitImage_fs {r : Ready} (h : commitImage s i r = .ok t) : t.fs = s.fs := by
  unfold commitImage at h
  dsimp only at h
  obtain ⟨tf, -, h⟩ := bind_ok h
  obtain ⟨old, -, h⟩ := bind_ok h
  obtain ⟨k, -, h⟩ := bind_ok h
  cases h
  rfl

/-- What `kexec` leaves of the file system is what finding the image has left. -/
lemma kexec_fs {r : Int} (h : kexec s i path argv = .ok (r, t)) :
    ∃ img u, loadImage (execDepth s) s i path argv = .ok (img, u) ∧ t.fs = u.fs := by
  obtain ⟨⟨ready, v⟩, hprep, h⟩ := bind_ok h
  obtain ⟨⟨img, u⟩, hload, hprep⟩ := bind_ok hprep
  refine ⟨img, u, hload, ?_⟩
  have hv : v.fs = u.fs := by
    cases img with
    | none =>
      cases hprep
      rfl
    | some img => exact setupStack_fs hprep
  cases ready with
  | none =>
    cases h
    exact hv
  | some ready =>
    obtain ⟨w, hcommit, h⟩ := bind_ok h
    cases h
    exact (commitImage_fs hcommit).trans hv

/-- Whatever `kexec` returns, it holds no transaction, inode lock or inode reference more than before,
exactly if the path does not lead to a file that begins with `#!`. -/
theorem kexec_balanced_iff {r : Int} (h : kexec s i path argv = .ok (r, t)) :
    s.fs.Balanced t.fs ↔ ¬ NamesScript s.fs (s.proc i).pid (s.proc i).cwd path.bytes := by
  obtain ⟨img, u, hload, hfs⟩ := kexec_fs h
  obtain ⟨hscript, hplain⟩ := loadImage_holding hload
  rw [hfs]
  constructor
  · intro hbal hs
    have hlt := hscript hs
    rw [hbal.outstanding] at hlt
    exact lt_irrefl _ hlt
  · intro hs
    exact (hplain hs).balanced

/-- The theorem on the program `/e`. -/
theorem kexec_balanced_program : ∃ r t, kexec (booted 24) 0 programPath [] = .ok (r, t) ∧
    (booted 24).fs.Balanced t.fs := by
  have hok : (kexec (booted 24) 0 programPath []).isOk = true := by decide +kernel
  have hrun : kexec (booted 24) 0 programPath [] = .ok (_, _) := eq_ok_pair hok rfl
  refine ⟨_, _, hrun, (kexec_balanced_iff hrun).mpr ?_⟩
  have hfirst : (booted 24).fs.firstTwo ((booted 24).proc 0).pid ((booted 24).proc 0).cwd programPath.bytes =
      .ok (some [0x7f, 0x45]) := by decide +kernel
  unfold NamesScript
  rw [hfirst]
  decide

/-- `/s` is the text `#!/e`. -/
def scriptFs : Fs :=
  { programFs with
    dinode := fun n => if n = 1 then ⟨1, 1, 64, fun k => if k = 0 then 47 else 0⟩
      else if n = 3 then ⟨2, 1, 4, fun k => if k = 0 then 49 else 0⟩ else programFs.dinode n
    bitmap := fun b => decide (b ≤ 49)
    block := fun b x => if b = 47 then (rootEntries ++ [3, 0, 115]).getD x 0
      else if b = 49 then ([35, 33, 47, 101] : List UInt8).getD x 0 else programFs.block b x }

/-- `/s`. -/
def scriptPath : CStr := ⟨[47, 115], by decide, by decide⟩

def scripted : State := returned (userinit { freshKernel 24 with fs := scriptFs })

/-- The interpreter runs, and the operation in which the script was opened is still open. -/
theorem script_not_balanced : ¬ ∀ s i path argv r t, kexec s i path argv = .ok (r, t) →
    s.fs.Balanced t.fs := by
  intro hall
  have hok : (kexec scripted 0 scriptPath []).isOk = true := by decide +kernel
  have hret : (returned (kexec scripted 0 scriptPath [])).1 = 2 := by decide +kernel
  have hout : (returned (kexec scripted 0 scriptPath [])).2.fs.log.outstanding = 1 := by decide +kernel
  have hzero : scripted.fs.log.outstanding = 0 := by decide +kernel
  have hbal := (hall _ _ _ _ _ _ (eq_ok_pair hok hret)).outstanding
  rw [hout, hzero] at hbal
  cases hbal

end FogOS.Kernel
