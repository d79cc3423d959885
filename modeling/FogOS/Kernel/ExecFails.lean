import FogOS.Kernel.ExecFile

/-!
# When exec fails

What a failed `kexec` leaves of the process. It has put the mmap region back to where it starts if
the file could be loaded, so this is a matter of the file, which may be the interpreter that a `#!`
line names, and of the pages that were free before the call.
-/

namespace FogOS.Kernel

open ByteMem Ledger Copy

namespace Fs

variable {fs fs' fs₀ : Fs} {cwd : Option (Fin ninode)} {path c c' : List UInt8} {ip : Fin ninode}
  {X : Fin ninode → Int} {L : Fin ninode → Option Int} {n : Int} {pid : Int}

/-! ### The file system after a lookup -/

/-- The entries of the inode table stand for different inodes, the directories are whole, what they
name is there, and files have all their blocks. The process has a directory to start in. -/
structure Ordered (fs : Fs) (cwd : Option (Fin ninode)) : Prop where
  distinct : Distinct fs
  graph : Graph fs
  linked : Linked fs
  dense : ∀ j, (fs.inode j).type ≠ 0 → Dense fs (fs.inode j)
  starts : ∀ ip, cwd = some ip → 0 < (fs.itable ip).ref ∧ (fs.inode (fs.itable ip).inum).type ≠ 0

lemma Ordered.log (h : Ordered fs cwd) (l : Log) : Ordered { fs with log := l } cwd :=
  ⟨⟨h.distinct.nonneg, h.distinct.device, h.distinct.unique⟩, h.graph.log l,
    ⟨h.linked.root, h.linked.named⟩, fun j hj => (h.dense j hj).log l, h.starts⟩

/-- References that were there are still there, to the same inodes. -/
lemma Holding.kept (hh : Holding fs₀ X L n fs) (href : 0 < (fs₀.itable ip).ref) :
    0 < (fs.itable ip).ref ∧ (fs.itable ip).inum = (fs₀.itable ip).inum := by
  have hrefs := congrFun hh.refs ip
  have hX : 0 ≤ X ip := hh.nonneg ip
  simp only [Fs.refs, Pi.add_apply] at hrefs
  exact ⟨by omega, congrArg Prod.snd (hh.ids ip href)⟩

lemma Caches.distinct (hc : Caches fs₀ fs) (hh : Holding fs₀ X L n fs) (ht : Distinct fs₀) :
    Distinct fs := by
  refine ⟨fun ip => ?_, hc.device, hc.unique⟩
  have hrefs := congrFun hh.refs ip
  have hX : 0 ≤ X ip := hh.nonneg ip
  have hpos := ht.nonneg ip
  simp only [Fs.refs, Pi.add_apply] at hrefs
  omega

/-- The inodes are what they were. -/
lemma Caches.inode (hc : Caches fs₀ fs) (hh : Holding fs₀ X L n fs) (ht : Distinct fs₀) :
    fs.inode = fs₀.inode := by
  have hdisk : fs.dinode = fs₀.dinode := by rw [hc.rest]
  funext j
  by_cases hin : ∃ ip, 0 < (fs.itable ip).ref ∧ (fs.itable ip).inum = j
  · obtain ⟨ip, href, rfl⟩ := hin
    have hnode := (hc.distinct hh ht).inode href
    rw [hdisk, hc.node ip href] at hnode
    exact hnode.symm
  · have hout : ∀ ip, 0 < (fs.itable ip).ref → (fs.itable ip).inum ≠ j :=
      fun ip href heq => hin ⟨ip, href, heq⟩
    rw [inode_of_unreferenced hout, hdisk, inode_of_unreferenced]
    intro ip href heq
    obtain ⟨href', hsame⟩ := hh.kept href
    exact hout ip href' (hsame.trans heq)

/-- The file system is still in order, with the same files. -/
lemma Ordered.caches (h : Ordered fs₀ cwd) (hc : Caches fs₀ fs) (hh : Holding fs₀ X L n fs) :
    Ordered fs cwd ∧ ∀ path, fs.fileAt cwd path = fs₀.fileAt cwd path := by
  have hinode := hc.inode hh h.distinct
  have hcontent : fs.content = fs₀.content := by
    rw [hc.rest]
    rfl
  have hentries : fs.entries = fs₀.entries := by
    rw [hc.rest]
    rfl
  have hlookup : fs.lookup = fs₀.lookup := by
    rw [hc.rest]
    rfl
  have hkept : ∀ j, fs₀.Kept j → fs.Kept j := by
    intro j hj
    refine hj.imp (fun hlink => by rwa [hinode]) fun href => ?_
    obtain ⟨ip, href, rfl⟩ := href
    exact ⟨ip, hh.kept href⟩
  have hwalk : ∀ j names, fs.walk j names = fs₀.walk j names := by
    intro j names
    induction names generalizing j with
    | nil => rfl
    | cons name names ih =>
      rw [walk, walk, hinode, hlookup]
      exact if_congr Iff.rfl (congrArg _ (funext ih)) rfl
  refine ⟨⟨hc.distinct hh h.distinct, ⟨?_, fun j hj => ?_, fun j hj e he hne => ?_⟩, ⟨hkept _ h.linked.root, fun j hj e he hne => ?_⟩,
    fun j hj => ?_, fun ip hip => ?_⟩, fun path => ?_⟩
  · rw [hinode]
    exact h.graph.root
  · rw [hinode] at hj ⊢
    exact hc.isDirectory (h.graph.directory j hj)
  · rw [hinode] at hj he ⊢
    rw [hentries] at he
    exact h.graph.named j hj e he hne
  · rw [hinode] at hj he
    rw [hentries] at he
    exact hkept _ (h.linked.named j hj e he hne)
  · rw [hinode] at hj ⊢
    have hd := h.dense j hj
    rw [hc.rest]
    exact ⟨hd.size, hd.blocks⟩
  · obtain ⟨href, htype⟩ := h.starts ip hip
    obtain ⟨href', hsame⟩ := hh.kept href
    rw [hsame, hinode]
    exact ⟨href', htype⟩
  · have horigin : fs.origin cwd path = fs₀.origin cwd path := by
      unfold origin
      split
      · rfl
      · cases cwd with
        | none => rfl
        | some ip => exact (hh.kept (h.starts ip rfl).1).2
    unfold fileAt
    rw [hwalk, horigin, hinode, hcontent]

/-- What a lookup that has come to an end has found. -/
lemma Ordered.namei (h : Ordered fs cwd) {found : Option (Fin ninode)}
    (hop : fs.namei pid cwd path = .ok (found, fs')) :
    Starts fs cwd path ∧ ∃ r, found = r.map (·.1) ∧ Caches fs fs' ∧
      Holding fs (r.elim 0 fun p => Pi.single p.1 1) fs.locks 0 fs' ∧
      fs'.named r = fs.resolve false (fs.origin cwd path) (components path) := by
  obtain ⟨⟨r, fs₁⟩, hx, hop⟩ := bind_ok hop
  cases hop
  have hstarts : Starts fs cwd path := by
    intro hrel
    unfold namex namexStart at hx
    rw [if_neg hrel] at hx
    cases cwd with
    | none => cases hx
    | some ip => exact ⟨ip, rfl, h.starts ip rfl⟩
  refine ⟨hstarts, r, rfl, ?_⟩
  rcases namex_looks h.distinct h.graph h.linked hstarts pid false with
    ⟨r', fs₂, hrun, hc, hh, hres⟩ | ⟨⟨e, hrun⟩, -⟩
  · rw [hx] at hrun
    cases hrun
    exact ⟨hc, hh, hres⟩
  · rw [hx] at hrun
    cases hrun

/-- What has been opened is the file that the path leads to, and the file system is still in order. -/
lemma Ordered.opens (h : Ordered fs cwd) {fs₁ fs₂ fs₃ : Fs} (hbegin : fs.beginOp = .ok fs₁)
    (hnamei : fs₁.namei pid cwd path = .ok (some ip, fs₂)) (hlock : fs₂.ilock pid ip = .ok fs₃) :
    ∃ c, fs.fileAt cwd path = some c ∧ Opens pid c ip fs₃ ∧ Ordered fs₃ cwd ∧
      ∀ path, fs₃.fileAt cwd path = fs.fileAt cwd path := by
  obtain ⟨l, rfl, hidle⟩ := begun hbegin
  have ho := h.log l
  obtain ⟨hstarts, r, hr, hc, hh, hres⟩ := ho.namei hnamei
  obtain ⟨⟨jp, name⟩, rfl, hjp⟩ := Option.map_eq_some_iff.mp hr.symm
  obtain rfl : jp = ip := hjp
  have hL := (hh.ilock hlock).1
  rw [← hh.locks] at hL
  have hfree : (fs₂.itable jp).locked = false := by
    unfold Fs.locks at hL
    by_contra hno
    rw [if_pos (by simpa using hno)] at hL
    cases hL
  obtain ⟨c, fs₄, hfile, hlock', hopen, hc', hh'⟩ :=
    hc.opens pid hh ho.distinct ho.graph ho.linked ho.dense hstarts hidle hfree hres
  rw [hlock] at hlock'
  cases hlock'
  obtain ⟨ho', hsame⟩ := ho.caches hc' hh'
  rw [fileAt_log] at hfile
  exact ⟨c, hfile, hopen, ho', fun path => (hsame path).trans (fileAt_log fs l cwd path)⟩

lemma Ordered.missing (h : Ordered fs cwd) {fs₁ fs₂ : Fs} (hbegin : fs.beginOp = .ok fs₁)
    (hnamei : fs₁.namei pid cwd path = .ok (none, fs₂)) : fs.fileAt cwd path = none := by
  obtain ⟨l, rfl, -⟩ := begun hbegin
  obtain ⟨-, r, hr, -, -, hres⟩ := (h.log l).namei hnamei
  obtain rfl : r = none := Option.map_eq_none_iff.mp hr.symm
  rw [← fileAt_log fs l, fileAt, Option.map_eq_none_iff.mp hres.symm]
  rfl

/-! ### The file that is executed -/

/-- The interpreter that a `#!` line names. -/
def interpreter (c : List UInt8) : List UInt8 :=
  (toCStr (((c.drop 2).take (maxarg - 1)).takeWhile (· ≠ 10))).bytes

/-- The file that `kexec` loads for a path: the one that the path leads to or, if that begins with
`#!`, the one that it loads for the interpreter. -/
inductive Executes (fs : Fs) (cwd : Option (Fin ninode)) : List UInt8 → List UInt8 → Prop
  | file {path c : List UInt8} (h : fs.fileAt cwd path = some c) (hplain : c.take 2 ≠ shebang) :
      Executes fs cwd path c
  | script {path c c' : List UInt8} (h : fs.fileAt cwd path = some c) (hscript : c.take 2 = shebang)
      (hinterp : Executes fs cwd (interpreter c) c') : Executes fs cwd path c'

lemma Executes.fileAt_ne_none (h : Executes fs cwd path c) : fs.fileAt cwd path ≠ none := by
  cases h with
  | file h => rw [h]; simp
  | script h => rw [h]; simp

lemma executes_file (h : fs.fileAt cwd path = some c) (hplain : c.take 2 ≠ shebang) :
    Executes fs cwd path c' ↔ c' = c := by
  constructor
  · intro hx
    cases hx with
    | file h' => exact Option.some.inj (h'.symm.trans h)
    | script h' hscript =>
      rw [h] at h'
      cases h'
      exact absurd hscript hplain
  · rintro rfl
    exact .file h hplain

lemma executes_script (h : fs.fileAt cwd path = some c) (hscript : c.take 2 = shebang) :
    Executes fs cwd path c' ↔ Executes fs cwd (interpreter c) c' := by
  constructor
  · intro hx
    cases hx with
    | file h' hplain =>
      rw [h] at h'
      cases h'
      exact absurd hscript hplain
    | script h' _ hinterp =>
      rw [h] at h'
      cases h'
      exact hinterp
  · exact .script h hscript

lemma Executes.congr (hsame : ∀ path, fs'.fileAt cwd path = fs.fileAt cwd path)
    (h : Executes fs cwd path c) : Executes fs' cwd path c := by
  induction h with
  | file h hplain => exact .file ((hsame _).trans h) hplain
  | script h hscript _ ih => exact .script ((hsame _).trans h) hscript ih

end Fs

namespace Loader

variable {V : Arena} {R : Multiset Nat} {s t u : State} {i : Fin nproc} {tf : Nat}
  {ip : Fin ninode} {c acc : List UInt8} {path : CStr} {argv : List CStr} {fs : Fs}

/-- The interpreter is read byte by byte. -/
lemma readInterp_ok (hd : Fs.Dense fs (fs.itable ip).d) (hc : c = fs.content (fs.itable ip).d) (n off : Nat)
    (hoff : off + n < 2 ^ 32) :
    readInterp ip n fs off acc = .ok (acc ++ ((c.drop off).take n).takeWhile (· ≠ 10), fs) := by
  induction n generalizing off acc with
  | zero => simp [readInterp, pure, Except.pure]
  | succ n ih =>
    rw [readInterp, readi_any hd (by omega) (by decide), ok_bind, ← hc]
    dsimp only
    cases hrest : c.drop off with
    | nil => simp [pure, Except.pure]
    | cons b rest =>
      have hnext : c.drop (off + 1) = rest := by rw [← List.drop_drop, hrest]; rfl
      rw [List.take_succ_cons, List.take_zero, List.take_succ_cons]
      dsimp only
      by_cases hb : b = 10
      · rw [if_pos hb, List.takeWhile_cons_of_neg (by simpa using hb), List.append_nil]
        rfl
      · rw [if_neg hb, ih (off + 1) (by omega), hnext, List.takeWhile_cons_of_pos (by simpa using hb)]
        simp

/-- The image is loaded exactly if the file can be loaded and there are enough pages. The induction
is on the number of `#!` lines that can be followed. -/
lemma loadImage_iff (hB : s.kmem.Books V R) (htf : (s.proc i).trapframe = some tf)
    (ho : s.fs.Ordered (s.proc i).cwd) {fuel : Nat} {r : Option Image}
    (h : loadImage fuel s i path argv = .ok (r, u)) :
    r.isSome ↔ ∃ c, s.fs.Executes (s.proc i).cwd path.bytes c ∧ Valid c ∧
      loadCost c ≤ s.kmem.freelist.length := by
  induction fuel generalizing s path argv with
  | zero => cases h
  | succ fuel ih =>
    rw [loadImage] at h
    obtain ⟨fs₁, hbegin, h⟩ := bind_ok h
    obtain ⟨⟨found, fs₂⟩, hnamei, h⟩ := bind_ok h
    cases found with
    | none =>
      obtain ⟨fs₃, -, h⟩ := bind_ok h
      cases h
      refine iff_of_false (by simp) ?_
      rintro ⟨c, hx, -⟩
      exact hx.fileAt_ne_none (ho.missing hbegin hnamei)
    | some ip =>
      obtain ⟨fs₃, hlock, h⟩ := bind_ok h
      obtain ⟨c, hfile, hopen, ho', hsame⟩ := ho.opens hbegin hnamei hlock
      have hread : fs₃.readi ip 0 2 = .ok (c.take 2, fs₃) := by
        rw [readi_any hopen.dense (by decide) (by decide), hopen.content, List.drop_zero]
      rw [hread, ok_bind] at h
      dsimp only at h
      by_cases hshort : (c.take 2).length ≠ 2
      · rw [if_pos hshort] at h
        obtain ⟨fs₄, hrun⟩ := @loadBad_total { s with fs := fs₃ } i ip hopen.closes
        rw [hrun] at h
        cases h
        refine iff_of_false (by simp) ?_
        rintro ⟨c', hx, hv, -⟩
        rw [Fs.executes_file hfile (by rintro hscript; rw [hscript] at hshort; exact hshort rfl)] at hx
        subst hx
        have hlen := hv.header
        unfold elfhdrSize at hlen
        rw [List.length_take] at hshort
        omega
      rw [if_neg hshort] at h
      by_cases hscript : c.take 2 = shebang
      · rw [if_pos hscript, readInterp_ok hopen.dense hopen.content.symm _ _ (by decide), ok_bind] at h
        have hrest := @ih { s with fs := fs₃ } (toCStr _) _ hB htf ho' h
        rw [hrest]
        refine exists_congr fun c' => and_congr_left fun _ => ?_
        rw [Fs.executes_script hfile hscript]
        exact ⟨.congr fun p => (hsame p).symm, .congr hsame⟩
      · rw [if_neg hscript] at h
        obtain ⟨r', t, hrun, hloaded⟩ := @loadElf_total V R { s with fs := fs₃ } i tf ip c path argv hB htf hopen
        rw [hrun] at h
        cases h
        rw [hloaded.valid]
        simp [Fs.executes_file hfile hscript]

end Loader

open Loader

variable {V : Arena} {held : Multiset Nat} {s t : State} {i : Fin nproc} {floor : Nat}
  {path : CStr} {argv : List CStr}

/-- A failed `kexec` leaves the process as it was exactly if its mmap region was where `kexec` puts
it, or if the file could not be loaded: it is not there, it is not a valid ELF file, or it takes more
pages than were free. -/
theorem exec_fails_clean_iff (h : Good floor V held s) (hi : (s.proc i).state.Alive)
    (ho : s.fs.Ordered (s.proc i).cwd) (hx : kexec s i path argv = .ok (-1, t)) :
    ((t.proc i).pagetable = (s.proc i).pagetable ∧ (t.proc i).sz = (s.proc i).sz ∧
      (t.proc i).mmap = (s.proc i).mmap ∧ (t.proc i).hasMmap = (s.proc i).hasMmap ∧
      (t.proc i).name = (s.proc i).name ∧ (t.proc i).trapframe = (s.proc i).trapframe ∧
      (∀ x ∈ (s.proc i).refs, t.kmem.page x = s.kmem.page x) ∧
      ∀ x, x ∈ t.kmem.freelist ↔ x ∈ s.kmem.freelist) ↔
    ((s.proc i).mmap = trapframeVa - pgsize ∧ (s.proc i).hasMmap = false) ∨
      ¬ ∃ c, s.fs.Executes (s.proc i).cwd path.bytes c ∧ Valid c ∧
        loadCost c ≤ s.kmem.freelist.length := by
  obtain ⟨pt, tf, hsp⟩ := h.used i hi.used
  have hknown : ∀ x ∈ (s.proc i).refs, x ∈ held + ∑ j, (s.proc j).refs := by
    intro x hx
    rw [← others_add held s i]
    exact Multiset.mem_add.mpr (Or.inr hx)
  have hclean : ∀ {k : Kmem}, s.kmem.Trades V k 0 0 → (∀ x ∈ (s.proc i).refs, k.page x = s.kmem.page x) ∧
      ∀ x, x ∈ k.freelist ↔ x ∈ s.kmem.freelist := by
    intro k htr
    have hB := h.books
    rw [← add_zero (held + _)] at hB
    have hB' := htr.accounts hB
    refine ⟨fun x hx => htr.data_eq hB (hknown x hx) (Multiset.notMem_zero x), fun x => ?_⟩
    exact (hB.free_perm hB').mem_iff
  unfold kexec at hx
  obtain ⟨⟨found, u⟩, hprep, hx⟩ := bind_ok hx
  cases found with
  | some r =>
    obtain ⟨w, -, hx⟩ := bind_ok hx
    obtain ⟨hargc, -⟩ := Prod.mk.inj (pure_ok hx)
    have hpos : (0 : Int) ≤ r.argc := Int.natCast_nonneg _
    omega
  | none =>
    obtain ⟨-, rfl⟩ := Prod.mk.inj (pure_ok hx)
    unfold kexecPrepare at hprep
    obtain ⟨⟨img, v⟩, hload, hprep⟩ := bind_ok hprep
    have hloaded := loadImage_iff h.books hsp.trapframe ho hload
    cases loadImage_loads (V := V) hsp.trapframe hload with
    | failed htr =>
      obtain ⟨-, rfl⟩ := Prod.mk.inj (pure_ok hprep)
      obtain ⟨hpage, hfree⟩ := hclean htr
      have hno := mt hloaded.mpr (by simp)
      exact ⟨fun _ => Or.inr hno, fun _ => ⟨rfl, rfl, rfl, rfl, rfl, rfl, hpage, hfree⟩⟩
    | @done img k fs htr hb =>
      have hB' := htr.accounts ((add_zero (held + _)).symm ▸ h.books)
      change setupStack { s with kmem := k, fs := fs } i img = .ok (none, t) at hprep
      obtain ⟨k', rfl, hspec⟩ := setupStack_ok (s := { s with kmem := k, fs := fs }) hB' hb hsp.pagetable hprep
      obtain ⟨hpage, hfree⟩ := hclean (htr.trans hspec)
      obtain ⟨va, hva⟩ : ∃ va, va = trapframeVa - pgsize := ⟨_, rfl⟩
      rw [← hva]
      have hself : ({ ({ s with kmem := k, fs := fs } : State).setProc i ((s.proc i).reset va) with kmem := k' } : State).proc i =
          (s.proc i).reset va := State.setProc_self _ i _
      rw [hself]
      constructor
      · rintro ⟨-, -, hmmap, hhas, -⟩
        exact Or.inl ⟨hmmap.symm, hhas.symm⟩
      · rintro (⟨hmmap, hhas⟩ | hno)
        · exact ⟨rfl, rfl, hmmap.symm, hhas.symm, rfl, rfl, hpage, hfree⟩
        · exact absurd (hloaded.mp rfl) hno

/-! ### A process with a page mapped -/

/-- The disk with one program, and the root directory in the inode table. -/
def rootedFs : Fs :=
  { programFs with
    itable := fun ip => ⟨rootdev, rootino, if ip.val = 0 then 1 else 0, false, 0, false, ⟨0, 0, 0, fun _ => 0⟩⟩ }

lemma ref_rootedFs {ip : Fin ninode} (h : 0 < (rootedFs.itable ip).ref) : ip.val = 0 := by
  by_contra hne
  have hzero : (rootedFs.itable ip).ref = 0 := if_neg hne
  omega

lemma inode_rootedFs (j : Nat) : rootedFs.inode j = programFs.dinode j := by
  have hnone : ((List.finRange ninode).find? fun jp =>
      0 < (rootedFs.itable jp).ref ∧ (rootedFs.itable jp).valid ∧ (rootedFs.itable jp).inum = j) = none := by
    rw [List.find?_eq_none]
    rintro jp - hjp
    simp [rootedFs] at hjp
  unfold Fs.inode
  rw [hnone]
  rfl

/-- The disk is in order for a process in the root directory. -/
lemma ordered_rootedFs {ip : Fin ninode} (hip : ip.val = 0) : rootedFs.Ordered (some ip) := by
  have hentries : rootedFs.entries = programFs.entries := rfl
  have hkept : ∀ {j}, j = 1 ∨ j = 2 → (rootedFs.inode j).type ≠ 0 ∧ rootedFs.Kept j := by
    intro j hj
    rw [Fs.Kept, inode_rootedFs]
    have hlinked : (programFs.dinode j).type ≠ 0 ∧ (programFs.dinode j).nlink ≠ 0 := by
      rcases hj with rfl | rfl <;> decide
    exact ⟨hlinked.1, Or.inl hlinked.2⟩
  have hnamed : ∀ {j}, (rootedFs.inode j).type = tDir → ∀ e ∈ rootedFs.entries (rootedFs.inode j), e.1 = 1 ∨ e.1 = 2 := by
    intro j hj e he
    rw [inode_rootedFs] at hj he
    rw [hentries] at he
    rw [← inode_programFs] at hj he
    exact named_programFs hj he
  have hdense : ∀ {j}, (rootedFs.inode j).type ≠ 0 → Fs.Dense rootedFs (rootedFs.inode j) := by
    intro j hj
    rw [inode_rootedFs] at hj ⊢
    have hd := dense_programFs hj
    exact ⟨hd.size, hd.blocks⟩
  refine ⟨⟨fun ip => ?_, fun _ _ => rfl, fun ip jp hi hj _ => ?_⟩, ⟨(hkept (Or.inl rfl)).1, fun j hj => ?_,
    fun j hj e he _ => (hkept (hnamed hj e he)).1⟩, ⟨(hkept (Or.inl rfl)).2, fun j hj e he _ => (hkept (hnamed hj e he)).2⟩,
    fun j => hdense, fun jp hjp => ?_⟩
  · change (0 : Int) ≤ if ip.val = 0 then 1 else 0
    split <;> decide
  · exact Fin.ext ((ref_rootedFs hi).trans (ref_rootedFs hj).symm)
  · have hd := hdense (show (rootedFs.inode j).type ≠ 0 by rw [hj]; decide)
    refine ⟨hj, hd, ?_⟩
    rw [inode_rootedFs] at hj ⊢
    obtain rfl := programFs_directory hj
    decide
  · cases hjp
    refine ⟨?_, (hkept (Or.inl rfl)).1⟩
    have hone : (rootedFs.itable ip).ref = 1 := if_pos hip
    omega

/-- The process with a page mapped, with nothing in the inode table but its directory. -/
def rootedMaps : State := { scarceMaps with fs := rootedFs }

/-- What is left when it has no memory for another stack. -/
def scarceFails : State := (returned (kexec scarceMaps 0 programPath [])).2

/-- `/f`, which is not there. -/
def missingPath : CStr := ⟨[47, 102], by decide, by decide⟩

-- Two attempts to execute a program with an mmap page: of a path that leads nowhere, and without memory.
lemma scarce_facts :
    ((kexec rootedMaps 0 missingPath []).isOk = true ∧ (returned (kexec rootedMaps 0 missingPath [])).1 = -1 ∧
      (rootedMaps.proc 0).hasMmap = true ∧ (rootedMaps.proc 0).state.Alive ∧
      ((rootedMaps.proc 0).cwd.map Fin.val) = some 0) ∧
    ((kexec scarceMaps 0 programPath []).isOk = true ∧ (returned (kexec scarceMaps 0 programPath [])).1 = -1 ∧
      (scarceMaps.proc 0).hasMmap = true ∧ (scarceFails.proc 0).hasMmap = false ∧
      (scarceFails.proc 0).mmap ≠ (scarceMaps.proc 0).mmap) := by
  decide +kernel

/-- The path leads nowhere. -/
lemma missing_rootedFs (cwd : Option (Fin ninode)) (c : List UInt8) :
    ¬ rootedFs.Executes cwd missingPath.bytes c := by
  have horigin : rootedFs.origin cwd missingPath.bytes = 1 := rfl
  have hnames : Fs.components missingPath.bytes = [[102]] := by decide
  have hlookup : rootedFs.lookup (programFs.dinode 1) [102] = none := by
    change programFs.lookup (programFs.dinode 1) [102] = none
    unfold Fs.lookup
    rw [programFs_facts.1]
    rfl
  intro hx
  refine hx.fileAt_ne_none ?_
  rw [Fs.fileAt, horigin, hnames, Fs.walk, inode_rootedFs, hlookup]
  split <;> rfl

/-- The theorem on a path that leads nowhere. -/
theorem exec_fails_clean_missing : ∃ t, kexec rootedMaps 0 missingPath [] = .ok (-1, t) ∧
    (t.proc 0).mmap = (rootedMaps.proc 0).mmap ∧ (t.proc 0).hasMmap = true ∧
    ∀ x, x ∈ t.kmem.freelist ↔ x ∈ rootedMaps.kmem.freelist := by
  obtain ⟨hok, hret, hhas, halive, hcwd⟩ := scarce_facts.1
  have hgood : Good 0 (freshArena 17) 0 rootedMaps := by
    have hmaps := good_scarceMaps
    exact ⟨hmaps.books, hmaps.kernel, hmaps.nodup, hmaps.apart, hmaps.unused, hmaps.used⟩
  obtain ⟨ip, hip, hzero⟩ := Option.map_eq_some_iff.mp hcwd
  have ho : rootedMaps.fs.Ordered (rootedMaps.proc 0).cwd := hip ▸ ordered_rootedFs hzero
  have hfail : kexec rootedMaps 0 missingPath [] = .ok (-1, _) := eq_ok_pair hok hret
  obtain ⟨-, -, hmmap, hmapped, -, -, -, hfree⟩ := (exec_fails_clean_iff hgood halive ho hfail).mpr
    (Or.inr fun hx => missing_rootedFs _ _ hx.choose_spec.1)
  exact ⟨_, hfail, hmmap, hmapped.trans hhas, hfree⟩

/-- A failure after the reset: the process has lost its mmap region. -/
theorem exec_fails_unclean : kexec scarceMaps 0 programPath [] = .ok (-1, scarceFails) ∧
    (scarceMaps.proc 0).hasMmap = true ∧ (scarceFails.proc 0).hasMmap = false ∧
    (scarceFails.proc 0).mmap ≠ (scarceMaps.proc 0).mmap := by
  obtain ⟨hok, hret, hlost⟩ := scarce_facts.2
  exact ⟨eq_ok_pair hok hret, hlost⟩

end FogOS.Kernel
