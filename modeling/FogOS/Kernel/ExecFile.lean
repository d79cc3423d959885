import FogOS.Kernel.Arguments
import FogOS.Kernel.Balance
import FogOS.Kernel.ExecMmap

/-!
# Executing any file

`kexec` of a file that does not begin with `#!`, in a file system that is in order: it returns for every
content of the file, for every list of arguments and for every amount of free memory. When it succeeds, user
memory holds the segments of the file and, on a stack above a guard page, the arguments.
-/

namespace FogOS.Kernel

open ByteMem Ledger Copy

namespace Fs

variable {fs fs' : Fs} {cwd : Option (Fin ninode)} {path : List UInt8} {ip : Fin ninode}

/-! ### Opening the file -/

/-- The path can be looked up, and what it leads to can be read. -/
structure InOrder (fs : Fs) (cwd : Option (Fin ninode)) (path : List UInt8) : Prop where
  distinct : Distinct fs
  graph : Graph fs
  linked : Linked fs
  spare : 2 ≤ fs.spare
  unlocked : ∀ ip, (fs.itable ip).locked = false
  starts : Starts fs cwd path
  dense : ∀ j, (fs.inode j).type ≠ 0 → Dense fs (fs.inode j)
  admitted : ∃ fs', fs.beginOp = .ok fs'

/-- The file that a path leads to. -/
def fileAt (fs : Fs) (cwd : Option (Fin ninode)) (path : List UInt8) : Option (List UInt8) :=
  (fs.walk (fs.origin cwd path) (components path)).map fun j => fs.content (fs.inode j)

/-- An inode that is reached is not freed. -/
lemma Linked.kept_of_walk (h : Linked fs) {j k : Nat} {names : List (List UInt8)} (hj : fs.Kept j)
    (hw : fs.walk j names = some k) : fs.Kept k := by
  induction names generalizing j with
  | nil =>
    cases hw
    exact hj
  | cons name names ih =>
    rw [walk] at hw
    split at hw
    · next hdir =>
      obtain ⟨m, hm, hw⟩ := Option.bind_eq_some_iff.mp hw
      obtain ⟨e, he, hpos, rfl⟩ := mem_of_lookup hm
      exact ih (h.named j hdir e he hpos) hw
    · cases hw

/-- The file `ip` has been found and locked; it can be read, and closed. -/
structure Opens (pid : Int) (c : List UInt8) (ip : Fin ninode) (fs' : Fs) : Prop where
  dense : Dense fs' (fs'.itable ip).d
  content : fs'.content (fs'.itable ip).d = c
  closes : ∃ fs₁ fs₂, fs'.iunlockput pid ip = .ok fs₁ ∧ fs₁.endOp = .ok fs₂

lemma begun (h : fs.beginOp = .ok fs') : ∃ l, fs' = { fs with log := l } ∧ l.committing = false := by
  obtain ⟨hidle, h⟩ := guard_ok h
  obtain ⟨-, h⟩ := guard_ok h
  cases h
  exact ⟨_, rfl, by simpa using hidle⟩

lemma endOp_total (h : fs.log.committing = false) : ∃ fs', fs.endOp = .ok fs' := by
  unfold endOp
  dsimp only
  rw [h, if_neg (by simp)]
  split
  · exact ⟨_, rfl⟩
  · exact ⟨_, rfl⟩

lemma Dense.log {d : Dinode} (h : Dense fs d) (l : Log) : Dense { fs with log := l } d := ⟨h.size, h.blocks⟩

lemma fileAt_log (fs : Fs) (l : Log) (cwd : Option (Fin ninode)) (path : List UInt8) :
    ({ fs with log := l } : Fs).fileAt cwd path = fs.fileAt cwd path := by
  unfold fileAt
  rw [walk_log]
  rfl

/-- The inode that has been looked up is locked, and the file read. -/
lemma Caches.opens {fs₁ : Fs} {name : List UInt8} {L : Fin ninode → Option Int} (hc : Caches fs fs₁)
    (pid : Int) (hh : Holding fs (Pi.single ip 1) L 0 fs₁) (ht : Distinct fs) (hg : Graph fs) (hl : Linked fs)
    (hd : ∀ j, (fs.inode j).type ≠ 0 → Dense fs (fs.inode j)) (hstart : Starts fs cwd path)
    (hidle : fs.log.committing = false) (hfree : (fs₁.itable ip).locked = false)
    (hres : fs₁.named (some (ip, name)) = fs.resolve false (fs.origin cwd path) (components path)) :
    ∃ c fs₂, fs.fileAt cwd path = some c ∧ fs₁.ilock pid ip = .ok fs₂ ∧ Opens pid c ip fs₂ ∧ Caches fs fs₂ ∧
      Holding fs (Pi.single ip 1) (Function.update L ip (some pid)) 0 fs₂ := by
  obtain ⟨j, hj, heq⟩ : ∃ j, fs.walk (fs.origin cwd path) (components path) = some j ∧ j = (fs₁.itable ip).inum := by
    obtain ⟨j, hj, heq⟩ := Option.map_eq_some_iff.mp hres.symm
    exact ⟨j, hj, (Prod.mk.inj heq).1⟩
  have horigin : (fs.inode (fs.origin cwd path)).type ≠ 0 ∧ fs.Kept (fs.origin cwd path) := by
    unfold origin
    split
    · exact ⟨hg.root, hl.root⟩
    · next hrel =>
      obtain ⟨ip, rfl, href, htype⟩ := hstart hrel
      exact ⟨htype, Or.inr ⟨ip, href, rfl⟩⟩
  subst heq
  have htype := hg.type_of_walk horigin.1 hj
  have hkept := hl.kept_of_walk horigin.2 hj
  have href : 0 < (fs₁.itable ip).ref := by
    have hrefs := congrFun hh.refs ip
    have hpos := ht.nonneg ip
    simp only [Fs.refs, Pi.add_apply, Pi.single_eq_same] at hrefs
    omega
  obtain ⟨fs₂, hlock, hc₂, hinum, hd₂, href₂, hheld⟩ := hc.ilock pid href hfree htype
  have hsame : ∀ d, fs₂.fileBlock d = fs.fileBlock d ∧ fs₂.content d = fs.content d := by
    intro d
    rw [hc₂.rest]
    exact ⟨rfl, rfl⟩
  obtain ⟨-, hh₂⟩ := hh.ilock hlock
  obtain ⟨fs₃, hput, hc₃, -⟩ := hc₂.iunlockput hh₂ (by simp) (by rw [hinum]; exact hkept) (href₂ ▸ href) hheld
  obtain ⟨fs₄, hend⟩ : ∃ fs₄, fs₃.endOp = .ok fs₄ := by
    refine endOp_total ?_
    rw [hc₃.rest]
    exact hidle
  refine ⟨fs.content (fs.inode (fs₁.itable ip).inum), fs₂, ?_, hlock, ⟨?_, ?_, fs₃, fs₄, hput, hend⟩, hc₂, hh₂⟩
  · unfold fileAt
    rw [hj]
    rfl
  · rw [hd₂]
    refine ⟨(hd _ htype).size, fun bn hbn => ?_⟩
    rw [(hsame _).1]
    exact (hd _ htype).blocks bn hbn
  · rw [(hsame _).2, hd₂]

/-- The path leads nowhere, or to a file that is opened. -/
lemma InOrder.opens (h : InOrder fs cwd path) (pid : Int) : ∃ fs₁ found fs₂, fs.beginOp = .ok fs₁ ∧
    fs₁.namei pid cwd path = .ok (found, fs₂) ∧
    match found with
    | none => fs.fileAt cwd path = none ∧ ∃ fs₃, fs₂.endOp = .ok fs₃
    | some ip => ∃ c fs₃, fs.fileAt cwd path = some c ∧ fs₂.ilock pid ip = .ok fs₃ ∧ Opens pid c ip fs₃ := by
  obtain ⟨fs₁, hbegin⟩ := h.admitted
  obtain ⟨l, rfl, hidle⟩ := begun hbegin
  have ht : Distinct { fs with log := l } := ⟨h.distinct.nonneg, h.distinct.device, h.distinct.unique⟩
  have hl : Linked { fs with log := l } := ⟨h.linked.root, h.linked.named⟩
  obtain ⟨r, fs₂, hrun, hc, hh, hres⟩ :=
    @namex_found _ path _ ht (h.graph.log l) hl h.spare h.unlocked h.starts pid false
  refine ⟨_, r.map (·.1), fs₂, hbegin, ?_, ?_⟩
  · rw [namei, hrun]
    rfl
  rw [← fileAt_log fs l]
  cases r with
  | none =>
    refine ⟨?_, endOp_total ?_⟩
    · unfold fileAt
      rw [Option.map_eq_none_iff.mp hres.symm]
      rfl
    · rw [hc.rest]
      exact hidle
  | some p =>
    have hfree : (fs₂.itable p.1).locked = false := by
      have hlock := congrFun hh.locks p.1
      simpa [Fs.locks] using hlock
    obtain ⟨c, fs₃, hfile, hlock, hopen, -⟩ :=
      hc.opens pid hh ht (h.graph.log l) hl (fun j hj => (h.dense j hj).log l) h.starts hidle hfree hres
    exact ⟨c, fs₃, hfile, hlock, hopen⟩

end Fs

namespace Loader

variable {V : Arena} {R : Multiset Nat} {s t : State} {i : Fin nproc} {k k' : Kmem} {pt pt' ppt : Pagetable} {tramp tf n : Nat}
  {ip : Fin ninode} {f : Nat → UInt8} {c : List UInt8} {path : CStr} {argv : List CStr} {img : Image}

/-! ### A page table for the image -/

/-- A table without any mapping can be freed. -/
lemma uvmfree_empty (h : ∀ m, pt.leaf m = none) (k : Kmem) : ∃ k', uvmfree k pt 0 = .ok k' :=
  (uvmfree_iff (by decide) k pt).mpr fun m _ => h m

/-- A page table without user memory is built, or the attempt is given up. -/
lemma procPagetable_total (k : Kmem) (tramp tf : Nat) : ∃ r k', procPagetable k tramp tf = .ok (r, k') := by
  have htf := tfPage_eq
  unfold procPagetable
  rcases hcreate : uvmcreate k with ⟨_ | pt₀, k₁⟩
  · exact ⟨none, k₁, rfl⟩
  obtain ⟨pt, hpt, hleaf, -⟩ := (uvmcreate_ok (V := ⟨∅, by simp⟩) hcreate).resolve_left (by simp)
  cases hpt
  dsimp only
  rw [trampolineVa_eq, trapframeVa_eq]
  obtain ⟨b₁, k₂, pt₁, hmap₁⟩ := mappages_total (n := tfPage + 1) (by omega) (hleaf _) k₁ tramp (Perm.R.or .X)
  obtain ⟨-, hm₁⟩ := mappages_ok (V := ⟨∅, by simp⟩) hmap₁
  rw [hmap₁, ok_bind]
  dsimp only
  cases b₁ with
  | false =>
    have hnone : ∀ m, pt₁.leaf m = none := by
      intro m
      rw [hm₁.leaf, if_neg (by simp), hleaf]
    obtain ⟨k₃, hfree⟩ := uvmfree_empty hnone k₂
    rw [if_pos (by rfl), hfree]
    exact ⟨none, k₃, rfl⟩
  | true =>
    have hleaf₁ : pt₁.leaf = Function.update pt₀.leaf (tfPage + 1) (some (pa2pte tramp (Perm.R.or .X))) := by
      rw [hm₁.leaf, if_pos rfl]
    rw [if_neg (by simp)]
    obtain ⟨b₂, k₃, pt₂, hmap₂⟩ := mappages_total (n := tfPage) (by omega)
      (show pt₁.leaf tfPage = none by rw [hleaf₁, Function.update_of_ne (by omega), hleaf]) k₂ tf (Perm.R.or .W)
    obtain ⟨-, hm₂⟩ := mappages_ok (V := ⟨∅, by simp⟩) hmap₂
    rw [hmap₂, ok_bind]
    dsimp only
    cases b₂ with
    | false =>
      obtain ⟨pt₃, hun, -, hleaf₃⟩ := uvmunmap_above (n := tfPage + 1) (by omega) (by omega) k₃ pt₂
      have hnone : ∀ m, pt₃.leaf m = none := by
        intro m
        rw [hleaf₃, hm₂.leaf, if_neg (by simp), hleaf₁]
        unfold cut
        split
        · rfl
        · rw [Function.update_of_ne (by omega), hleaf]
      obtain ⟨k₄, hfree⟩ := uvmfree_empty hnone k₃
      rw [if_pos (by rfl), hun, ok_bind]
      dsimp only
      rw [hfree]
      exact ⟨none, k₄, rfl⟩
    | true =>
      rw [if_neg (by simp)]
      exact ⟨some pt₂, k₃, rfl⟩

/-! ### Loading the file -/

/-- A file that can be executed: the header is that of an ELF file, the program headers and the segments are in the file,
and the first segment does not end at address 0. -/
structure Valid (c : List UInt8) : Prop where
  header : elfhdrSize ≤ c.length
  magic : ehMagic (c.take elfhdrSize) = elfMagic
  headers : Headers c (ehPhnum (c.take elfhdrSize)) (u32 (ehPhoff (c.take elfhdrSize)))
  begins : Begins 0 (segments c)

/-- The pages that the image of the file and its page table take: three tables for the two pages at the top, the pages of the
segments, and the tables for these. -/
def loadCost (c : List UInt8) : Nat := 3 + cost (pages (extent (segments c)))

/-- The pages that an image with its stack and its page table take at most. -/
def pagesNeeded (c : List UInt8) : Nat := 5 + 3 * (pages (extent (segments c)) + 2)

lemma loadCost_le (c : List UInt8) : loadCost c + 6 ≤ pagesNeeded c := by
  have hle := cost_le (Nat.zero_le (pages (extent (segments c))))
  rw [cost_zero] at hle
  unfold loadCost pagesNeeded
  omega

/-- What loading the file `c` has left: nothing, or the image of the file. -/
structure Loaded (V : Arena) (R : Multiset Nat) (s : State) (tf : Nat) (path : CStr) (argv : List CStr) (c : List UInt8)
    (r : Option Image) (t : State) : Prop where
  image : ∀ img, r = some img → img.path = path ∧ img.argv = argv ∧ img.entry = ehEntry (c.take elfhdrSize) ∧
    Filled V R s.trampoline tf t.kmem img.pagetable img.sz (image c (segments c) fun _ => 0) ∧
    ∀ ph ∈ segments c, Placed c img.sz ph
  valid : r.isSome ↔ Valid c ∧ loadCost c ≤ s.kmem.freelist.length
  spent : r.isSome → s.kmem.freelist.length = loadCost c + t.kmem.freelist.length

/-- With enough memory there is some left for the stack. -/
lemma Loaded.ample {r : Option Image} (h : Loaded V R s tf path argv c r t) (hv : Valid c)
    (hk : pagesNeeded c ≤ s.kmem.freelist.length) : ∃ img, r = some img ∧ 6 ≤ t.kmem.freelist.length := by
  have hle := loadCost_le c
  have hsome := h.valid.mpr ⟨hv, by omega⟩
  have hspent := h.spent hsome
  obtain ⟨img, himg⟩ := Option.isSome_iff_exists.mp hsome
  exact ⟨img, himg, by omega⟩

lemma Filled.blank (hB : k.Books V R) (h : procPagetable k tramp tf = .ok (some pt, k')) :
    Filled V R tramp tf k' pt 0 fun _ => 0 := by
  obtain ⟨htr, hblank⟩ := procPagetable_ok (V := V) h
  have hB₀ : k.Books V (R + 0) := (add_zero R).symm ▸ hB
  exact ⟨hblank.built, ((procPagetable_cost h).2 pt rfl).2, htr.accounts hB₀, htr.nodup hB₀ Multiset.nodup_zero, fun m _ hm => absurd hm (Nat.not_lt_zero m),
    fun a ha => absurd ha (Nat.not_lt_zero _), fun _ _ => rfl⟩

lemma loadBad_total (h : ∃ fs₁ fs₂, s.fs.iunlockput (s.proc i).pid ip = .ok fs₁ ∧ fs₁.endOp = .ok fs₂) :
    ∃ fs₂, loadBad s i ip = .ok (none, { s with fs := fs₂ }) := by
  obtain ⟨fs₁, fs₂, hput, hend⟩ := h
  unfold loadBad
  rw [hput, ok_bind, hend]
  exact ⟨fs₂, rfl⟩

/-- The file is loaded, or the attempt is given up. -/
lemma loadElf_total (hB : s.kmem.Books V R) (htf : (s.proc i).trapframe = some tf)
    (h : Fs.Opens (s.proc i).pid c ip s.fs) : ∃ r t, loadElf s i ip path argv = .ok (r, t) ∧ Loaded V R s tf path argv c r t := by
  have hdense := h.dense
  have hbad : ∀ k : Kmem, ∃ fs₂, loadBad { s with kmem := k } i ip = .ok (none, { s with kmem := k, fs := fs₂ }) :=
    fun k => @loadBad_total { s with kmem := k } i ip h.closes
  have hnone : ∀ {t : State}, ¬ (Valid c ∧ loadCost c ≤ s.kmem.freelist.length) → Loaded V R s tf path argv c none t :=
    fun hno => ⟨fun img heq => (by cases heq), iff_of_false (by simp) hno, fun hsome => (by cases hsome)⟩
  obtain ⟨hdr, hhdr⟩ : ∃ hdr, hdr = c.take elfhdrSize := ⟨_, rfl⟩
  have hread : s.fs.readi ip 0 elfhdrSize = .ok (hdr, s.fs) := by
    rw [readi_any hdense (by decide) (by decide), h.content, List.drop_zero, hhdr]
  unfold loadElf
  rw [hread, ok_bind]
  dsimp only
  by_cases hshort : hdr.length ≠ elfhdrSize
  · rw [if_pos hshort]
    obtain ⟨fs₂, hrun⟩ := hbad s.kmem
    refine ⟨none, _, hrun, hnone fun hv => hshort ?_⟩
    rw [hhdr, List.length_take, Nat.min_eq_left hv.1.header]
  rw [if_neg hshort]
  by_cases hmagic : ehMagic hdr ≠ elfMagic
  · rw [if_pos hmagic]
    obtain ⟨fs₂, hrun⟩ := hbad s.kmem
    exact ⟨none, _, hrun, hnone fun hv => hmagic (hhdr ▸ hv.1.magic)⟩
  rw [if_neg hmagic]
  obtain ⟨r, k₁, hpt⟩ := procPagetable_total s.kmem s.trampoline tf
  obtain ⟨hiff₁, hcost₁⟩ := procPagetable_cost hpt
  have htf' : deref (s.proc i).trapframe = .ok tf := by
    rw [htf]
    rfl
  rw [htf', ok_bind, hpt, ok_bind]
  cases r with
  | none =>
    obtain ⟨fs₂, hrun⟩ := hbad k₁
    refine ⟨none, _, hrun, hnone fun hv => ?_⟩
    have henough := hv.2
    unfold loadCost at henough
    have hsome := hiff₁.mpr (by omega)
    cases hsome
  | some pt₀ =>
    have hblank := Filled.blank hB hpt
    obtain ⟨hlen₁, -⟩ := hcost₁ pt₀ rfl
    obtain ⟨b, sz, k₂, pt, hload, hdone, hiff⟩ := loadSegments_total hdense h.content.symm (ehPhnum hdr) (u32 (ehPhoff hdr))
      (Nat.mod_lt _ (by decide)) hblank
    dsimp only
    rw [hload, ok_bind]
    dsimp only
    have hseg : loadable c (ehPhnum hdr) (u32 (ehPhoff hdr)) = segments c := by
      rw [hhdr]
      rfl
    have hzero : cost (pages 0) = 0 := rfl
    rw [hseg, Nat.zero_max, hzero, Nat.zero_add] at hdone hiff
    have hvalid : b = true ↔ Valid c ∧ loadCost c ≤ s.kmem.freelist.length := by
      unfold loadCost
      rw [hiff, hlen₁]
      constructor
      · rintro ⟨hh, hbegins, henough⟩
        refine ⟨⟨?_, hhdr ▸ not_not.mp hmagic, hhdr ▸ hh, hbegins⟩, by omega⟩
        rw [not_not, hhdr, List.length_take] at hshort
        omega
      · rintro ⟨hv, henough⟩
        exact ⟨hhdr ▸ hv.headers, hv.begins, by omega⟩
    cases b with
    | false =>
      obtain ⟨-, hbuilt⟩ := loadSegments_built (V := V) hblank.built hload
      obtain ⟨k₃, hfree⟩ := freeable hbuilt k₂
      obtain ⟨fs₂, hrun⟩ := hbad k₃
      rw [if_pos (by rfl), hfree, ok_bind]
      exact ⟨none, _, hrun, hnone fun hv => by cases hvalid.mpr hv⟩
    | true =>
      obtain ⟨fs₁, fs₂, hput, hend⟩ := h.closes
      obtain ⟨hfilled, hsz, hplaced, hspent⟩ := hdone rfl
      rw [if_neg (by simp), hput, ok_bind, hend]
      refine ⟨_, _, rfl, fun img heq => ?_, iff_of_true rfl (hvalid.mp rfl), fun _ => ?_⟩
      · cases heq
        exact ⟨rfl, rfl, by rw [hhdr], hfilled, hplaced⟩
      · rw [hsz] at hspent
        change _ = loadCost c + k₂.freelist.length
        unfold loadCost
        omega

/-- The file that the path leads to does not begin with `#!`. -/
def Plain (s : State) (i : Fin nproc) (path : CStr) : Prop :=
  ∀ c, s.fs.fileAt (s.proc i).cwd path.bytes = some c → c.take 2 ≠ shebang

/-- What finding and loading the file has left. -/
def Found (V : Arena) (R : Multiset Nat) (s : State) (i : Fin nproc) (tf : Nat) (path : CStr) (argv : List CStr)
    (r : Option Image) (t : State) : Prop :=
  (s.fs.fileAt (s.proc i).cwd path.bytes = none ∧ r = none) ∨
    ∃ c, s.fs.fileAt (s.proc i).cwd path.bytes = some c ∧ Loaded V R s tf path argv c r t

lemma loadImage_total (hB : s.kmem.Books V R) (htf : (s.proc i).trapframe = some tf)
    (ho : s.fs.InOrder (s.proc i).cwd path.bytes) (hplain : Plain s i path) (fuel : Nat) (argv : List CStr) :
    ∃ r t, loadImage (fuel + 1) s i path argv = .ok (r, t) ∧ Found V R s i tf path argv r t := by
  obtain ⟨fs₁, found, fs₂, hbegin, hnamei, hfound⟩ := ho.opens (s.proc i).pid
  rw [loadImage, hbegin, ok_bind, hnamei, ok_bind]
  cases found with
  | none =>
    obtain ⟨hmissing, fs₃, hend⟩ := hfound
    dsimp only
    rw [hend, ok_bind]
    exact ⟨none, _, rfl, Or.inl ⟨hmissing, rfl⟩⟩
  | some ip =>
    obtain ⟨c, fs₃, hfile, hlock, hopen⟩ := hfound
    have hread : fs₃.readi ip 0 2 = .ok (c.take 2, fs₃) := by
      rw [readi_any hopen.dense (by decide) (by decide), hopen.content, List.drop_zero]
    dsimp only
    rw [hlock, ok_bind, hread, ok_bind]
    dsimp only
    by_cases hshort : (c.take 2).length ≠ 2
    · obtain ⟨fs₄, hrun⟩ := @loadBad_total { s with fs := fs₃ } i ip hopen.closes
      rw [if_pos hshort]
      refine ⟨none, _, hrun, Or.inr ⟨c, hfile, fun img heq => (by cases heq), iff_of_false (by simp) fun hv => hshort ?_,
        fun hsome => (by cases hsome)⟩⟩
      have hlen := hv.1.header
      unfold elfhdrSize at hlen
      rw [List.length_take]
      omega
    · rw [if_neg hshort, if_neg (hplain c hfile)]
      obtain ⟨r, t, hrun, hloaded⟩ := @loadElf_total V R { s with fs := fs₃ } i tf ip c path argv hB htf hopen
      exact ⟨r, t, hrun, Or.inr ⟨c, hfile, hloaded.image, hloaded.valid, hloaded.spent⟩⟩

/-! ### The stack -/

/-- What `setupStack` has left: nothing, or the image with the arguments on its stack. -/
structure Readied (s : State) (img : Image) (f : Nat → UInt8) (r : Option Ready) (t : State) : Prop where
  ready : ∀ rd, r = some rd → stackRoom img.argv ≤ pgsize ∧ rd.argc = img.argv.length ∧ rd.sz = (pages img.sz + 2) * pgsize ∧
    rd.image.entry = img.entry ∧ Stacked (pages img.sz) f img.argv t.kmem rd.image.pagetable rd.sp
  room : 6 ≤ s.kmem.freelist.length → stackRoom img.argv ≤ pgsize → ∃ rd, r = some rd

lemma setupStack_total (h : Filled V R s.trampoline tf s.kmem img.pagetable img.sz f) (hpt : (s.proc i).pagetable = some ppt)
    (hmax : img.argv.length ≤ maxarg) : ∃ r t, setupStack s i img = .ok (r, t) ∧ Readied s img f r t := by
  have htf26 := tfPage_eq
  have hsize := h.built.size
  have hround : pgRoundUp img.sz = pages img.sz * pgsize := pgRoundUp_eq (by omega)
  have hr := h.rounded
  have hbuilt := hr.built
  have hnone : ∀ {t : State}, (6 ≤ s.kmem.freelist.length → stackRoom img.argv ≤ pgsize → False) → Readied s img f none t :=
    fun hno => ⟨fun rd heq => (by cases heq), fun hk hroom => (hno hk hroom).elim⟩
  unfold setupStack
  -- the kernel must not compute the address
  obtain ⟨va, hva⟩ : ∃ va, va = trapframeVa - pgsize := ⟨_, rfl⟩
  rw [← hva]
  have hbad : ∀ {k : Kmem} {pt : Pagetable} {sz : Nat}, Built s.trampoline tf sz pt →
      ∃ t, stackBad (s.setProc i ((s.proc i).reset va)) i ppt k pt sz = .ok (none, t) := by
    intro k pt sz hb
    obtain ⟨k', hfree⟩ := freeable hb k
    unfold stackBad
    rw [hfree]
    exact ⟨_, rfl⟩
  have hppt : deref (s.proc i).pagetable = .ok ppt := by
    rw [hpt]
    rfl
  change ∃ r t, (deref (s.proc i).pagetable >>= fun _ => _) = _ ∧ _
  rw [hppt, ok_bind, hround]
  obtain ⟨sz₁, k₁, pt₁, halloc, hiff, hgrown⟩ := hr.alloc (u64 (pages img.sz * pgsize + (userstack + 1) * pgsize)) .W
  have hgave := (hbuilt.alloc (V := V) halloc).2.1
  change ∃ r t, (uvmalloc s.kmem img.pagetable _ _ _ >>= fun _ => _) = _ ∧ _
  rw [halloc, ok_bind]
  dsimp only
  by_cases hzero : sz₁ = 0
  · rw [if_pos hzero]
    obtain ⟨t, hrun⟩ := hbad (hgave hzero)
    refine ⟨none, t, hrun, hnone fun hk _ => ?_⟩
    have hnew : u64 (pages img.sz * pgsize + (userstack + 1) * pgsize) = (pages img.sz + 2) * pgsize := by
      simp only [u64, userstack, pgsize] at *
      omega
    have hpos : 0 < (pages img.sz + 2) * pgsize := Nat.mul_pos (by omega) (by decide)
    have hmore : pages img.sz * pgsize ≤ (pages img.sz + 2) * pgsize := Nat.mul_le_mul_right _ (by omega)
    have hprice := cost_le (show pages img.sz ≤ pages img.sz + 2 by omega)
    rw [hnew, max_eq_right hmore, pages_page, pages_page] at hiff
    exact hiff.mpr ⟨hpos, by omega⟩ hzero
  rw [if_neg hzero]
  obtain ⟨rfl, hb₁, q, hstack⟩ := hbuilt.stack h.books halloc hzero
  obtain ⟨-, hfilled, -⟩ := hgrown hzero
  have hbound := hstack.bound
  obtain ⟨hguard, hbase⟩ := stack_layout hbound
  rw [hguard, hbase]
  obtain ⟨g, hg, -⟩ := hfilled.leaf (n := pages img.sz) (by rw [pages_page]; omega)
  obtain ⟨pt₂, hclear⟩ := uvmclear_total (by omega) k₁ hg
  obtain ⟨-, hb₂⟩ := hb₁.clear (by omega) hclear
  have hstack₂ : StackPage pt₂ (pages img.sz + 1) q := by
    obtain ⟨-, hother, -⟩ := uvmclear_ok hclear
    exact ⟨hstack.pos, hstack.bound, (hother _ (by omega)).trans hstack.leaf, hstack.user, hstack.write, hstack.page⟩
  rw [hclear, ok_bind]
  obtain ⟨hfits, hfull⟩ := hfilled.push hclear hstack₂ hmax (s.proc i).sz ppt
  by_cases hroom : stackRoom img.argv ≤ pgsize
  · obtain ⟨st, k₂, sp, k₃, hargs, hustack, hargc, hstacked⟩ := hfits hroom
    rw [hargs, ok_bind]
    dsimp only
    rw [hustack, ok_bind]
    refine ⟨_, _, rfl, ?_, fun _ _ => ⟨_, rfl⟩⟩
    rintro rd ⟨⟩
    exact ⟨hroom, hargc, rfl, rfl, hstacked⟩
  · obtain ⟨st, k₂, hargs, hustack⟩ := hfull (not_le.mp hroom)
    rw [hargs, ok_bind]
    cases st with
    | none =>
      obtain ⟨t, hrun⟩ := hbad (k := k₂) hb₂
      exact ⟨none, t, hrun, hnone fun _ hle => absurd hle hroom⟩
    | some st =>
      dsimp only
      rw [hustack st rfl, ok_bind]
      obtain ⟨t, hrun⟩ := hbad (k := k₂) hb₂
      exact ⟨none, t, hrun, hnone fun _ hle => absurd hle hroom⟩

/-! ### Committing -/

/-- What `commitImage` stores in the trapframe. -/
def execRegs (m : Mem) (r : Ready) : Mem := ((m.store64 tfA1 r.sp).store64 tfEpc r.image.entry).store64 tfSp r.sp

/-- Committing writes to the trapframe and frees the old image. The pages of the new one are as they were. -/
lemma commitImage_keeps {floor : Nat} {held : Multiset Nat} {u w : State} {rd : Ready} {old : Pagetable} (h : Good floor V held s)
    (hsp : Space floor s.trampoline (s.proc i) old tf) (hprep : kexecPrepare s i path argv = .ok (some rd, u))
    (hc : commitImage u i rd = .ok w) : (w.proc i).pagetable = some rd.image.pagetable ∧ (w.proc i).trapframe = some tf ∧
      (w.proc i).sz = rd.sz ∧ pages rd.sz ≤ tfPage ∧ w.kmem.page tf = execRegs (u.kmem.page tf) rd ∧
      ∀ m q, m < tfPage → rd.image.pagetable.leaf m = some q → w.kmem.page q.pa = u.kmem.page q.pa := by
  have htf26 := tfPage_eq
  have hsize := hsp.size
  cases kexecPrepare_ok h.books hsp.pagetable hsp.trapframe hprep with
  | @ready _ k fs htr hb hpos hold =>
    obtain ⟨va, hva⟩ : ∃ va, va = trapframeVa - pgsize := ⟨_, rfl⟩
    rw [← hva] at hc ⊢
    have hself : ({ s.setProc i ((s.proc i).reset va) with kmem := k, fs := fs } : State).proc i =
        (s.proc i).reset va := s.setProc_self i _
    have hpt : deref (({ s.setProc i ((s.proc i).reset va) with kmem := k, fs := fs } : State).proc i).pagetable = .ok old := by
      rw [hself, Proc.reset_pagetable, hsp.pagetable]
      rfl
    have htf : deref (({ s.setProc i ((s.proc i).reset va) with kmem := k, fs := fs } : State).proc i).trapframe = .ok tf := by
      rw [hself]
      change deref (s.proc i).trapframe = _
      rw [hsp.trapframe]
      rfl
    unfold commitImage at hc
    dsimp only at hc
    rw [htf, ok_bind, hpt, ok_bind] at hc
    obtain ⟨k', hfree, hc⟩ := bind_ok hc
    obtain rfl := pure_ok hc
    change procFreepagetable (k.setPage tf (execRegs (k.page tf) rd)) old rd.oldsz = .ok k' at hfree
    have hB := h.books_others i
    have hnodup := h.nodup i
    rw [hsp.refs] at hB hnodup
    have hdisj : tf ∉ old.refs := fun hmem =>
      Multiset.disjoint_left.mp (Multiset.nodup_add.mp hnodup).2.2 (Multiset.mem_singleton_self tf) hmem
    have hB₀ : s.kmem.Books V (others held s i + ({tf} + old.refs) + 0) := by
      rw [add_zero]
      exact hB
    have hB₁ := htr.accounts hB₀
    have hfresh : ∀ x ∈ rd.image.pagetable.refs, x ≠ tf ∧ x ∉ old.refs := by
      intro x hx
      have hnot : x ∉ others held s i + ({tf} + old.refs) := fun hmem => htr.notMem hB₀ hmem (Multiset.notMem_zero x) hx
      refine ⟨?_, fun hold => hnot ?_⟩
      · rintro rfl
        exact hnot (by simp)
      · exact Multiset.mem_add.mpr (Or.inr (Multiset.mem_add.mpr (Or.inr hold)))
    have hwrite : k.Trades V (k.setPage tf (execRegs (k.page tf) rd)) {tf} {tf} := Kmem.trades_setPage _ (Multiset.mem_singleton_self tf)
    have hB₂ : (k.setPage tf (execRegs (k.page tf) rd)).Books V (others held s i + {tf} + rd.image.pagetable.refs + old.refs) := by
      have hB' : k.Books V (others held s i + rd.image.pagetable.refs + old.refs + {tf}) := by
        convert hB₁ using 1
        abel
      have hB'' := hwrite.accounts hB'
      convert hB'' using 1
      abel
    have hgone := trades_procFreepagetable (V := V) hsp.top (by rw [hold]; omega) hfree
    refine ⟨?_, ?_, ?_, hb.size, ?_, fun m q hm hq => ?_⟩
    · exact congrArg Proc.pagetable (State.setProc_self _ i _)
    · refine (congrArg Proc.trapframe (State.setProc_self _ i _)).trans ?_
      change (({ s.setProc i ((s.proc i).reset va) with kmem := k, fs := fs } : State).proc i).trapframe = some tf
      rw [hself]
      exact hsp.trapframe
    · exact congrArg Proc.sz (State.setProc_self _ i _)
    · have hpage : k'.page tf = (k.setPage tf (execRegs (k.page tf) rd)).page tf := hgone.data_eq hB₂ (by simp) hdisj
      exact hpage.trans (setPage_self _ _ _)
    · have hmem := mem_refs hm hq
      obtain ⟨hne, hout⟩ := hfresh _ hmem
      have hpage : k'.page q.pa = (k.setPage tf (execRegs (k.page tf) rd)).page q.pa :=
        hgone.data_eq hB₂ (Multiset.mem_add.mpr (Or.inr hmem)) hout
      exact hpage.trans (setPage_ne hne _ _)

lemma execRegs_load (m : Mem) {rd : Ready} (hsp : rd.sp < 2 ^ 64) (hentry : rd.image.entry < 2 ^ 64) :
    (execRegs m rd).load64 tfSp = rd.sp ∧ (execRegs m rd).load64 tfA1 = rd.sp ∧ (execRegs m rd).load64 tfEpc = rd.image.entry := by
  unfold execRegs
  refine ⟨Mem.load64_store64_same _ _ _ hsp, ?_, ?_⟩
  · rw [Mem.load64_store64_ne _ _ _ _ (by decide), Mem.load64_store64_ne _ _ _ _ (by decide), Mem.load64_store64_same _ _ _ hsp]
  · rw [Mem.load64_store64_ne _ _ _ _ (by decide), Mem.load64_store64_same _ _ _ hentry]

/-- The process runs the program `c` with the arguments `argv`: its memory is `p` pages for the segments, a guard page and
the stack. What no segment covers is zero; where segments overlap, the last one counts. -/
structure Installed (c : List UInt8) (argv : List CStr) (t : State) (i : Fin nproc) (pt : Pagetable) (tf p sp : Nat) : Prop where
  pagetable : (t.proc i).pagetable = some pt
  trapframe : (t.proc i).trapframe = some tf
  size : (t.proc i).sz = (p + 2) * pgsize
  covered : ∀ pre ph post, segments c = pre ++ ph :: post → ∀ a, Covers ph a → (∀ ph' ∈ post, ¬ Covers ph' a) →
    u32 (phOff ph) + (a - phVaddr ph) < c.length ∧ Usable false pt a ∧
      byteAt t.kmem pt a = c.getD (u32 (phOff ph) + (a - phVaddr ph)) 0
  rest : ∀ a, a / pgsize < p → (∀ ph ∈ segments c, ¬ Covers ph a) → Usable false pt a ∧ byteAt t.kmem pt a = 0
  guard : ∃ q, pt.leaf p = some q ∧ q.perm.u = false
  stack : ∀ a, a / pgsize = p + 1 → Usable true pt a
  regs : (t.kmem.page tf).load64 tfSp = sp ∧ (t.kmem.page tf).load64 tfA1 = sp ∧
    (t.kmem.page tf).load64 tfEpc = ehEntry (c.take elfhdrSize)
  aligned : sp % 16 = 0
  inside : (p + 1) * pgsize ≤ sp
  passed : ∃ addrs, Passed (byteAt t.kmem pt) argv sp ((p + 2) * pgsize) addrs

/-- The image and the stack make up the program. -/
lemma Stacked.installed {p sp sz : Nat} (h : Stacked p (Loader.image c (segments c) fun _ => 0) argv t.kmem pt sp) (hp : p = pages sz)
    (hplaced : ∀ ph ∈ segments c, Placed c sz ph) (hpt : (t.proc i).pagetable = some pt) (htf : (t.proc i).trapframe = some tf)
    (hsz : (t.proc i).sz = (p + 2) * pgsize)
    (hregs : (t.kmem.page tf).load64 tfSp = sp ∧ (t.kmem.page tf).load64 tfA1 = sp ∧
      (t.kmem.page tf).load64 tfEpc = ehEntry (c.take elfhdrSize)) : Installed c argv t i pt tf p sp := by
  refine ⟨hpt, htf, hsz, fun pre ph post heq a hin hlast => ?_, fun a ha hnone => ?_, h.guard, h.stack, hregs, h.aligned, h.inside, h.passed⟩
  · have hmem : ph ∈ segments c := by
      rw [heq]
      simp
    obtain ⟨hbelow, hbytes⟩ := hplaced ph hmem
    have hlow := hin.1
    have hhigh := hin.2
    obtain ⟨husable, hbyte⟩ := h.image a (by
      rw [hp, Nat.div_lt_iff_lt_mul (by decide)]
      exact (by omega : a < sz).trans_le (by unfold pages pgsize; omega))
    refine ⟨by omega, husable, ?_⟩
    rw [hbyte, heq]
    exact image_of_last hin hlast
  · obtain ⟨husable, hbyte⟩ := h.image a ha
    exact ⟨husable, hbyte.trans (image_of_not_covers hnone)⟩

/-- What `kexec` has done: it has failed, or the process runs the file. It does not fail for a valid file when there is
room for the arguments and enough memory. -/
structure Execs (floor : Nat) (V : Arena) (held : Multiset Nat) (s : State) (i : Fin nproc) (path : CStr) (argv : List CStr)
    (r : Int) (t : State) : Prop where
  good : Good floor V held t
  trampoline : t.trampoline = s.trampoline
  result : r = -1 ∨ r = argv.length ∧ stackRoom argv ≤ pgsize ∧ ∃ c pt tf p sp,
    s.fs.fileAt (s.proc i).cwd path.bytes = some c ∧ Installed c argv t i pt tf p sp
  valid : ∀ c, s.fs.fileAt (s.proc i).cwd path.bytes = some c → Valid c → pagesNeeded c ≤ s.kmem.freelist.length →
    stackRoom argv ≤ pgsize → r ≠ -1

section

variable {floor : Nat} {held : Multiset Nat}

/-- `kexec` fails before it commits. -/
lemma kexec_failed (h : Good floor V held s) (hi : (s.proc i).state ≠ .UNUSED) (hhas : (s.proc i).hasMmap = false)
    (hprep : kexecPrepare s i path argv = .ok (none, t))
    (hno : ∀ c, s.fs.fileAt (s.proc i).cwd path.bytes = some c → Valid c → pagesNeeded c ≤ s.kmem.freelist.length →
      ¬ stackRoom argv ≤ pgsize) : ∃ r t, kexec s i path argv = .ok (r, t) ∧ Execs floor V held s i path argv r t := by
  have hrun : kexec s i path argv = .ok (-1, t) := by
    unfold kexec
    rw [hprep]
    rfl
  obtain ⟨hgood, htramp⟩ := kexec_good h hi hhas hrun
  exact ⟨-1, t, hrun, hgood, htramp, Or.inl rfl, fun c hc hv hk hroom => absurd hroom (hno c hc hv hk)⟩

/-- `kexec` commits to the image it has prepared. -/
lemma kexec_ready {u v : State} {img : Image} {rd : Ready} {old : Pagetable} {tramp : Nat} (h : Good floor V held s) (hi : (s.proc i).state ≠ .UNUSED)
    (hhas : (s.proc i).hasMmap = false) (hsp : Space floor s.trampoline (s.proc i) old tf)
    (hc : s.fs.fileAt (s.proc i).cwd path.bytes = some c) (hloaded : Loaded V R s tramp path argv c (some img) u)
    (hready : Readied u img (image c (segments c) fun _ => 0) (some rd) v)
    (hprep : kexecPrepare s i path argv = .ok (some rd, v)) :
    ∃ r t, kexec s i path argv = .ok (r, t) ∧ Execs floor V held s i path argv r t := by
  obtain ⟨-, hargv, hentry, -, hplaced⟩ := hloaded.image img rfl
  obtain ⟨hroom, hargc, hsz, hentry', hstacked⟩ := hready.ready rd rfl
  rw [hargv] at hroom hargc hstacked
  obtain ⟨w, hcommit⟩ := (commit_iff h hi hprep).mpr hhas
  have hrun : kexec s i path argv = .ok ((rd.argc : Int), w) := by
    unfold kexec
    rw [hprep, ok_bind]
    dsimp only
    rw [hcommit]
    rfl
  obtain ⟨hgood, htramp⟩ := kexec_good h hi hhas hrun
  obtain ⟨hpt, htf, hsz', hsize, hregs, hpages⟩ := commitImage_keeps h hsp hprep hcommit
  rw [hsz, pages_page] at hsize
  have hstacked' := hstacked.congr fun m q hm hq => hpages m q (by omega) hq
  have hbound : rd.sp < 2 ^ 64 := by
    have htf26 := tfPage_eq
    obtain ⟨addrs, hpassed⟩ := hstacked.passed
    have harray := hpassed.array
    unfold pgsize at harray
    omega
  have hload := execRegs_load (v.kmem.page tf) hbound (by
    rw [hentry', hentry]
    exact field_lt _ 24 8)
  rw [← hregs, hentry', hentry] at hload
  refine ⟨_, w, hrun, hgood, htramp, Or.inr ⟨by rw [hargc], hroom, c, rd.image.pagetable, tf, pages img.sz, rd.sp, hc, ?_⟩,
    fun _ _ _ _ _ => by omega⟩
  exact hstacked'.installed rfl hplaced hpt htf (by rw [hsz', hsz]) hload

/-- `kexec` of a file that does not begin with `#!` always returns. -/
lemma kexec_total (h : Good floor V held s) (hi : (s.proc i).state ≠ .UNUSED) (hhas : (s.proc i).hasMmap = false)
    (ho : s.fs.InOrder (s.proc i).cwd path.bytes) (hplain : Plain s i path) (hmax : argv.length < maxarg) :
    ∃ r t, kexec s i path argv = .ok (r, t) ∧ Execs floor V held s i path argv r t := by
  obtain ⟨old, tf, hsp⟩ := h.used i hi
  obtain ⟨r₁, u, hload, hfound⟩ : ∃ r u, loadImage (execDepth s) s i path argv = .ok (r, u) ∧ Found V _ s i tf path argv r u :=
    loadImage_total h.books hsp.trapframe ho hplain _ argv
  cases r₁ with
  | none =>
    have hprep : kexecPrepare s i path argv = .ok (none, u) := by
      unfold kexecPrepare
      rw [hload]
      rfl
    refine kexec_failed h hi hhas hprep fun c hc hv hk _ => ?_
    rcases hfound with ⟨hmissing, -⟩ | ⟨c', hc', hloaded⟩
    · rw [hmissing] at hc
      cases hc
    · rw [hc'] at hc
      cases hc
      obtain ⟨img, himg, -⟩ := hloaded.ample hv hk
      cases himg
  | some img =>
    obtain ⟨c, hc, hloaded⟩ := hfound.resolve_left (by simp)
    obtain ⟨-, hargv, -, hfilled, -⟩ := hloaded.image img rfl
    have hsame : u.proc i = s.proc i ∧ u.trampoline = s.trampoline := by
      cases loadImage_loads (V := V) hsp.trapframe hload with
      | done htr hb => exact ⟨rfl, rfl⟩
    obtain ⟨r₂, v, hsetup, hready⟩ := setupStack_total (s := u) (i := i) (hsame.2 ▸ hfilled) (hsame.1 ▸ hsp.pagetable)
      (by rw [hargv]; exact hmax.le)
    have hprep : kexecPrepare s i path argv = .ok (r₂, v) := by
      unfold kexecPrepare
      rw [hload]
      exact hsetup
    cases r₂ with
    | none =>
      refine kexec_failed h hi hhas hprep fun c' hc' hv hk hroom => ?_
      rw [hc] at hc'
      cases hc'
      obtain ⟨img', himg, hfree⟩ := hloaded.ample hv hk
      cases himg
      obtain ⟨rd, hrd⟩ := hready.room hfree (by rw [hargv]; exact hroom)
      cases hrd
    | some rd => exact kexec_ready h hi hhas hsp hc hloaded hready hprep

/-- An ELF file does not begin with `#!`. -/
lemma Valid.not_script (h : Valid c) : c.take 2 ≠ shebang := by
  intro hscript
  have hmagic := h.magic
  have hlen := h.header
  unfold elfhdrSize at *
  obtain ⟨a, c₁, rfl⟩ := List.exists_cons_of_length_pos (show 0 < c.length by omega)
  obtain ⟨b, d, rfl⟩ := List.exists_cons_of_length_pos (show 0 < c₁.length by simp at hlen; omega)
  obtain ⟨x, d₁, rfl⟩ := List.exists_cons_of_length_pos (show 0 < d.length by simp at hlen; omega)
  obtain ⟨y, e, rfl⟩ := List.exists_cons_of_length_pos (show 0 < d₁.length by simp at hlen; omega)
  cases hscript
  change Fs.leNat [35, 33, x, y] = elfMagic at hmagic
  simp only [Fs.leNat, elfMagic] at hmagic
  have h35 : (35 : UInt8).toNat = 35 := rfl
  have h33 : (33 : UInt8).toNat = 33 := rfl
  omega

/-! ### A disk with one program -/

/-- The first process, before anything has been looked up on the disk. -/
def onDisk : State := { booted 24 with fs := programFs }

lemma inode_programFs (j : Nat) : programFs.inode j = programFs.dinode j :=
  Fs.inode_of_unreferenced fun _ href => absurd href (lt_irrefl _)

lemma programFs_of_type {j : Nat} (h : (programFs.dinode j).type ≠ 0) : j = 1 ∨ j = 2 := by
  by_contra hno
  push Not at hno
  simp [programFs, hno.1, hno.2, emptyFs] at h

lemma programFs_directory {j : Nat} (h : (programFs.dinode j).type = tDir) : j = 1 := by
  rcases programFs_of_type (by rw [h]; decide) with rfl | rfl
  · rfl
  · cases h

lemma programFs_facts :
    programFs.entries (programFs.dinode 1) = [(1, [46]), (1, [46, 46]), (2, [101])] ∧
    programFs.content (programFs.dinode 2) = programBytes := by
  decide

lemma dense_programFs {j : Nat} (h : (programFs.dinode j).type ≠ 0) : Fs.Dense programFs (programFs.dinode j) := by
  have hsmall : (programFs.dinode j).size ≤ 120 := by
    rcases programFs_of_type h with rfl | rfl <;> decide
  have hmax : Fs.maxfile * bsize = 274432 := by decide
  refine ⟨by omega, fun bn hbn => ?_⟩
  obtain rfl : bn = 0 := by
    unfold bsize at hbn
    omega
  rcases programFs_of_type h with rfl | rfl <;> decide

lemma linked_programFs {j : Nat} (h : j = 1 ∨ j = 2) : (programFs.inode j).type ≠ 0 ∧ programFs.Kept j := by
  have hlinked : (programFs.dinode j).type ≠ 0 ∧ (programFs.dinode j).nlink ≠ 0 := by
    rcases h with rfl | rfl <;> decide
  rw [Fs.Kept, inode_programFs]
  exact ⟨hlinked.1, Or.inl hlinked.2⟩

lemma named_programFs {j : Nat} (hj : (programFs.inode j).type = tDir) {e : Nat × List UInt8}
    (he : e ∈ programFs.entries (programFs.inode j)) : e.1 = 1 ∨ e.1 = 2 := by
  rw [inode_programFs] at hj he
  obtain rfl := programFs_directory hj
  rw [programFs_facts.1] at he
  rcases List.mem_cons.mp he with rfl | he
  · exact Or.inl rfl
  rcases List.mem_cons.mp he with rfl | he
  · exact Or.inl rfl
  · rw [List.mem_singleton.mp he]
    exact Or.inr rfl

/-- Every absolute path can be looked up on the disk. -/
lemma inOrder_programFs (cwd : Option (Fin ninode)) {path : List UInt8} (h : path.head? = some Fs.slash) :
    programFs.InOrder cwd path := by
  have hspare : 2 ≤ programFs.spare := by
    have hall : (Finset.univ.filter fun ip => (programFs.itable ip).ref = 0) = Finset.univ :=
      Finset.filter_true_of_mem fun _ _ => rfl
    rw [Fs.spare, hall, Finset.card_univ, Fintype.card_fin]
    decide
  have hgraph : Fs.Graph programFs := by
    refine ⟨(linked_programFs (Or.inl rfl)).1, fun j hj => ?_, fun j hj e he _ => (linked_programFs (named_programFs hj he)).1⟩
    rw [inode_programFs] at hj ⊢
    refine ⟨hj, dense_programFs (by rw [hj]; decide), ?_⟩
    obtain rfl := programFs_directory hj
    decide
  have hlinked : Fs.Linked programFs :=
    ⟨(linked_programFs (Or.inl rfl)).2, fun j hj e he _ => (linked_programFs (named_programFs hj he)).2⟩
  refine ⟨⟨fun _ => le_rfl, fun _ href => absurd href (lt_irrefl _), fun _ _ href => absurd href (lt_irrefl _)⟩, hgraph,
    hlinked, hspare, fun _ => rfl, fun hno => absurd h hno, fun j hj => ?_, ⟨_, rfl⟩⟩
  rw [inode_programFs] at hj ⊢
  exact dense_programFs hj

lemma fileAt_programFs (cwd : Option (Fin ninode)) : programFs.fileAt cwd programPath.bytes = some programBytes := by
  have horigin : programFs.origin cwd programPath.bytes = 1 := rfl
  have hnames : Fs.components programPath.bytes = [[101]] := by decide
  have hlookup : programFs.lookup (programFs.dinode 1) [101] = some 2 := by
    unfold Fs.lookup
    rw [programFs_facts.1]
    rfl
  have htype : (programFs.dinode 1).type = tDir := rfl
  have hwalk : programFs.walk 1 [[101]] = some 2 := by
    simp only [Fs.walk, inode_programFs]
    rw [if_pos htype, hlookup]
    rfl
  rw [Fs.fileAt, horigin, hnames, hwalk, Option.map_some, inode_programFs, programFs_facts.2]

lemma programBytes_facts :
    (ehMagic (programBytes.take elfhdrSize) = elfMagic ∧ ehPhnum (programBytes.take elfhdrSize) = 1 ∧
      u32 (ehPhoff (programBytes.take elfhdrSize)) = 64) ∧
    (phFilesz ((programBytes.drop 64).take proghdrSize) ≤ phMemsz ((programBytes.drop 64).take proghdrSize) ∧
      phVaddr ((programBytes.drop 64).take proghdrSize) + phMemsz ((programBytes.drop 64).take proghdrSize) < 2 ^ 64 ∧
      phVaddr ((programBytes.drop 64).take proghdrSize) % pgsize = 0 ∧
      u32 (phOff ((programBytes.drop 64).take proghdrSize)) + phFilesz ((programBytes.drop 64).take proghdrSize) ≤
        programBytes.length) ∧
    ∀ ph ∈ (segments programBytes).head?, 0 < max 0 (phVaddr ph + phMemsz ph) := by
  decide +kernel

lemma valid_programBytes : Valid programBytes := by
  obtain ⟨⟨hmagic, hnum, hoff⟩, ⟨hfits, hbelow, haligned, hinside⟩, hbegins⟩ := programBytes_facts
  refine ⟨by decide, hmagic, ?_, hbegins⟩
  rw [hnum, hoff]
  exact ⟨by decide, fun _ => ⟨hfits, hbelow, haligned, Or.inr hinside⟩, trivial⟩

lemma onDisk_ready : Good 0 (freshArena 24) 0 onDisk ∧ (onDisk.proc 0).state ≠ .UNUSED ∧ (onDisk.proc 0).hasMmap = false ∧
    pagesNeeded programBytes ≤ onDisk.kmem.freelist.length := by
  have hfacts : (onDisk.proc 0).state ≠ .UNUSED ∧ (onDisk.proc 0).hasMmap = false ∧
      pagesNeeded programBytes ≤ onDisk.kmem.freelist.length := by decide +kernel
  have hgood : Good 0 (freshArena 24) 0 (booted 24) := boots_booted_24.good
  exact ⟨⟨hgood.books, hgood.kernel, hgood.nodup, hgood.apart, hgood.unused, hgood.used⟩, hfacts⟩

/-- `kexec` of a file that does not begin with `#!`, by a process without mmap pages: whatever the file holds and however little
memory is free, it returns, with the books in order. It has failed, or the process runs the file. -/
theorem kexec_survives (h : Good floor V held s) (hi : (s.proc i).state ≠ .UNUSED) (hhas : (s.proc i).hasMmap = false)
    (ho : s.fs.InOrder (s.proc i).cwd path.bytes) (hplain : Plain s i path) (hmax : argv.length < maxarg) :
    ∃ r t, kexec s i path argv = .ok (r, t) ∧ Good floor V held t ∧ (r = -1 ∨ r = argv.length ∧ ∃ c pt tf p sp,
      s.fs.fileAt (s.proc i).cwd path.bytes = some c ∧ Installed c argv t i pt tf p sp) := by
  obtain ⟨r, t, hrun, hx⟩ := kexec_total h hi hhas ho hplain hmax
  exact ⟨r, t, hrun, hx.good, hx.result.imp_right fun hres => ⟨hres.1, hres.2.2⟩⟩

/-- The first process executes the program, with one argument. -/
theorem kexec_survives_program : ∃ t, kexec onDisk 0 programPath [programPath] = .ok (1, t) ∧
    Good 0 (freshArena 24) 0 t ∧
    ∃ pt tf p sp, Installed programBytes [programPath] t 0 pt tf p sp := by
  obtain ⟨hgood, hi, hhas, -⟩ := onDisk_ready
  have hfile := fileAt_programFs (onDisk.proc 0).cwd
  obtain ⟨r, t, hrun, ht, hres⟩ := kexec_survives hgood hi hhas (inOrder_programFs _ rfl)
    (fun c hc => by
      obtain rfl := Option.some.inj (hc.symm.trans hfile)
      exact valid_programBytes.not_script)
    (show [programPath].length < maxarg by decide)
  have hone : (kexec onDisk 0 programPath [programPath]).toOption.map Prod.fst = some 1 := by
    decide +kernel
  rw [hrun] at hone
  obtain rfl : r = 1 := Option.some.inj hone
  rcases hres with hneg | ⟨-, c, pt, tf, p, sp, hc, hinst⟩
  · cases hneg
  · obtain rfl := Option.some.inj (hc.symm.trans hfile)
    exact ⟨t, hrun, ht, pt, tf, p, sp, hinst⟩

/-- For a valid ELF file and enough memory, `kexec` succeeds exactly if there is room for the arguments in the page of the
stack, and then it returns their number. -/
theorem kexec_succeeds_iff (h : Good floor V held s) (hi : (s.proc i).state ≠ .UNUSED) (hhas : (s.proc i).hasMmap = false)
    (ho : s.fs.InOrder (s.proc i).cwd path.bytes) (hc : s.fs.fileAt (s.proc i).cwd path.bytes = some c) (hv : Valid c)
    (hmax : argv.length < maxarg) (hk : pagesNeeded c ≤ s.kmem.freelist.length) :
    (stackRoom argv ≤ pgsize ↔ ∃ t, kexec s i path argv = .ok ((argv.length : Int), t)) ∧
      (pgsize < stackRoom argv → ∃ t, kexec s i path argv = .ok (-1, t)) := by
  have hplain : Plain s i path := by
    intro c' hc'
    rw [hc] at hc'
    cases hc'
    exact hv.not_script
  obtain ⟨r, t, hrun, hx⟩ := kexec_total h hi hhas ho hplain hmax
  constructor
  · constructor
    · intro hroom
      obtain ⟨hr, -⟩ := hx.result.resolve_left (hx.valid c hc hv hk hroom)
      exact ⟨t, hr ▸ hrun⟩
    · rintro ⟨u, hu⟩
      rw [hrun] at hu
      have hr : r = argv.length := (Prod.mk.inj (Except.ok.inj hu)).1
      rcases hx.result with hfail | ⟨-, hroom, -⟩
      · omega
      · exact hroom
  · intro hlt
    rcases hx.result with hfail | ⟨-, hroom, -⟩
    · exact ⟨t, hfail ▸ hrun⟩
    · omega

/-- For one argument there is room. -/
theorem kexec_succeeds_program : ∃ t, kexec onDisk 0 programPath [programPath] = .ok (1, t) := by
  obtain ⟨hgood, hi, hhas, hk⟩ := onDisk_ready
  exact (kexec_succeeds_iff hgood hi hhas (inOrder_programFs _ rfl) (fileAt_programFs _) valid_programBytes
    (show [programPath].length < maxarg by decide) hk).1.mp (by decide)

end

end Loader

end FogOS.Kernel
