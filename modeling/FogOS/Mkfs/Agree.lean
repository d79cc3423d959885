import Mathlib.Algebra.BigOperators.Fin
import FogOS.Mkfs.Layout

/-!
# What mkfs and the kernel agree on

The contents that the inodes of an image get from the input files, and what the kernel finds there.
-/

namespace FogOS.Mkfs

open Kernel ByteMem Placement

/-! ### The contents of the inodes -/

/-- The bytes of an input file. -/
def Input.contents (f : Input) : List UInt8 := f.chunks.flatten

/-- The entries of the root directory. -/
def listing (files : List Input) : List (Nat × List UInt8) :=
  (rootino, [46]) :: (rootino, [46, 46]) ::
    files.zipIdx.map fun f => (f.2 + 2, shortname f.1.arg)

def rootBytes (files : List Input) : List UInt8 :=
  (listing files).flatMap fun e => direntBytes e.1 e.2

/-- The contents of an inode: the root directory has the number 1, and the files come after it. -/
def contentsOf (files : List Input) : Nat → List UInt8
  | 0 => []
  | 1 => rootBytes files
  | k + 2 => (files[k]?.map Input.contents).getD []

/-- The blocks that the input files need. -/
def needed (files : List Input) : Nat :=
  Image.cost (16 * (files.length + 2)) + (files.map fun f => Image.cost f.contents.length).sum

/-- The names are short and distinct, and there is room. -/
structure Accepted (files : List Input) : Prop where
  plain : ∀ f ∈ files, (0 : UInt8) ∉ f.arg ∧ (47 : UInt8) ∉ basename f.arg
  short : ∀ f ∈ files, (shortname f.arg).length ≤ dirsiz
  distinct : (files.map fun f => shortname f.arg).Nodup
  number : files.length < ninodes - 1
  small : ∀ f ∈ files, f.contents.length ≤ Fs.maxfile * bsize
  room : nmeta + needed files ≤ fssize

lemma length_direntBytes {name : List UInt8} (h : name.length ≤ dirsiz) (inum : Nat) :
    (direntBytes inum name).length = 16 := by
  unfold direntBytes
  simp only [List.length_append, List.length_cons, List.length_nil, List.length_replicate]
  unfold dirsiz at *
  omega

@[simp] lemma length_listing (files : List Input) : (listing files).length = files.length + 2 := by
  simp [listing]

lemma listing_append (files : List Input) (f : Input) :
    listing (files ++ [f]) = listing files ++ [(files.length + 2, shortname f.arg)] := by
  simp [listing, List.zipIdx_append]

lemma rootBytes_append (files : List Input) (f : Input) :
    rootBytes (files ++ [f]) =
      rootBytes files ++ direntBytes (files.length + 2) (shortname f.arg) := by
  unfold rootBytes
  rw [listing_append, List.flatMap_append]
  simp

lemma mem_listing {files : List Input} {e : Nat × List UInt8} : e ∈ listing files ↔
    e = (rootino, [46]) ∨ e = (rootino, [46, 46]) ∨
      ∃ (k : Nat) (hk : k < files.length), e = (k + 2, shortname files[k].arg) := by
  simp only [listing, List.mem_cons, List.mem_map]
  refine or_congr_right (or_congr_right ⟨?_, ?_⟩)
  · rintro ⟨⟨f, k⟩, hf, rfl⟩
    obtain ⟨hk, hget⟩ := List.mem_zipIdx' hf
    exact ⟨k, hk, by rw [hget]⟩
  · rintro ⟨k, hk, rfl⟩
    exact ⟨(files[k], k), List.mk_mem_zipIdx_iff_getElem?.mpr (List.getElem?_eq_getElem hk), rfl⟩

lemma names_listing (files : List Input) : (listing files).map Prod.snd =
    [46] :: [46, 46] :: files.map fun f => shortname f.arg := by
  have hfst : (files.zipIdx.map Prod.fst).map (fun f => shortname f.arg) =
      files.map fun f => shortname f.arg := by rw [List.zipIdx_map_fst]
  rw [List.map_map] at hfst
  simp only [listing, List.map_cons, List.map_map]
  exact congrArg _ (congrArg _ hfst)

lemma shortname_subset (arg : List UInt8) : shortname arg ⊆ arg := by
  have hbase : basename arg ⊆ arg := by
    unfold basename
    split
    · exact List.drop_subset 5 arg
    · exact List.Subset.refl arg
  unfold shortname
  split
  · exact List.Subset.trans (List.tail_subset _) hbase
  · exact hbase

lemma short_of_mem {files : List Input} (hshort : ∀ f ∈ files, (shortname f.arg).length ≤ dirsiz)
    {e : Nat × List UInt8} (he : e ∈ listing files) : e.2.length ≤ dirsiz := by
  rcases mem_listing.mp he with rfl | rfl | ⟨k, hk, rfl⟩
  · decide
  · decide
  · exact hshort _ (List.getElem_mem hk)

lemma length_rootBytes {files : List Input}
    (hshort : ∀ f ∈ files, (shortname f.arg).length ≤ dirsiz) :
    (rootBytes files).length = 16 * (files.length + 2) := by
  have hall : ∀ n ∈ (listing files).map fun e => (direntBytes e.1 e.2).length, n = 16 := by
    intro n hn
    obtain ⟨e, he, rfl⟩ := List.mem_map.mp hn
    exact length_direntBytes (short_of_mem hshort he) _
  unfold rootBytes
  rw [List.length_flatMap, List.sum_eq_card_nsmul _ 16 hall, List.length_map, length_listing,
    smul_eq_mul, Nat.mul_comm]

/-- The contents of the inodes after one more file. -/
lemma contentsOf_append (files : List Input) (f : Input) :
    contentsOf (files ++ [f]) = Function.update (Function.update (contentsOf files) rootino
      (contentsOf files rootino ++ direntBytes (files.length + 2) (shortname f.arg)))
        (files.length + 2) f.contents := by
  funext i
  match i with
  | 0 => rfl
  | 1 =>
    rw [Function.update_of_ne (by omega)]
    refine (rootBytes_append files f).trans ?_
    change _ = Function.update (contentsOf files) rootino _ rootino
    rw [Function.update_self]
    rfl
  | k + 2 =>
    by_cases hk : k = files.length
    · subst hk
      rw [Function.update_self]
      simp [contentsOf]
    · rw [Function.update_of_ne (by omega), Function.update_of_ne (by simp [rootino])]
      simp only [contentsOf]
      rw [List.getElem?_append]
      split
      · rfl
      · rw [List.getElem?_eq_none (by simp; omega), List.getElem?_eq_none (by omega)]

/-- The blocks of all inodes. -/
lemma sum_contentsOf {files : List Input}
    (hshort : ∀ f ∈ files, (shortname f.arg).length ≤ dirsiz) :
    ∑ j ∈ Finset.range (files.length + 2), Image.cost (contentsOf files j).length = needed files := by
  have hfiles : ∑ k ∈ Finset.range files.length, Image.cost (contentsOf files (k + 2)).length =
      (files.map fun f => Image.cost f.contents.length).sum := by
    rw [Finset.sum_range, ← Fin.sum_univ_fun_getElem]
    refine Finset.sum_congr rfl fun k _ => ?_
    simp [contentsOf]
  rw [Finset.sum_range_succ', Finset.sum_range_succ', hfiles]
  have hroot : (contentsOf files (0 + 1)).length = 16 * (files.length + 2) := length_rootBytes hshort
  have hzero : Image.cost (contentsOf files 0).length = 0 :=
    (by decide : Image.cost 0 = 0)
  rw [hroot, hzero, needed]
  omega

/-- Part of the files needs no more blocks. -/
lemma needed_le (files rest : List Input) : needed files ≤ needed (files ++ rest) := by
  have hroot : Image.cost (16 * (files.length + 2)) ≤ Image.cost (16 * ((files ++ rest).length + 2)) := by
    apply Image.cost_mono
    rw [List.length_append]
    omega
  unfold needed
  rw [List.map_append, List.sum_append]
  omega

/-! ### The loops over the pieces and over the files -/

namespace Image

variable {img : Image} {F F' : Nat → List UInt8} {i : Nat}

lemma total_mono (h : ∀ j, (F j).length ≤ (F' j).length) : img.total F ≤ img.total F' :=
  Finset.sum_le_sum fun j _ => cost_mono (h j)

lemma total_update {l l' : List UInt8} (h : l.length ≤ l'.length) :
    img.total (Function.update F i l) ≤ img.total (Function.update F i l') := by
  apply total_mono
  intro j
  by_cases hj : j = i
  · rw [hj, Function.update_self, Function.update_self]
    exact h
  · rw [Function.update_of_ne hj, Function.update_of_ne hj]

/-- All pieces of a file are appended. -/
lemma Built.chunks (h : Built img F) (hi : 1 ≤ i ∧ i < img.freeinode)
    (hin : i < ninodeblocks * ipb) {chunks : List (List UInt8)}
    (hmax : (F i).length + chunks.flatten.length ≤ Fs.maxfile * bsize)
    (hroom : nmeta + img.total (Function.update F i (F i ++ chunks.flatten)) ≤ fssize) :
    ∃ img', chunks.foldlM (fun img chunk => img.iappend i chunk) img = .ok img' ∧
      Built img' (Function.update F i (F i ++ chunks.flatten)) ∧ img'.freeinode = img.freeinode := by
  induction chunks generalizing img F with
  | nil =>
    refine ⟨img, rfl, ?_, rfl⟩
    simpa using h
  | cons p chunks ih =>
    rw [List.flatten_cons] at hmax hroom
    rw [List.length_append] at hmax
    have hfirst : nmeta + img.total (Function.update F i (F i ++ p)) ≤ fssize := by
      refine le_trans (Nat.add_le_add_left (total_update ?_) _) hroom
      simp only [List.length_append]
      omega
    obtain ⟨img₁, hrun, hbuilt, hinode⟩ := h.iappend hi hin (by omega) hfirst
    have hrest : nmeta + img₁.total (Function.update (Function.update F i (F i ++ p)) i
        (Function.update F i (F i ++ p) i ++ chunks.flatten)) ≤ fssize := by
      rw [Function.update_self, Function.update_idem, List.append_assoc]
      unfold total at hroom ⊢
      rwa [hinode]
    obtain ⟨img', hrun', hbuilt', hinode'⟩ := ih hbuilt (by rwa [hinode])
      (by rw [Function.update_self, List.length_append]; omega) hrest
    rw [Function.update_self, Function.update_idem, List.append_assoc] at hbuilt'
    refine ⟨img', ?_, hbuilt', hinode'.trans hinode⟩
    rw [List.foldlM_cons, hrun]
    exact hrun'

/-- One more file. -/
lemma Built.add {files : List Input} {f : Input} (h : Built img (contentsOf files))
    (hinode : img.freeinode = files.length + 2) (hplain : (47 : UInt8) ∉ basename f.arg)
    (hshort : ∀ g ∈ files ++ [f], (shortname g.arg).length ≤ dirsiz)
    (hnumber : files.length + 2 < ninodes) (hsmall : f.contents.length ≤ Fs.maxfile * bsize)
    (hroom : nmeta + needed (files ++ [f]) ≤ fssize) :
    ∃ img', img.add f = .ok img' ∧ Built img' (contentsOf (files ++ [f])) ∧
      img'.freeinode = files.length + 3 := by
  have hfits : ninodes ≤ ninodeblocks * ipb := by decide
  have hname := hshort f (by simp)
  have hroot : (contentsOf files rootino).length = 16 * (files.length + 2) :=
    length_rootBytes fun g hg => hshort g (List.mem_append_left _ hg)
  have hdirent := length_direntBytes hname (files.length + 2)
  have hnone : contentsOf files (files.length + 2) = [] := by simp [contentsOf]
  obtain ⟨F₂, hF₂⟩ : ∃ F₂, Function.update (contentsOf files) rootino
    (contentsOf files rootino ++ direntBytes (files.length + 2) (shortname f.arg)) = F₂ := ⟨_, rfl⟩
  have hnone₂ : F₂ (files.length + 2) = [] := by
    rw [← hF₂, Function.update_of_ne (by unfold rootino; omega), hnone]
  have hfinal : contentsOf (files ++ [f]) =
      Function.update F₂ (files.length + 2) (F₂ (files.length + 2) ++ f.contents) := by
    rw [contentsOf_append, hF₂, hnone₂, List.nil_append]
  have htotal : ∀ img' : Image, img'.freeinode = files.length + 3 →
      nmeta + img'.total (Function.update F₂ (files.length + 2) (F₂ (files.length + 2) ++ f.contents)) ≤
        fssize := by
    intro img' hinode'
    rw [← sum_contentsOf hshort, List.length_append, hfinal] at hroom
    rwa [total, hinode']
  obtain ⟨img₁, hrun₁, hbuilt₁, hinode₁, -⟩ := h.ialloc (by omega)
    (show tFile = if img.freeinode = rootino then tDir else tFile by
      rw [if_neg (by unfold rootino; omega)])
  rw [hinode] at hrun₁ hinode₁
  have hroom₂ : nmeta + img₁.total F₂ ≤ fssize := by
    refine le_trans (Nat.add_le_add_left (total_mono fun j => ?_) _) (htotal img₁ hinode₁)
    by_cases hj : j = files.length + 2
    · rw [hj, hnone₂]
      exact Nat.zero_le _
    · rw [Function.update_of_ne hj]
  have hmax : Fs.maxfile * bsize = 274432 := by decide
  have hmany : ninodes = 200 := rfl
  obtain ⟨img₂, hrun₂, hbuilt₂, hinode₂⟩ := hbuilt₁.iappend
    (show 1 ≤ rootino ∧ rootino < img₁.freeinode by unfold rootino; omega) (by decide)
    (by rw [hroot, hdirent]; omega) (hF₂ ▸ hroom₂)
  rw [hF₂] at hbuilt₂
  rw [hinode₁] at hinode₂
  obtain ⟨img', hrun, hbuilt, hinode'⟩ := @Built.chunks img₂ F₂ (files.length + 2) hbuilt₂
    (by omega) (by omega) f.chunks (by rw [hnone₂, List.length_nil, Nat.zero_add]; exact hsmall) (htotal img₂ hinode₂)
  rw [← Input.contents, ← hfinal] at hbuilt
  refine ⟨img', ?_, hbuilt, hinode'.trans hinode₂⟩
  rw [Image.add, if_neg hplain, if_neg (not_lt.mpr hname), hrun₁, ok_bind]
  dsimp only
  rw [hrun₂, ok_bind]
  exact hrun

/-- All files, after the ones that are there already. -/
lemma Built.files {done rest : List Input} (h : Built img (contentsOf done))
    (hinode : img.freeinode = done.length + 2) (hacc : Accepted (done ++ rest)) :
    ∃ img', rest.foldlM Image.add img = .ok img' ∧ Built img' (contentsOf (done ++ rest)) ∧
      img'.freeinode = (done ++ rest).length + 2 := by
  induction rest generalizing img done with
  | nil =>
    rw [List.append_nil]
    exact ⟨img, rfl, h, hinode⟩
  | cons f rest ih =>
    have hassoc : done ++ f :: rest = done ++ [f] ++ rest := by simp
    rw [hassoc] at hacc ⊢
    have hmem : f ∈ done ++ [f] ++ rest := by simp
    have hnumber := hacc.number
    rw [List.length_append, List.length_append, List.length_singleton] at hnumber
    obtain ⟨img₁, hrun, hbuilt, hinode₁⟩ := h.add hinode (hacc.plain f hmem).2
      (fun g hg => hacc.short g (List.mem_append_left _ hg)) (by omega) (hacc.small f hmem)
      (le_trans (Nat.add_le_add_left (needed_le _ rest) _) hacc.room)
    obtain ⟨img', hrun', hbuilt', hinode'⟩ := ih hbuilt (by simpa using hinode₁) hacc
    refine ⟨img', ?_, hbuilt', hinode'⟩
    rw [List.foldlM_cons, hrun]
    exact hrun'

lemma blank_loc (s : Nat × Nat) : blank.fs.loc blank.fs.dinode s = 0 := if_pos rfl

lemma built_blank : Built blank fun _ => [] := by
  refine ⟨⟨⟨rfl, ⟨⟨fun s hs => absurd (blank_loc s) hs, fun s t hs _ => absurd (blank_loc s) hs, ?_⟩, ?_, ?_⟩,
    fun _ _ => rfl, fun i bn x _ hne => absurd (blank_loc _) hne⟩, ?_, ?_⟩, fun _ => rfl, fun i => ?_, le_rfl⟩
  · intro b hb
    have hle : nmeta ≤ b := hb.1
    refine iff_of_false ?_ ?_
    · change ¬ decide (b < nmeta) = true
      simpa using hle
    · rintro ⟨s, hs⟩
      have hpos : 0 < nmeta := by decide
      have := (blank_loc s).symm.trans hs
      omega
  · intro b hb _
    exact decide_eq_true hb
  · decide
  · intro i k
    exact iff_of_false (not_not.mpr (blank_loc _)) (Nat.not_lt_zero _)
  · rfl
  · exact (if_neg (show ¬ (1 ≤ i ∧ i < 1) by omega)).symm

/-- The root directory before the first file. -/
lemma built_root : ∃ img₀ img₁ img₂, blank.ialloc tDir = .ok (rootino, img₀) ∧
    img₀.iappend rootino (direntBytes rootino [46]) = .ok img₁ ∧
    img₁.iappend rootino (direntBytes rootino [46, 46]) = .ok img₂ ∧
    Built img₂ (contentsOf []) ∧ img₂.freeinode = 2 := by
  obtain ⟨img₀, hrun₀, hbuilt₀, hinode₀, -⟩ := built_blank.ialloc (by decide)
    (show tDir = if Image.blank.freeinode = rootino then tDir else tFile from rfl)
  have hinode₀ : img₀.freeinode = 2 := hinode₀
  have htotal : ∀ (img : Image) (l : List UInt8), img.freeinode = 2 → l.length ≤ 32 →
      nmeta + img.total (Function.update (fun _ => []) rootino l) ≤ fssize := by
    intro img l hinode hl
    have hcost : cost l.length ≤ cost 32 := cost_mono hl
    have hle : nmeta + cost 0 + cost 32 ≤ fssize := by decide
    rw [total, hinode, Finset.sum_range_succ, Finset.sum_range_one,
      Function.update_of_ne (by decide), show 1 = rootino from rfl, Function.update_self]
    change nmeta + (cost 0 + cost l.length) ≤ fssize
    omega
  have hin : ∀ img : Image, img.freeinode = 2 → 1 ≤ rootino ∧ rootino < img.freeinode := by
    intro img hinode
    unfold rootino
    omega
  obtain ⟨img₁, hrun₁, hbuilt₁, hinode₁⟩ := @Built.iappend _ _ rootino hbuilt₀ (hin _ hinode₀) (by decide)
    (direntBytes rootino [46]) (by decide) (htotal _ _ hinode₀ (by decide))
  rw [hinode₀] at hinode₁
  obtain ⟨img₂, hrun₂, hbuilt₂, hinode₂⟩ := @Built.iappend _ _ rootino hbuilt₁ (hin _ hinode₁) (by decide)
    (direntBytes rootino [46, 46]) (by decide)
    (by rw [Function.update_idem]; exact htotal _ _ hinode₁ (by decide))
  refine ⟨img₀, img₁, img₂, hrun₀, hrun₁, hrun₂, ?_, hinode₂.trans hinode₁⟩
  have hroot : contentsOf [] = Function.update (fun _ => []) rootino
      (direntBytes rootino [46] ++ direntBytes rootino [46, 46]) := by
    funext i
    match i with
    | 0 => rfl
    | 1 => rfl
    | k + 2 => rfl
  rw [Function.update_idem, Function.update_self] at hbuilt₂
  rw [hroot]
  exact hbuilt₂

end Image

/-- The root directory with its size rounded up. -/
def roundedRoot (files : List Input) (d : Dinode) : Dinode :=
  { d with size := ((rootBytes files).length / bsize + 1) * bsize }

/-- The image with the size of the root directory rounded up, and with the bitmap. -/
def Image.rounded (img : Image) (files : List Input) : Fs :=
  { img.marked with
    dinode := Function.update img.fs.dinode rootino (roundedRoot files (img.fs.dinode rootino)) }

lemma Image.rounded_dinode (img : Image) (files : List Input) : (img.rounded files).dinode =
    Function.update img.fs.dinode rootino (roundedRoot files (img.fs.dinode rootino)) := rfl

/-- The image that `mkfs` writes. -/
def Written (files : List Input) (img : Image) : Prop :=
  ∃ img₀ : Image, img₀.Built (contentsOf files) ∧ img₀.freeinode = files.length + 2 ∧
    img.fs = img₀.rounded files

lemma main_written {files : List Input} (h : Accepted files) :
    ∃ img, main files = .ok img ∧ Written files img := by
  obtain ⟨img₀, img₁, img₂, hrun₀, hrun₁, hrun₂, hbuilt₂, hinode₂⟩ := Image.built_root
  obtain ⟨img₃, hrun₃, hbuilt₃, hinode₃⟩ := @Image.Built.files img₂ [] files hbuilt₂ hinode₂ h
  rw [List.nil_append] at hbuilt₃ hinode₃
  have hused : img₃.freeblock < bpb := by
    have hcount := hbuilt₃.laid.count
    rw [hinode₃, sum_contentsOf h.short] at hcount
    have hroom := h.room
    have hle : fssize < bpb := by decide
    omega
  have hsize := hbuilt₃.sizes rootino
  refine ⟨{ img₃ with fs := img₃.rounded files }, ?_, img₃, hbuilt₃, hinode₃, rfl⟩
  rw [main, hrun₀, ok_bind]
  dsimp only
  rw [hrun₁, ok_bind, hrun₂, ok_bind, hrun₃, ok_bind, Image.fixRoot, hsize]
  rw [Image.winode, if_pos (by decide)]
  exact if_pos hused

/-! ### What the kernel finds -/

/-- The kernel works on the image, and the entry `ip` of its table has the inode `i`. -/
structure Holds (img : Image) (fs : Fs) (ip : Fin ninode) (i : Nat) : Prop where
  sb : fs.sb = img.fs.sb
  dinode : fs.dinode = img.fs.dinode
  bitmap : fs.bitmap = img.fs.bitmap
  block : fs.block = img.fs.block
  d : (fs.itable ip).d = img.fs.dinode i

/-- What the kernel relies on: every name is found in the root directory and leads to the bytes of the
file, the bitmap marks the blocks in use, and no inode lacks a block, so that reading allocates none. -/
structure Agrees (files : List Input) (img : Image) : Prop where
  lookups : ∀ fs ip, Holds img fs ip rootino → (∃ jp, (fs.itable jp).ref = 0) →
    ∀ (k : Nat) (hk : k < files.length), ∃ jp fs',
      fs.dirlookup ip (shortname files[k].arg) = .ok (some jp, fs') ∧
      (fs'.itable jp).inum = k + 2 ∧ (fs'.itable jp).dev = (fs.itable ip).dev
  reads : ∀ (k : Nat) (hk : k < files.length), ∀ fs ip, Holds img fs ip (k + 2) → ∀ off n,
    off + n < 2 ^ 32 → fs.readi ip off n = .ok ((files[k].contents.drop off).take n, fs)
  bitmap : ∀ b, b < fssize → (img.fs.bitmap b = true ↔
    b < nmeta ∨ ∃ i k, (img.fs.dinode i).type ≠ 0 ∧ img.fs.slot (img.fs.dinode i) k = b)
  blocks : ∀ i, (img.fs.dinode i).type ≠ 0 → ∀ bn, bn * bsize < (img.fs.dinode i).size →
    img.fs.fileBlock (img.fs.dinode i) bn ≠ 0
  still : ∀ i, (img.fs.dinode i).type ≠ 0 → ∀ fs ip, Holds img fs ip i → ∀ off n,
    off + n < 2 ^ 32 → ∃ bytes, fs.readi ip off n = .ok (bytes, fs)

section Written

variable {files : List Input} {img : Image} {fs : Fs} {ip : Fin ninode} {i : Nat}

lemma Written.types (h : Written files img) (i : Nat) :
    (img.fs.dinode i).type ≠ 0 ↔ 1 ≤ i ∧ i < files.length + 2 := by
  obtain ⟨img₀, hbuilt, hinode, hfs⟩ := h
  have htype : (img.fs.dinode i).type = (img₀.fs.dinode i).type := by
    rw [hfs, Image.rounded_dinode]
    by_cases hi : i = rootino
    · rw [hi, Function.update_self]
      rfl
    · rw [Function.update_of_ne hi]
  rw [htype, hbuilt.types, hinode, Image.typeOf_ne_zero]

lemma Written.type_root (h : Written files img) : (img.fs.dinode rootino).type = tDir := by
  obtain ⟨img₀, hbuilt, hinode, hfs⟩ := h
  rw [hfs, Image.rounded_dinode, Function.update_self]
  refine (hbuilt.types rootino).trans ?_
  rw [hinode, Image.typeOf, if_pos (by unfold rootino; omega), if_pos rfl]

lemma Written.size_root (h : Written files img) :
    (img.fs.dinode rootino).size = ((rootBytes files).length / bsize + 1) * bsize := by
  obtain ⟨img₀, hbuilt, hinode, hfs⟩ := h
  rw [hfs, Image.rounded_dinode, Function.update_self]
  rfl

lemma Written.size_file (h : Written files img) (k : Nat) :
    (img.fs.dinode (k + 2)).size = (contentsOf files (k + 2)).length := by
  obtain ⟨img₀, hbuilt, hinode, hfs⟩ := h
  rw [hfs, Image.rounded_dinode, Function.update_of_ne (by unfold rootino; omega)]
  exact hbuilt.sizes _

/-- The blocks of the image are those of the loops. -/
lemma Written.core (h : Written files img) : ∃ img₀ : Image, img₀.Built (contentsOf files) ∧
    img.fs.block = img₀.fs.block ∧ img.fs.bitmap = img₀.marked.bitmap ∧
    img.fs.loc img.fs.dinode = img₀.fs.loc img₀.fs.dinode := by
  obtain ⟨img₀, hbuilt, hinode, hfs⟩ := h
  refine ⟨img₀, hbuilt, by rw [hfs]; rfl, by rw [hfs]; rfl, ?_⟩
  rw [hfs]
  refine (Image.loc_congr rfl _).trans ?_
  refine (Image.loc_size img₀.fs _ _ _ _).trans ?_
  rw [Function.update_eq_self]

/-- A file has the blocks for its contents. -/
lemma Written.fileBlock (h : Written files img) (ht : (img.fs.dinode i).type ≠ 0) (bn : Nat) :
    img.fs.fileBlock (img.fs.dinode i) bn ≠ 0 ↔ bn * bsize < (contentsOf files i).length := by
  obtain ⟨img₀, hbuilt, hblock, hbitmap, hloc⟩ := h.core
  have hslots := hbuilt.laid.slots i (Fs.slotOf bn)
  rw [← hloc, Fs.loc_of_type ht, Image.start_slotOf] at hslots
  exact hslots

/-- The bytes of a file, with zeros after the end. -/
lemma Written.byteAt (h : Written files img) (ht : (img.fs.dinode i).type ≠ 0) (x : Nat) :
    img.fs.byteAt (img.fs.dinode i) x = (contentsOf files i).getD x 0 := by
  obtain ⟨img₀, hbuilt, hblock, hbitmap, hloc⟩ := h.core
  have hdecomp := Nat.div_add_mod' x bsize
  unfold Fs.byteAt
  split
  · next hzero =>
    have hle := (h.fileBlock ht (x / bsize)).not.mp (not_not.mpr hzero)
    exact (List.getD_eq_default _ _ (by omega)).symm
  · next hne =>
    have hself : img₀.fs.loc img₀.fs.dinode (i, Fs.slotOf (x / bsize)) =
        img.fs.fileBlock (img.fs.dinode i) (x / bsize) := by
      rw [← hloc, Fs.loc_of_type ht]
      rfl
    have hholds := hbuilt.laid.holds i (x / bsize) (x % bsize) (Nat.mod_lt _ (by decide))
    rw [hself, hdecomp, ← hblock] at hholds
    exact hholds hne

lemma Written.bitmap (h : Written files img) (b : Nat) (hb : b < fssize) : img.fs.bitmap b = true ↔
    b < nmeta ∨ ∃ i k, (img.fs.dinode i).type ≠ 0 ∧ img.fs.slot (img.fs.dinode i) k = b := by
  obtain ⟨img₀, hbuilt, hblock, hbitmap, hloc⟩ := h.core
  have hsb : img₀.marked.sb = superblock := hbuilt.laid.sb
  have hstart : img₀.marked.dataStart = nmeta := by
    rw [Fs.dataStart, hsb]
    decide
  have hsize : img₀.marked.sb.size = fssize := by rw [hsb]; rfl
  rw [hbitmap]
  by_cases hmeta : b < nmeta
  · refine iff_of_true (hbuilt.laid.owned.metadata b ?_ ?_) (Or.inl hmeta)
    · rwa [hstart]
    · rwa [hsize]
  · have hdata : img₀.marked.IsData b := by
      refine ⟨?_, ?_⟩
      · rw [hstart]
        exact not_lt.mp hmeta
      · rwa [hsize]
    have hpos : b ≠ 0 := by
      rintro rfl
      exact hmeta (by decide)
    have hmarked : img₀.marked.loc img₀.fs.dinode = img.fs.loc img.fs.dinode :=
      (Image.loc_congr rfl _).trans hloc.symm
    rw [hbuilt.laid.owned.placed.used_iff b hdata, hmarked, or_iff_right hmeta]
    constructor
    · rintro ⟨⟨i, k⟩, hs⟩
      by_cases ht : (img.fs.dinode i).type = 0
      · rw [Fs.loc, if_pos ht] at hs
        exact absurd hs.symm hpos
      · exact ⟨i, k, ht, (Fs.loc_of_type ht k).symm.trans hs⟩
    · rintro ⟨i, k, ht, hs⟩
      exact ⟨(i, k), (Fs.loc_of_type ht k).trans hs⟩

lemma Holds.fileBlock (h : Holds img fs ip i) (bn : Nat) :
    fs.fileBlock (fs.itable ip).d bn = img.fs.fileBlock (img.fs.dinode i) bn := by
  rw [h.d]
  exact Fs.slot_congr (fun _ _ => rfl) fun _ => by rw [h.block]

/-- The kernel's view of the bytes. -/
lemma Holds.content (h : Holds img fs ip i) :
    fs.content (fs.itable ip).d = img.fs.content (img.fs.dinode i) := by
  unfold Fs.content
  rw [h.d]
  refine List.map_congr_left fun x _ => ?_
  have hfile := h.fileBlock (x / bsize)
  rw [h.d] at hfile
  rw [Fs.byteAt, Fs.byteAt, hfile, h.block]

lemma Holds.dense (h : Holds img fs ip i) :
    Fs.Dense fs (fs.itable ip).d ↔ Fs.Dense img.fs (img.fs.dinode i) := by
  constructor
  · intro hdense
    refine ⟨h.d ▸ hdense.size, fun bn hbn => ?_⟩
    rw [← h.fileBlock]
    exact hdense.blocks bn (by rwa [h.d])
  · intro hdense
    refine ⟨h.d.symm ▸ hdense.size, fun bn hbn => ?_⟩
    rw [h.fileBlock]
    exact hdense.blocks bn (by rwa [h.d] at hbn)

/-- A file has all its blocks. -/
lemma Written.dense_file (h : Written files img) (hacc : Accepted files) {k : Nat}
    (hk : k < files.length) : Fs.Dense img.fs (img.fs.dinode (k + 2)) := by
  have ht : (img.fs.dinode (k + 2)).type ≠ 0 := (h.types _).mpr (by omega)
  have hsize := h.size_file k
  refine ⟨?_, fun bn hbn => (h.fileBlock ht bn).mpr ?_⟩
  · rw [hsize]
    have hsmall := hacc.small files[k] (List.getElem_mem hk)
    simpa [contentsOf, hk] using hsmall
  · rwa [← hsize]

lemma Written.size_root_le (h : Written files img) (hacc : Accepted files) :
    (img.fs.dinode rootino).size ≤ Fs.maxfile * bsize := by
  have hnumber := hacc.number
  have hmany : ninodes = 200 := rfl
  have hmax : Fs.maxfile * bsize = 274432 := by decide
  rw [h.size_root, length_rootBytes hacc.short, hmax]
  unfold bsize
  omega

/-- The root directory has all its blocks, unless its entries fill the last one. -/
lemma Written.dense_root (h : Written files img) (hacc : Accepted files) :
    Fs.Dense img.fs (img.fs.dinode rootino) ↔ (files.length + 2) % 64 ≠ 0 := by
  have ht : (img.fs.dinode rootino).type ≠ 0 := (h.types _).mpr (by unfold rootino; omega)
  have hlen := length_rootBytes hacc.short
  have hsize := h.size_root
  have hb : bsize = 1024 := rfl
  rw [hlen, hb] at hsize
  have hblock : ∀ bn, img.fs.fileBlock (img.fs.dinode rootino) bn ≠ 0 ↔
      bn * 1024 < 16 * (files.length + 2) := by
    intro bn
    rw [h.fileBlock ht, hb]
    change bn * 1024 < (rootBytes files).length ↔ _
    rw [hlen]
  constructor
  · intro hdense hmod
    have hlast := (hblock _).mp (hdense.blocks (16 * (files.length + 2) / 1024) (by rw [hb, hsize]; omega))
    omega
  · intro hmod
    refine ⟨h.size_root_le hacc, fun bn hbn => (hblock bn).mpr ?_⟩
    rw [hb, hsize] at hbn
    omega

/-- The contents of an input file. -/
lemma Written.content_file (h : Written files img) {k : Nat} (hk : k < files.length) :
    img.fs.content (img.fs.dinode (k + 2)) = files[k].contents := by
  have ht : (img.fs.dinode (k + 2)).type ≠ 0 := (h.types _).mpr (by omega)
  have hfile : contentsOf files (k + 2) = files[k].contents := by simp [contentsOf, hk]
  have hsize := h.size_file k
  rw [hfile] at hsize
  refine List.ext_getElem (by rw [Fs.length_content, hsize]) fun x hx hx' => ?_
  simp only [Fs.content, List.getElem_map, List.getElem_range]
  rw [h.byteAt ht, hfile]
  exact List.getD_eq_getElem _ _ hx'

/-! ### The entries of the root directory -/

/-- Pieces of equal length, one after the other. -/
lemma slice_flatMap {α β : Type} {n : Nat} {f : α → List β} {l : List α}
    (h : ∀ e ∈ l, (f e).length = n) {k : Nat} (hk : k < l.length) :
    ((l.flatMap f).drop (n * k)).take n = f l[k] := by
  induction l generalizing k with
  | nil => exact absurd hk (Nat.not_lt_zero k)
  | cons e l ih =>
    have hlen := h e List.mem_cons_self
    rw [List.flatMap_cons]
    cases k with
    | zero =>
      rw [Nat.mul_zero, List.drop_zero, ← hlen, List.take_left]
      rfl
    | succ k =>
      rw [Nat.mul_succ, Nat.add_comm, ← List.drop_drop, List.drop_left' hlen]
      exact ih (fun e he => h e (List.mem_cons_of_mem _ he)) (Nat.lt_of_succ_lt_succ hk)

/-- The kernel reads back an entry that `mkfs` has written. -/
lemma dirent_direntBytes {inum : Nat} {name : List UInt8} (hinum : inum < 65536)
    (hname : (0 : UInt8) ∉ name) : Fs.dirent (direntBytes inum name) = (inum, name) := by
  have hhead : Fs.leNat [UInt8.ofNat inum, UInt8.ofNat (inum / 256)] = inum := by
    simp only [Fs.leNat, UInt8.toNat_ofNat']
    omega
  have htail : (name ++ List.replicate (dirsiz - name.length) 0).takeWhile (· ≠ 0) = name := by
    rw [List.takeWhile_append_of_pos]
    · cases dirsiz - name.length with
      | zero => simp
      | succ m => simp [List.replicate_succ]
    · intro x hx
      have hne : x ≠ 0 := by
        rintro rfl
        exact hname hx
      simpa using hne
  exact Prod.ext hhead htail

/-- The rest of the last block. -/
def unusedEntries (files : List Input) : Nat :=
  ((rootBytes files).length / bsize + 1) * bsize / 16 - (files.length + 2)

lemma Written.content_root (h : Written files img) (hacc : Accepted files) :
    img.fs.content (img.fs.dinode rootino) =
      (listing files ++ List.replicate (unusedEntries files) (0, [])).flatMap
        fun e : Nat × List UInt8 => direntBytes e.1 e.2 := by
  have ht : (img.fs.dinode rootino).type ≠ 0 := (h.types _).mpr (by unfold rootino; omega)
  have hlen := length_rootBytes hacc.short
  have hzeros : (List.replicate (unusedEntries files) (0, [])).flatMap
      (fun e : Nat × List UInt8 => direntBytes e.1 e.2) = List.replicate (unusedEntries files * 16) 0 := by
    have hzero : direntBytes 0 [] = List.replicate 16 0 := by decide
    rw [List.flatMap_replicate, hzero]
    exact List.flatten_replicate_replicate
  rw [List.flatMap_append, hzeros, ← rootBytes]
  have hunused : unusedEntries files =
      (16 * (files.length + 2) / bsize + 1) * bsize / 16 - (files.length + 2) := by
    rw [unusedEntries, hlen]
  have hb : bsize = 1024 := rfl
  refine List.ext_getElem ?_ fun x hx hx' => ?_
  · rw [Fs.length_content, h.size_root, List.length_append, List.length_replicate, hunused, hlen, hb]
    omega
  · have hbyte := h.byteAt ht x
    rw [show contentsOf files rootino = rootBytes files from rfl] at hbyte
    simp only [Fs.content, List.getElem_map, List.getElem_range]
    rw [hbyte, List.getElem_append]
    split
    · exact List.getD_eq_getElem _ _ ‹_›
    · rw [List.getElem_replicate]
      exact List.getD_eq_default _ _ (not_lt.mp ‹_›)

/-- The kernel sees the listing, and entries that are not in use. -/
lemma Written.entries_root (h : Written files img) (hacc : Accepted files)
    (hold : Holds img fs ip rootino) : fs.entries (fs.itable ip).d =
      listing files ++ List.replicate (unusedEntries files) (0, []) := by
  have hcontent := hold.content.trans (h.content_root hacc)
  have hlen := length_rootBytes hacc.short
  have hsize : (fs.itable ip).d.size = _ := (congrArg Dinode.size hold.d).trans h.size_root
  have hb : bsize = 1024 := rfl
  have hnumber := hacc.number
  have hmany : ninodes = 200 := rfl
  have hshort : ∀ e ∈ listing files ++ List.replicate (unusedEntries files) (0, []),
      e.2.length ≤ dirsiz ∧ e.1 < 65536 ∧ (0 : UInt8) ∉ e.2 := by
    intro e he
    rcases List.mem_append.mp he with he | he
    · refine ⟨short_of_mem hacc.short he, ?_⟩
      rcases mem_listing.mp he with rfl | rfl | ⟨k, hk, rfl⟩
      · decide
      · decide
      · exact ⟨show k + 2 < 65536 by omega,
          fun h0 => (hacc.plain _ (List.getElem_mem hk)).1 (shortname_subset _ h0)⟩
    · obtain rfl := List.eq_of_mem_replicate he
      decide
  refine List.ext_getElem ?_ fun k hk hk' => ?_
  · rw [Fs.length_entries, hsize, List.length_append, length_listing, List.length_replicate,
      unusedEntries, hlen, hb]
    omega
  · simp only [Fs.entries, List.getElem_map, List.getElem_range]
    obtain ⟨hlen, hinum, hname⟩ := hshort _ (List.getElem_mem hk')
    rw [hcontent, slice_flatMap (fun e he => length_direntBytes (hshort e he).1 e.1) hk',
      dirent_direntBytes hinum hname]

/-- The first entry with a name. -/
lemma find_entry {l : List (Nat × List UInt8)} (h : (l.map Prod.snd).Nodup) {e : Nat × List UInt8}
    (he : e ∈ l) (hinum : e.1 ≠ 0) : l.find? (fun e' => e'.1 ≠ 0 ∧ e.2 = e'.2) = some e := by
  induction l with
  | nil => cases he
  | cons a l ih =>
    rw [List.map_cons, List.nodup_cons] at h
    rcases List.mem_cons.mp he with rfl | he'
    · exact List.find?_cons_of_pos (by simpa using hinum)
    · have hne : e.2 ≠ a.2 := by
        intro heq
        exact h.1 (heq ▸ List.mem_map_of_mem he')
      rw [List.find?_cons_of_neg (by simp [hne])]
      exact ih h.2 he'

/-- Every name leads to its file, if it is not one of the two names of the root directory. -/
lemma Written.lookup (h : Written files img) (hacc : Accepted files) (hold : Holds img fs ip rootino)
    (hnames : ∀ f ∈ files, shortname f.arg ≠ [46] ∧ shortname f.arg ≠ [46, 46]) {k : Nat}
    (hk : k < files.length) :
    fs.lookup (fs.itable ip).d (shortname files[k].arg) = some (k + 2) := by
  have hnodup : ((listing files).map Prod.snd).Nodup := by
    rw [names_listing, List.nodup_cons, List.nodup_cons]
    refine ⟨?_, ?_, hacc.distinct⟩
    · simp only [List.mem_cons, List.mem_map, not_or, not_exists, not_and]
      exact ⟨by decide, fun f hf => (hnames f hf).1⟩
    · simp only [List.mem_map, not_exists, not_and]
      exact fun f hf => (hnames f hf).2
  have hfind := find_entry hnodup (mem_listing.mpr (Or.inr (Or.inr ⟨k, hk, rfl⟩))) (Nat.succ_ne_zero _)
  unfold Fs.lookup
  rw [h.entries_root hacc hold, List.find?_append, hfind]
  rfl

/-- The names of the root directory lead to itself. -/
lemma Written.lookup_root (h : Written files img) (hacc : Accepted files)
    (hold : Holds img fs ip rootino) {name : List UInt8} (hname : name = [46] ∨ name = [46, 46]) :
    fs.lookup (fs.itable ip).d name = some rootino := by
  unfold Fs.lookup
  rw [h.entries_root hacc hold]
  rcases hname with rfl | rfl
  · rfl
  · rfl

/-- `iget` gives an entry for the inode. -/
lemma iget_found (hfree : ∃ jp, (fs.itable jp).ref = 0) (dev inum : Nat) : ∃ jp fs',
    fs.iget dev inum = .ok (jp, fs') ∧ (fs'.itable jp).inum = inum ∧ (fs'.itable jp).dev = dev := by
  have hself : ∀ jp v, (fs.setInode jp v).itable jp = v := fun _ _ => Function.update_self ..
  unfold Fs.iget
  split
  · next jp hjp =>
    have hfound := List.find?_some hjp
    simp only [decide_eq_true_eq] at hfound
    exact ⟨jp, _, rfl, (congrArg Inode.inum (hself jp _)).trans hfound.2.2,
      (congrArg Inode.dev (hself jp _)).trans hfound.2.1⟩
  · split
    · next hnone =>
      obtain ⟨jp, hjp⟩ := hfree
      have := List.find?_eq_none.mp hnone jp (List.mem_finRange jp)
      simp [hjp] at this
    · next jp hjp =>
      exact ⟨jp, _, rfl, congrArg Inode.inum (hself jp _), congrArg Inode.dev (hself jp _)⟩

/-- The root directory, as the kernel has it in an empty table. -/
def mounted (img : Image) : Fs :=
  { img.fs with itable := fun _ => ⟨rootdev, rootino, 0, false, 0, true, img.fs.dinode rootino⟩ }

lemma holds_mounted (img : Image) : Holds img (mounted img) ⟨0, by decide⟩ rootino :=
  ⟨rfl, rfl, rfl, rfl, rfl⟩

lemma Written.isDirectory (h : Written files img) (hacc : Accepted files)
    (hmod : (files.length + 2) % 64 ≠ 0) (hold : Holds img fs ip rootino) :
    Fs.IsDirectory fs (fs.itable ip).d := by
  refine ⟨?_, hold.dense.mpr ((h.dense_root hacc).mpr hmod), ?_⟩
  · rw [hold.d, h.type_root]
  · rw [hold.d, h.size_root]
    unfold bsize
    omega

/-- Mkfs and the kernel agree unless the entries of the root directory fill its last block, or a file
has one of the names of the root directory. -/
lemma Written.agrees_iff (h : Written files img) (hacc : Accepted files) : Agrees files img ↔
    (files.length + 2) % 64 ≠ 0 ∧
      ∀ f ∈ files, shortname f.arg ≠ [46] ∧ shortname f.arg ≠ [46, 46] := by
  have hroot : (img.fs.dinode rootino).type ≠ 0 := (h.types _).mpr (by unfold rootino; omega)
  constructor
  · intro hagrees
    have hmod : (files.length + 2) % 64 ≠ 0 := by
      exact (h.dense_root hacc).mp ⟨h.size_root_le hacc, hagrees.blocks rootino hroot⟩
    refine ⟨hmod, fun f hf => ?_⟩
    have hne : ∀ name, name = [46] ∨ name = [46, 46] → shortname f.arg ≠ name := by
      intro name hname heq
      obtain ⟨k, hk, rfl⟩ := List.mem_iff_getElem.mp hf
      obtain ⟨jp, fs', hrun, hinum, -⟩ :=
        hagrees.lookups _ _ (holds_mounted img) ⟨⟨0, by decide⟩, rfl⟩ k hk
      rw [Fs.dirlookup_ok (h.isDirectory hacc hmod (holds_mounted img)), heq,
        h.lookup_root hacc (holds_mounted img) hname] at hrun
      obtain ⟨jp', fs'', hget, hinum', -⟩ := @iget_found (mounted img) ⟨⟨0, by decide⟩, rfl⟩
        ((mounted img).itable ⟨0, by decide⟩).dev rootino
      rw [Fs.found, hget, ok_bind] at hrun
      cases hrun
      rw [hinum] at hinum'
      exact absurd hinum' (by unfold rootino; omega)
    exact ⟨hne _ (Or.inl rfl), hne _ (Or.inr rfl)⟩
  · rintro ⟨hmod, hnames⟩
    have hdense : ∀ i, (img.fs.dinode i).type ≠ 0 → Fs.Dense img.fs (img.fs.dinode i) := by
      intro i ht
      obtain ⟨hpos, hlt⟩ := (h.types i).mp ht
      rcases Nat.exists_eq_add_one_of_ne_zero (Nat.pos_iff_ne_zero.mp hpos) with ⟨k, rfl⟩
      cases k with
      | zero => exact (h.dense_root hacc).mpr hmod
      | succ k => exact h.dense_file hacc (Nat.lt_of_add_lt_add_right hlt)
    refine ⟨?_, ?_, h.bitmap, fun i ht => (hdense i ht).blocks, ?_⟩
    · intro fs ip hold hfree k hk
      obtain ⟨jp, fs', hget, hinum, hdev⟩ := iget_found hfree (fs.itable ip).dev (k + 2)
      refine ⟨jp, fs', ?_, hinum, hdev⟩
      rw [Fs.dirlookup_ok (h.isDirectory hacc hmod hold), h.lookup hacc hold hnames hk, Fs.found,
        hget]
      rfl
    · intro k hk fs ip hold off n hn
      rw [Fs.readi_ok (hold.dense.mpr (h.dense_file hacc hk)) hn, hold.content, h.content_file hk]
    · intro i ht fs ip hold off n hn
      exact ⟨_, Fs.readi_ok (hold.dense.mpr (hdense i ht)) hn⟩

end Written

/-- Every accepted list of files is written, and the kernel can use the image unless the entries of
the root directory fill its last block, or a file has one of the names of the root directory. -/
theorem main_agrees_iff (files : List Input) (h : Accepted files) :
    ∃ img, main files = .ok img ∧ (Agrees files img ↔ (files.length + 2) % 64 ≠ 0 ∧
      ∀ f ∈ files, shortname f.arg ≠ [46] ∧ shortname f.arg ≠ [46, 46]) := by
  obtain ⟨img, hrun, hwritten⟩ := main_written h
  exact ⟨img, hrun, hwritten.agrees_iff h⟩

/-- `user/_cat` in two pieces, `README.md` with 13000 bytes, which need an indirect block, and an empty
file. -/
def threeFiles : List Input :=
  [⟨[117, 115, 101, 114, 47, 95, 99, 97, 116], [[104, 105], [10]]⟩,
    ⟨[82, 69, 65, 68, 77, 69, 46, 109, 100], List.replicate 13 (List.replicate 1000 7)⟩,
    ⟨[95, 110], []⟩]

lemma accepted_threeFiles : Accepted threeFiles := by
  have hlengths : threeFiles.map (fun f => f.contents.length) = [3, 13000, 0] := by
    simp [threeFiles, Input.contents, -List.reduceReplicate]
  have hsizes : ∀ f ∈ threeFiles, f.contents.length ∈ [3, 13000, 0] := fun f hf =>
    hlengths ▸ List.mem_map_of_mem hf
  have hneeded : needed threeFiles = 16 := by
    rw [needed, show (threeFiles.map fun f => Image.cost f.contents.length) =
      (threeFiles.map fun f => f.contents.length).map Image.cost by rw [List.map_map]; rfl, hlengths]
    decide
  refine ⟨by decide, by decide, by decide, by decide, fun f hf => ?_, by rw [hneeded]; decide⟩
  have hmem := hsizes f hf
  simp only [List.mem_cons, List.not_mem_nil, or_false] at hmem
  unfold Fs.maxfile ndirect nindirect bsize
  omega

theorem main_agrees_iff_threeFiles : Accepted threeFiles ∧
    ∃ img, main threeFiles = .ok img ∧ Agrees threeFiles img := by
  refine ⟨accepted_threeFiles, ?_⟩
  obtain ⟨img, hrun, hiff⟩ := main_agrees_iff threeFiles accepted_threeFiles
  exact ⟨img, hrun, hiff.mpr (by decide)⟩

/-- Empty files with one-letter names; with the two names of the root directory they fill its block. -/
def fullRoot : List Input := (List.range 62).map fun k => ⟨[UInt8.ofNat (97 + k)], []⟩

lemma accepted_fullRoot : Accepted fullRoot := by
  refine ⟨?_, ?_, ?_, ?_, ?_, ?_⟩ <;> decide

theorem fullRoot_not_agrees :
    ¬ ∀ files, Accepted files → ∃ img, main files = .ok img ∧ Agrees files img := by
  intro hall
  obtain ⟨img, hrun, hagrees⟩ := hall fullRoot accepted_fullRoot
  obtain ⟨img', hrun', hwritten⟩ := main_written accepted_fullRoot
  obtain rfl : img' = img := Except.ok.inj (hrun'.symm.trans hrun)
  exact ((hwritten.agrees_iff accepted_fullRoot).mp hagrees).1 (by decide)

end FogOS.Mkfs
