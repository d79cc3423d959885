import Mathlib.Data.List.TakeWhile
import FogOS.Kernel.Blocks
import FogOS.Kernel.Proc

/-!
# The contents of files

`writei` of `kernel/fs.c`, and what `readi` reads afterwards. A file is a sequence of bytes, in blocks
that its inode lists; where there is no block, zeros will be.
-/

namespace FogOS.Kernel

open ByteMem Placement

namespace Fs

variable {fs fs' : Fs} {ip : Fin ninode} {b i : Nat} {L : Finset Nat} {D : Nat → Dinode} {d d' : Dinode}

/-! ### `writei` -/

/-- `either_copyin` to a block: the bytes of the source from `tot` on, as far as they can be read. -/
def copyinBlock (m : Mem) (dst : Nat) (src : Nat → Option UInt8) (tot n : Nat) : Bool × Mem :=
  let k := ((List.range n).takeWhile fun j => (src (tot + j)).isSome).length
  (k = n, fun x => if dst ≤ x ∧ x < dst + k then (src (tot + (x - dst))).getD 0 else m x)

/-- The loop of `writei`: `tot` and `off` at its end. Every round writes at least one byte. -/
def writeiLoop (ip : Fin ninode) (src : Nat → Option UInt8) (n : Nat) :
    Nat → Fs → Nat → Nat → Except Stop (Nat × Nat × Fs)
  | 0, fs, off, tot => pure (tot, off, fs)
  | fuel + 1, fs, off, tot =>
    if n ≤ tot then pure (tot, off, fs)
    else do
      let (addr, fs) ← fs.bmap ip (off / bsize)
      if addr = 0 then pure (tot, off, fs)
      else
        let m := min (n - tot) (bsize - off % bsize)
        let (copied, data) := copyinBlock (fs.block addr) (off % bsize) src tot m
        let fs := { fs with block := Function.update fs.block addr data }
        if !copied then pure (tot, off, fs)
        else
          let fs ← fs.logWrite addr
          writeiLoop ip src n fuel fs (off + m) (tot + m)

/-- Write data to inode: the number of bytes written, or -1. -/
def writei (fs : Fs) (ip : Fin ninode) (src : Nat → Option UInt8) (off n : Nat) : Except Stop (Int × Fs) :=
  if (fs.itable ip).d.size < off ∨ u32 (off + n) < off then pure (-1, fs)
  else if maxfile * bsize < u32 (off + n) then pure (-1, fs)
  else do
    let (tot, off, fs) ← writeiLoop ip src n n fs off 0
    let i := fs.itable ip
    let fs := if i.d.size < off then fs.setInode ip { i with d := { i.d with size := off } } else fs
    let fs ← fs.iupdate ip
    pure (tot, fs)

/-! ### What is in a file -/

/-- The inode `j` as the kernel works with it: in memory, or else on the disk. -/
def inode (fs : Fs) (j : Nat) : Dinode :=
  match (List.finRange ninode).find? fun ip =>
      0 < (fs.itable ip).ref ∧ (fs.itable ip).valid ∧ (fs.itable ip).inum = j with
  | some ip => (fs.itable ip).d
  | none => fs.dinode j

/-- The byte at `x` of a file. -/
def byteAt (fs : Fs) (d : Dinode) (x : Nat) : UInt8 :=
  if fs.fileBlock d (x / bsize) = 0 then 0 else fs.block (fs.fileBlock d (x / bsize)) (x % bsize)

/-- The bytes of a file. -/
def content (fs : Fs) (d : Dinode) : List UInt8 := (List.range d.size).map (fs.byteAt d)

/-- The file is not too long, and has all its blocks. -/
structure Dense (fs : Fs) (d : Dinode) : Prop where
  size : d.size ≤ maxfile * bsize
  blocks : ∀ bn, bn * bsize < d.size → fs.fileBlock d bn ≠ 0

/-- The one entry of the table for an inode that is in use. -/
structure Live (fs : Fs) (ip : Fin ninode) : Prop where
  ref : 0 < (fs.itable ip).ref
  valid : (fs.itable ip).valid = true
  unique : ∀ jp, 0 < (fs.itable jp).ref → (fs.itable jp).inum = (fs.itable ip).inum → jp = ip

@[simp] lemma length_content (fs : Fs) (d : Dinode) : (fs.content d).length = d.size := by simp [content]

lemma inode_eq_of_find {jp : Fin ninode} {j : Nat}
    (h : (List.finRange ninode).find? (fun ip => 0 < (fs.itable ip).ref ∧ (fs.itable ip).valid ∧ (fs.itable ip).inum = j) =
      some jp) : fs.inode j = (fs.itable jp).d := by
  unfold inode
  rw [h]

/-- An entry in use is what its inode is. -/
lemma Live.inode (h : Live fs ip) : fs.inode (fs.itable ip).inum = (fs.itable ip).d := by
  have hsome : ((List.finRange ninode).find? fun jp => 0 < (fs.itable jp).ref ∧ (fs.itable jp).valid ∧
      (fs.itable jp).inum = (fs.itable ip).inum).isSome := by
    rw [List.find?_isSome]
    exact ⟨ip, List.mem_finRange ip, by simp [h.ref, h.valid]⟩
  obtain ⟨jp, hjp⟩ := Option.isSome_iff_exists.mp hsome
  have hfound := List.find?_some hjp
  simp only [decide_eq_true_eq] at hfound
  rw [inode_eq_of_find hjp, h.unique jp hfound.1 hfound.2.2]

lemma Live.congr (h : Live fs ip) (hsame : ∀ jp, (fs'.itable jp).ref = (fs.itable jp).ref ∧
    (fs'.itable jp).valid = (fs.itable jp).valid ∧ (fs'.itable jp).inum = (fs.itable jp).inum) : Live fs' ip := by
  refine ⟨?_, ?_, fun jp href hinum => h.unique jp ?_ ?_⟩
  · rw [(hsame ip).1]
    exact h.ref
  · rw [(hsame ip).2.1]
    exact h.valid
  · rwa [(hsame jp).1] at href
  · rwa [(hsame jp).2.2, (hsame ip).2.2] at hinum

/-- A change of the fields of one entry changes one inode. -/
lemma Live.inode_update (h : Live fs ip) (htable : fs'.itable = Function.update fs.itable ip { fs.itable ip with d := d })
    (hdisk : ∀ j, j ≠ (fs.itable ip).inum → fs'.dinode j = fs.dinode j) :
    fs'.inode = Function.update fs.inode (fs.itable ip).inum d := by
  have hsame : ∀ jp, (fs'.itable jp).ref = (fs.itable jp).ref ∧ (fs'.itable jp).valid = (fs.itable jp).valid ∧
      (fs'.itable jp).inum = (fs.itable jp).inum := by
    intro jp
    rw [htable]
    by_cases hjp : jp = ip
    · subst hjp
      simp
    · simp [hjp]
  funext j
  by_cases hj : j = (fs.itable ip).inum
  · have hlive := h.congr hsame
    rw [hj, Function.update_self, ← (hsame ip).2.2, hlive.inode, htable, Function.update_self]
  · have hfind : ((List.finRange ninode).find? fun jp =>
        0 < (fs'.itable jp).ref ∧ (fs'.itable jp).valid ∧ (fs'.itable jp).inum = j) =
        (List.finRange ninode).find? fun jp => 0 < (fs.itable jp).ref ∧ (fs.itable jp).valid ∧ (fs.itable jp).inum = j := by
      congr
      funext jp
      rw [(hsame jp).1, (hsame jp).2.1, (hsame jp).2.2]
    rw [Function.update_of_ne hj]
    unfold Fs.inode
    rw [hfind]
    split
    · next jp hjp =>
      have hfound := List.find?_some hjp
      simp only [decide_eq_true_eq] at hfound
      have hne : jp ≠ ip := by
        rintro rfl
        exact hj hfound.2.2.symm
      rw [htable, Function.update_of_ne hne]
    · exact hdisk j hj

/-! ### Reading -/

lemma byteAt_none {x : Nat} (h : fs.fileBlock d (x / bsize) = 0) : fs.byteAt d x = 0 := if_pos h

lemma byteAt_some {x : Nat} (h : fs.fileBlock d (x / bsize) ≠ 0) :
    fs.byteAt d x = fs.block (fs.fileBlock d (x / bsize)) (x % bsize) := if_neg h

/-- `bmap` of a block that is there changes nothing. -/
lemma bmap_found {bn : Nat} (hbn : bn < maxfile) (h : fs.fileBlock (fs.itable ip).d bn ≠ 0) :
    fs.bmap ip bn = .ok (fs.fileBlock (fs.itable ip).d bn, fs) := by
  by_cases hlt : bn < ndirect
  · have hslot : fs.fileBlock (fs.itable ip).d bn = (fs.itable ip).d.addrs bn := by
      unfold fileBlock slotOf
      rw [if_pos hlt, slot_direct hlt.le]
    rw [hslot] at h ⊢
    unfold bmap bmapDirect
    dsimp only
    rw [if_pos hlt, if_pos h]
    rfl
  · obtain ⟨m, rfl⟩ : ∃ m, bn = ndirect + m := ⟨bn - ndirect, by omega⟩
    have hm : m < nindirect := by
      unfold maxfile at hbn
      omega
    have hslotOf : slotOf (ndirect + m) = ndirect + 1 + m := by
      unfold slotOf
      rw [if_neg hlt]
      omega
    have hind : (fs.itable ip).d.addrs ndirect ≠ 0 := by
      intro hzero
      unfold fileBlock at h
      rw [hslotOf, slot_none (by omega) hzero] at h
      exact h rfl
    have hslot : fs.fileBlock (fs.itable ip).d (ndirect + m) = fs.indirect ((fs.itable ip).d.addrs ndirect) m := by
      unfold fileBlock
      rw [hslotOf, slot_indirect hind hm]
    rw [hslot] at h ⊢
    unfold bmap bmapDirect
    dsimp only
    rw [if_neg hlt, if_pos (by omega), if_pos hind, Nat.add_sub_cancel_left]
    change (if (fs.itable ip).d.addrs ndirect = 0 then _ else _) = _
    rw [if_neg hind, if_pos h]
    rfl

/-- Within a block, bytes of the file are bytes of the block. -/
lemma byteAt_add {off j : Nat} (hb : fs.fileBlock d (off / bsize) ≠ 0) (hj : off % bsize + j < bsize) :
    fs.byteAt d (off + j) = fs.block (fs.fileBlock d (off / bsize)) (off % bsize + j) := by
  have hdiv : (off + j) / bsize = off / bsize := by
    unfold bsize at hj ⊢
    omega
  have hmod : (off + j) % bsize = off % bsize + j := by
    unfold bsize at hj ⊢
    omega
  rw [byteAt_some (by rwa [hdiv]), hdiv, hmod]

lemma Dense.lt_maxfile (h : Dense fs d) {x : Nat} (hx : x < d.size) : x / bsize < maxfile :=
  Nat.div_lt_of_lt_mul (by have := h.size; rw [Nat.mul_comm]; omega)

lemma Dense.fileBlock (h : Dense fs d) {x : Nat} (hx : x < d.size) : fs.fileBlock d (x / bsize) ≠ 0 :=
  h.blocks _ ((Nat.div_mul_le_self x bsize).trans_lt hx)

lemma readiLoop_ok (h : Dense fs (fs.itable ip).d) {fuel : Nat} : ∀ {off n : Nat} {acc : List UInt8}, n ≤ fuel →
    off + n ≤ (fs.itable ip).d.size → readiLoop ip fuel fs off n acc =
      .ok (acc ++ (List.range n).map fun j => fs.byteAt (fs.itable ip).d (off + j), fs) := by
  induction fuel with
  | zero =>
    intro off n acc hn _
    obtain rfl : n = 0 := by omega
    simp [readiLoop]
    rfl
  | succ fuel ih =>
    intro off n acc hn hsize
    rw [readiLoop]
    by_cases hzero : n = 0
    · subst hzero
      simp
      rfl
    · have hlt : off < (fs.itable ip).d.size := by omega
      have hblock := h.fileBlock hlt
      have hmod : off % bsize < bsize := Nat.mod_lt off (by decide)
      rw [if_neg hzero, bmap_found (h.lt_maxfile hlt) hblock, ok_bind]
      dsimp only
      rw [if_neg hblock]
      obtain ⟨m, hm⟩ : ∃ m, m = min n (bsize - off % bsize) := ⟨_, rfl⟩
      rw [← hm, ih (by omega) (by omega)]
      have hsplit : List.range n = List.range m ++ (List.range (n - m)).map (m + ·) := by
        rw [← List.range_add, Nat.add_sub_cancel' (by omega)]
      have hfirst : (List.range m).map (fun j => fs.byteAt (fs.itable ip).d (off + j)) =
          (List.range m).map fun j => fs.block (fs.fileBlock (fs.itable ip).d (off / bsize)) (off % bsize + j) := by
        refine List.map_congr_left fun j hj => byteAt_add hblock ?_
        have := List.mem_range.mp hj
        omega
      rw [hsplit, List.map_append, List.map_map, hfirst, List.append_assoc]
      simp only [Function.comp_def, Nat.add_assoc]

/-- Reading gives the bytes of the file, up to its end. -/
theorem readi_ok (h : Dense fs (fs.itable ip).d) {off n : Nat} (hn : off + n < 2 ^ 32) :
    fs.readi ip off n = .ok (((fs.content (fs.itable ip).d).drop off).take n, fs) := by
  have hu : u32 (off + n) = off + n := Nat.mod_eq_of_lt hn
  unfold readi
  rw [hu]
  dsimp only
  by_cases hoff : (fs.itable ip).d.size < off
  · rw [if_pos (Or.inl hoff), List.drop_eq_nil_of_le (by simp; omega)]
    simp
    rfl
  · rw [if_neg (by omega), readiLoop_ok h le_rfl (by split <;> omega), List.nil_append]
    congr 2
    apply List.ext_getElem
    · simp only [List.length_map, List.length_range, List.length_take, List.length_drop, length_content]
      split <;> omega
    · intro k hk _
      simp [content]

/-! ### Writing -/

/-- From `fs` to `fs'` the bytes from `lo` to `hi` of the file `i`, now `d`, have become `g`; everything
else in it and in the other files is as before. -/
structure Writes (fs : Fs) (D : Nat → Dinode) (ip : Fin ninode) (i lo hi : Nat) (g : Nat → UInt8) (fs' : Fs)
    (d : Dinode) : Prop where
  owned : Owned fs' (Function.update D i d)
  sb : fs'.sb = fs.sb
  dinode : fs'.dinode = fs.dinode
  itable : fs'.itable = Function.update fs.itable ip { fs.itable ip with d := d }
  type : d.type = (D i).type
  nlink : d.nlink = (D i).nlink
  size : d.size = (D i).size
  kept : ∀ bn, fs.fileBlock (D i) bn ≠ 0 → fs'.fileBlock d bn = fs.fileBlock (D i) bn
  filled : ∀ x, lo ≤ x → x < hi → fs'.fileBlock d (x / bsize) ≠ 0
  bytes : ∀ x, fs'.byteAt d x = if lo ≤ x ∧ x < hi then g x else fs.byteAt (D i) x
  others : ∀ j, j ≠ i → (D j).type ≠ 0 →
    (∀ bn, fs.fileBlock (D j) bn ≠ 0 → fs'.fileBlock (D j) bn ≠ 0) ∧ ∀ x, fs'.byteAt (D j) x = fs.byteAt (D j) x

variable {lo mid hi : Nat} {g : Nat → UInt8}

lemma Writes.inode (h : Writes fs D ip i lo hi g fs' d) : (fs'.itable ip).d = Function.update D i d i := by
  rw [h.itable, Function.update_self, Function.update_self]

lemma Writes.trans {fs'' : Fs} (h : Writes fs D ip i lo mid g fs' d)
    (h' : Writes fs' (Function.update D i d) ip i mid hi g fs'' d') (hlo : lo ≤ mid) (hhi : mid ≤ hi) :
    Writes fs D ip i lo hi g fs'' d' := by
  have hself : Function.update D i d i = d := Function.update_self i d D
  obtain ⟨howned, hsb, hdinode, htable, htype, hnlink, hsize, hkept, hfilled, hbytes, hothers⟩ := h'
  rw [hself] at htype hnlink hsize hkept hbytes
  rw [Function.update_idem] at howned
  refine ⟨howned, hsb.trans h.sb, hdinode.trans h.dinode, ?_, htype.trans h.type, hnlink.trans h.nlink,
    hsize.trans h.size, fun bn hbn => ?_, fun x hx hx' => ?_, fun x => ?_, fun j hj ht => ?_⟩
  · rw [htable, h.itable, Function.update_idem, Function.update_self]
  · have hmid := h.kept bn hbn
    rw [hkept bn (by rwa [hmid]), hmid]
  · by_cases hmid : x < mid
    · rw [hkept _ (h.filled x hx hmid)]
      exact h.filled x hx hmid
    · exact hfilled x (not_lt.mp hmid) hx'
  · rw [hbytes x, h.bytes x]
    split
    · rw [if_pos (by omega)]
    · split
      · rw [if_pos (by omega)]
      · rw [if_neg (by omega)]
  · have hsame : Function.update D i d j = D j := Function.update_of_ne hj d D
    obtain ⟨hblock, hbyte⟩ := h.others j hj ht
    obtain ⟨hblock', hbyte'⟩ := hothers j hj (by rwa [hsame])
    rw [hsame] at hblock' hbyte'
    exact ⟨fun bn hbn => hblock' bn (hblock bn hbn), fun x => (hbyte' x).trans (hbyte x)⟩

/-- A file that has got blocks with zeros reads as before. -/
lemma Extends.byteAt (h : Extends fs D ip i fs' d) {j : Nat} (ht : (D j).type ≠ 0) (x : Nat) :
    fs'.byteAt (Function.update D i d j) x = fs.byteAt (D j) x := by
  have ht' : (Function.update D i d j).type ≠ 0 := by
    by_cases hj : j = i
    · rw [hj, Function.update_self, h.type, ← hj]
      exact ht
    · rwa [Function.update_of_ne hj]
  have hkept := h.kept (j, slotOf (x / bsize))
  have hdata := h.data (j, slotOf (x / bsize)) (slotOf_ne _)
  have hzeroed := h.zeroed (j, slotOf (x / bsize)) (slotOf_ne _)
  rw [loc_of_type ht, loc_of_type ht'] at hkept hzeroed
  rw [loc_of_type ht] at hdata
  by_cases hold : fs.fileBlock (D j) (x / bsize) = 0
  · rw [byteAt_none hold]
    by_cases hnew : fs'.fileBlock (Function.update D i d j) (x / bsize) = 0
    · exact byteAt_none hnew
    · rw [byteAt_some hnew]
      exact congrFun (hzeroed hold hnew) _
  · have hblock : fs'.fileBlock (Function.update D i d j) (x / bsize) = fs.fileBlock (D j) (x / bsize) := hkept hold
    rw [byteAt_some hold, byteAt_some (by rwa [hblock]), hblock]
    exact congrFun (hdata hold) _

lemma Extends.fileBlock (h : Extends fs D ip i fs' d) {j : Nat} (ht : (D j).type ≠ 0) {bn : Nat}
    (hbn : fs.fileBlock (D j) bn ≠ 0) : fs'.fileBlock (Function.update D i d j) bn = fs.fileBlock (D j) bn := by
  have ht' : (Function.update D i d j).type ≠ 0 := by
    by_cases hj : j = i
    · rw [hj, Function.update_self, h.type, ← hj]
      exact ht
    · rwa [Function.update_of_ne hj]
  have hkept := h.kept (j, slotOf bn)
  rw [loc_of_type ht, loc_of_type ht'] at hkept
  exact hkept hbn

/-- Getting blocks is writing nothing. -/
lemma Extends.writes (h : Extends fs D ip i fs' d) (ht : (D i).type ≠ 0) (lo : Nat) (g : Nat → UInt8) :
    Writes fs D ip i lo lo g fs' d := by
  have hself : Function.update D i d i = d := Function.update_self i d D
  refine ⟨h.owned, h.sb, h.dinode, h.itable, h.type, h.nlink, h.size, fun bn hbn => ?_, fun x hx hx' => ?_, fun x => ?_,
    fun j hj htj => ?_⟩
  · have hsame := h.fileBlock ht hbn
    rwa [hself] at hsame
  · omega
  · have hbyte := h.byteAt ht x
    rw [hself] at hbyte
    rw [if_neg (by omega), hbyte]
  · have hsame : Function.update D i d j = D j := Function.update_of_ne hj d D
    refine ⟨fun bn hbn => ?_, fun x => ?_⟩
    · have hblock := h.fileBlock htj hbn
      rw [hsame] at hblock
      rwa [hblock]
    · have hbyte := h.byteAt htj x
      rwa [hsame] at hbyte

/-- A block is the same block of the same file. -/
lemma Owned.fileBlock_inj (h : Owned fs D) (ht : (D i).type ≠ 0) {j bn bn' : Nat} (htj : (D j).type ≠ 0)
    (hne : fs.fileBlock (D i) bn ≠ 0) (heq : fs.fileBlock (D i) bn = fs.fileBlock (D j) bn') : i = j ∧ bn = bn' := by
  have hinj := h.placed.inj (i, slotOf bn) (j, slotOf bn')
  rw [loc_of_type ht, loc_of_type htj] at hinj
  have hsame := Prod.mk.inj (hinj hne heq)
  exact ⟨hsame.1, slotOf_inj hsame.2⟩

/-- An indirect block has no bytes of files. -/
lemma Owned.indirect_ne_fileBlock (h : Owned fs D) (ht : (D i).type ≠ 0) {j : Nat} (htj : (D j).type ≠ 0)
    (hind : (D j).addrs ndirect ≠ 0) (bn : Nat) : (D j).addrs ndirect ≠ fs.fileBlock (D i) bn := by
  intro heq
  have hinj := h.placed.inj (j, ndirect) (i, slotOf bn)
  rw [loc_of_type htj, loc_of_type ht, slot_direct le_rfl] at hinj
  exact slotOf_ne bn (Prod.mk.inj (hinj hind heq)).2.symm

/-- Blocks with bytes of files list nothing. -/
lemma Owned.slot_write (h : Owned fs D) (ht : (D i).type ≠ 0) {bn : Nat}
    (hblock : ∀ c, c ≠ fs.fileBlock (D i) bn → fs'.block c = fs.block c) {j : Nat} (htj : (D j).type ≠ 0) (k : Nat) :
    fs'.slot (D j) k = fs.slot (D j) k := by
  exact slot_congr (fun _ _ => rfl) fun hind => hblock _ (h.indirect_ne_fileBlock ht htj hind bn)

lemma Owned.congr {D' : Nat → Dinode} (h : Owned fs D) (hsb : fs'.sb = fs.sb) (hbits : fs'.bitmap = fs.bitmap)
    (hloc : fs'.loc D' = fs.loc D) : Owned fs' D' := by
  have hsame : fs'.IsData = fs.IsData := by
    unfold IsData dataStart
    rw [hsb]
  refine ⟨?_, fun c hc hlt => ?_, hsb ▸ h.size⟩
  · rw [hsame, hbits, hloc]
    exact h.placed
  · unfold dataStart at hc
    rw [hsb] at hc hlt
    rw [hbits]
    exact h.metadata c hc hlt

/-- The bytes from `off` on are put into the block they belong to. -/
lemma Owned.writes (h : Owned fs D) (hd : (fs.itable ip).d = D i) (ht : (D i).type ≠ 0) {off m : Nat}
    (hb : fs.fileBlock (D i) (off / bsize) ≠ 0) (hm : off % bsize + m ≤ bsize) (hsb : fs'.sb = fs.sb)
    (hdinode : fs'.dinode = fs.dinode) (htable : fs'.itable = fs.itable) (hbits : fs'.bitmap = fs.bitmap)
    (hblock : ∀ c, c ≠ fs.fileBlock (D i) (off / bsize) → fs'.block c = fs.block c)
    (hbytes : ∀ x, fs'.block (fs.fileBlock (D i) (off / bsize)) x =
      if off % bsize ≤ x ∧ x < off % bsize + m then g (off + (x - off % bsize))
      else fs.block (fs.fileBlock (D i) (off / bsize)) x) :
    Writes fs D ip i off (off + m) g fs' (D i) := by
  have hupdate : Function.update D i (D i) = D := Function.update_eq_self i D
  have hslot := fun {j} => h.slot_write (j := j) ht hblock
  have hfile : ∀ {j}, (D j).type ≠ 0 → ∀ bn, fs'.fileBlock (D j) bn = fs.fileBlock (D j) bn := fun htj bn => hslot htj _
  have hloc : fs'.loc D = fs.loc D := by
    funext ⟨j, k⟩
    unfold loc
    split
    · rfl
    · next htj => exact hslot htj k
  refine ⟨?_, hsb, hdinode, ?_, rfl, rfl, rfl, fun bn _ => ?_, fun x hx hx' => ?_, fun x => ?_, fun j hj htj => ?_⟩
  · rw [hupdate]
    exact h.congr hsb hbits hloc
  · rw [htable, ← hd]
    exact (Function.update_eq_self ip fs.itable).symm
  · exact hfile ht bn
  · have hdiv : x / bsize = off / bsize := by
      unfold bsize at *
      omega
    rwa [hfile ht, hdiv]
  · by_cases hnone : fs.fileBlock (D i) (x / bsize) = 0
    · have hout : ¬ (off ≤ x ∧ x < off + m) := by
        intro hin
        have hdiv : x / bsize = off / bsize := by
          unfold bsize at *
          omega
        exact hb (hdiv ▸ hnone)
      rw [if_neg hout, byteAt_none hnone, byteAt_none (by rwa [hfile ht])]
    · rw [byteAt_some (by rwa [hfile ht]), byteAt_some hnone, hfile ht]
      by_cases hdiv : x / bsize = off / bsize
      · have hiff : (off % bsize ≤ x % bsize ∧ x % bsize < off % bsize + m) ↔ (off ≤ x ∧ x < off + m) := by
          unfold bsize at *
          omega
        rw [hdiv, hbytes]
        by_cases hin : off ≤ x ∧ x < off + m
        · have hx : off + (x % bsize - off % bsize) = x := by
            unfold bsize at *
            omega
          rw [if_pos hin, if_pos (hiff.mpr hin), hx]
        · rw [if_neg hin, if_neg (fun hin' => hin (hiff.mp hin'))]
      · have hout : ¬ (off ≤ x ∧ x < off + m) := by
          unfold bsize at *
          omega
        -- another block of the file is another block of the disk
        have hne : fs.fileBlock (D i) (x / bsize) ≠ fs.fileBlock (D i) (off / bsize) :=
          fun heq => hdiv (h.fileBlock_inj ht ht hnone heq).2
        rw [if_neg hout, hblock _ hne]
  · refine ⟨fun bn hbn => by rwa [hfile htj], fun x => ?_⟩
    by_cases hnone : fs.fileBlock (D j) (x / bsize) = 0
    · rw [byteAt_none hnone, byteAt_none (by rwa [hfile htj])]
    · have hne : fs.fileBlock (D j) (x / bsize) ≠ fs.fileBlock (D i) (off / bsize) :=
        fun heq => hj (h.fileBlock_inj htj ht hnone heq).1
      rw [byteAt_some (by rwa [hfile htj]), byteAt_some hnone, hfile htj, hblock _ hne]

/-! ### The loop of `writei` -/

/-- How many blocks the bytes from `lo` to `hi` are in. -/
def touched (lo hi : Nat) : Nat := if lo < hi then (hi + bsize - 1) / bsize - lo / bsize else 0

/-- How many blocks have to be allocated before the bytes from `lo` to `hi` are there. -/
def needed (fs : Fs) (d : Dinode) (lo hi : Nat) : Nat :=
  ((Finset.range maxfile).filter fun bn => lo / bsize ≤ bn ∧ bn * bsize < hi ∧ fs.fileBlock d bn = 0).card +
    if ndirect * bsize < hi ∧ d.addrs ndirect = 0 then 1 else 0

lemma touched_pos (h : lo < hi) : 0 < touched lo hi := by
  unfold touched bsize
  rw [if_pos h]
  omega

lemma touched_step {m : Nat} (h : lo < hi) (hm : m = hi - lo ∨ m = bsize - lo % bsize) :
    touched (lo + m) hi + 1 ≤ touched lo hi := by
  unfold touched bsize at *
  rw [if_pos h]
  split <;> omega

section Round

variable {off start m n : Nat}

/-- A round of `writei` that is not the last one ends at the end of a block. -/
lemma round_end (hm : m = min (n - start) (bsize - (off + start) % bsize)) (hle : start ≤ n) :
    (off + (start + m)) % bsize = 0 ∨ start + m = n := by
  unfold bsize at *
  omega

/-- What is past a round is in another block. -/
lemma other_block {tot : Nat} (hm : m = min (n - start) (bsize - (off + start) % bsize)) (hstart : start + m ≤ tot)
    (hlt : tot < n) : (off + tot) / bsize ≠ (off + start) / bsize := by
  unfold bsize at *
  omega

/-- A round starts at the beginning of a block, or is the first one. -/
lemma round_start {k : Nat} (halign : start = 0 ∨ (off + start) % bsize = 0 ∨ start = n)
    (hm : m = min (n - start) (bsize - (off + start) % bsize)) (hk : k < m) :
    off + start = max off ((off + start + k) / bsize * bsize) := by
  unfold bsize at *
  omega

end Round

lemma Room.mono {a a' : Nat} (h : Room fs d L a) (ha : a' ≤ a) : Room fs d L a' :=
  ⟨h.logs, h.marks.mono (Finset.Subset.refl L) ha, h.indirect⟩

/-- No block was to be had, though one was missing. -/
lemma Found.freeCount_lt {L' : Finset Nat} (h : Found fs D ip i (lo / bsize) L fs' d L') (ht : (D i).type ≠ 0)
    (hnone : fs'.fileBlock d (lo / bsize) = 0) (hlt : lo < hi) (hhi : hi ≤ maxfile * bsize) :
    fs.freeCount < fs.needed (D i) lo hi := by
  have hself : Function.update D i d i = d := Function.update_self i d D
  have hold : fs.fileBlock (D i) (lo / bsize) = 0 := by
    by_contra hne
    have hkept := h.ext.fileBlock ht hne
    rw [hself, hnone] at hkept
    exact hne hkept.symm
  have hmem : lo / bsize ∈ (Finset.range maxfile).filter fun bn =>
      lo / bsize ≤ bn ∧ bn * bsize < hi ∧ fs.fileBlock (D i) bn = 0 := by
    refine Finset.mem_filter.mpr ⟨Finset.mem_range.mpr ?_, le_rfl, ?_, hold⟩
    · unfold bsize at *
      omega
    · unfold bsize at *
      omega
  have hcard := Finset.card_pos.mpr ⟨_, hmem⟩
  have hfree := h.free
  rw [h.full hnone, if_neg (fun hboth => hboth.2 hnone)] at hfree
  unfold needed
  by_cases hind : (D i).addrs ndirect = 0 ∧ d.addrs ndirect ≠ 0
  · have hfar : ndirect * bsize < hi := by
      by_contra hnear
      have hbn : lo / bsize < ndirect := by
        unfold bsize ndirect at *
        omega
      exact hind.2 ((h.near hbn).trans hind.1)
    rw [if_pos hind] at hfree
    rw [if_pos ⟨hfar, hind.1⟩]
    omega
  · rw [if_neg hind] at hfree
    omega

/-- What is missing for the first piece is missing for the whole. -/
lemma missing_le_needed (hlt : lo < hi) (hhi : hi ≤ maxfile * bsize) : fs.missing d (lo / bsize) ≤ fs.needed d lo hi := by
  have hind : (if ndirect ≤ lo / bsize ∧ d.addrs ndirect = 0 then 1 else 0) ≤
      if ndirect * bsize < hi ∧ d.addrs ndirect = 0 then 1 else 0 := by
    by_cases hfar : ndirect ≤ lo / bsize
    · have hreach : ndirect * bsize < hi := by
        unfold bsize ndirect at *
        omega
      simp [hfar, hreach]
    · simp [hfar]
  have hblock : (if fs.fileBlock d (lo / bsize) = 0 then 1 else 0) ≤ ((Finset.range maxfile).filter fun bn =>
      lo / bsize ≤ bn ∧ bn * bsize < hi ∧ fs.fileBlock d bn = 0).card := by
    by_cases hnew : fs.fileBlock d (lo / bsize) = 0
    · rw [if_pos hnew]
      refine Finset.card_pos.mpr ⟨lo / bsize, Finset.mem_filter.mpr ⟨Finset.mem_range.mpr ?_, le_rfl, ?_, hnew⟩⟩
      · unfold bsize at *
        omega
      · unfold bsize at *
        omega
    · rw [if_neg hnew]
      exact Nat.zero_le _
  unfold missing needed
  omega

/-- An entry of the indirect block is there only with that block. -/
lemma indirect_of_fileBlock {bn : Nat} (h : fs.fileBlock d bn ≠ 0) (hfar : ndirect ≤ bn) : d.addrs ndirect ≠ 0 := by
  intro hzero
  refine h (slot_none ?_ hzero)
  unfold slotOf
  rw [if_neg (by omega)]
  omega

/-- A block that is there now was there or has been taken from the free ones. -/
lemma Found.freeCount_eq {bn : Nat} {L' : Finset Nat} (h : Found fs D ip i bn L fs' d L') (hsome : fs'.fileBlock d bn ≠ 0) :
    fs'.freeCount + fs.missing (D i) bn = fs.freeCount := by
  have hfree := h.free
  simp only [hsome, ne_eq, not_false_eq_true, and_true] at hfree
  unfold missing
  by_cases hfar : ndirect ≤ bn ∧ (D i).addrs ndirect = 0
  · have hind := indirect_of_fileBlock hsome hfar.1
    rw [if_pos (show (D i).addrs ndirect = 0 ∧ ¬ d.addrs ndirect = 0 from ⟨hfar.2, hind⟩)] at hfree
    rw [if_pos hfar]
    omega
  · have hnone : ¬ ((D i).addrs ndirect = 0 ∧ ¬ d.addrs ndirect = 0) := by
      intro hboth
      by_cases hbn : bn < ndirect
      · exact hboth.2 ((h.near hbn).trans hboth.1)
      · exact hfar ⟨not_lt.mp hbn, hboth.1⟩
    rw [if_neg hnone] at hfree
    rw [if_neg hfar]
    omega

/-- The blocks that were missing for this piece are not missing for the rest. -/
lemma Found.needed_add {L' : Finset Nat} {fs'' : Fs} (h : Found fs D ip i (lo / bsize) L fs' d L')
    (ht : (D i).type ≠ 0) (hlt : lo < hi) (hhi : hi ≤ maxfile * bsize) (hmid : lo ≤ mid)
    (hkept : ∀ bn, fs.fileBlock (D i) bn ≠ 0 → fs''.fileBlock d bn = fs.fileBlock (D i) bn)
    (hfound : fs''.fileBlock d (lo / bsize) ≠ 0) :
    fs''.needed d mid hi + fs.missing (D i) (lo / bsize) ≤ fs.needed (D i) lo hi := by
  have hsub : ((Finset.range maxfile).filter fun bn => mid / bsize ≤ bn ∧ bn * bsize < hi ∧ fs''.fileBlock d bn = 0) ⊆
      ((Finset.range maxfile).filter fun bn => lo / bsize ≤ bn ∧ bn * bsize < hi ∧ fs.fileBlock (D i) bn = 0).erase
        (lo / bsize) := by
    intro bn hbn
    obtain ⟨hrange, hle, hbelow, hzero⟩ := Finset.mem_filter.mp hbn
    refine Finset.mem_erase.mpr ⟨?_, Finset.mem_filter.mpr ⟨hrange, ?_, hbelow, ?_⟩⟩
    · rintro rfl
      exact hfound hzero
    · exact (Nat.div_le_div_right hmid).trans hle
    · by_contra hne
      exact hne ((hkept bn hne).symm.trans hzero)
  have hle := Finset.card_le_card hsub
  have hblocks : ((Finset.range maxfile).filter fun bn => mid / bsize ≤ bn ∧ bn * bsize < hi ∧ fs''.fileBlock d bn = 0).card +
      (if fs.fileBlock (D i) (lo / bsize) = 0 then 1 else 0) ≤
      ((Finset.range maxfile).filter fun bn => lo / bsize ≤ bn ∧ bn * bsize < hi ∧ fs.fileBlock (D i) bn = 0).card := by
    by_cases hnew : fs.fileBlock (D i) (lo / bsize) = 0
    · have hmem : lo / bsize ∈ (Finset.range maxfile).filter fun bn =>
          lo / bsize ≤ bn ∧ bn * bsize < hi ∧ fs.fileBlock (D i) bn = 0 := by
        refine Finset.mem_filter.mpr ⟨Finset.mem_range.mpr ?_, le_rfl, ?_, hnew⟩
        · unfold bsize at *
          omega
        · unfold bsize at *
          omega
      have herase := Finset.card_erase_add_one hmem
      rw [if_pos hnew]
      omega
    · rw [if_neg hnew]
      exact hle.trans (Finset.card_le_card (Finset.erase_subset _ _))
  have hind : (if ndirect * bsize < hi ∧ d.addrs ndirect = 0 then 1 else 0) +
      (if ndirect ≤ lo / bsize ∧ (D i).addrs ndirect = 0 then 1 else 0) ≤
      if ndirect * bsize < hi ∧ (D i).addrs ndirect = 0 then 1 else 0 := by
    by_cases hold : (D i).addrs ndirect = 0
    · by_cases hfar : ndirect ≤ lo / bsize
      · have hreach : ndirect * bsize < hi := by
          unfold bsize ndirect at *
          omega
        simp [hold, hfar, hreach, indirect_of_fileBlock hfound hfar]
      · have hsame := (h.near (not_le.mp hfar)).trans hold
        simp [hold, hfar, hsame]
    · have hkeep := h.ext.kept (i, ndirect)
      have hself : Function.update D i d i = d := Function.update_self i d D
      have ht' : (Function.update D i d i).type ≠ 0 := by
        rw [hself, h.ext.type]
        exact ht
      rw [loc_of_type ht, loc_of_type ht', hself, slot_direct le_rfl, slot_direct le_rfl] at hkeep
      have hnew : d.addrs ndirect ≠ 0 := by
        rw [hkeep hold]
        exact hold
      simp [hold, hnew]
  unfold needed missing
  omega

/-- The longest part of `0, …, n - 1` with a property. -/
lemma length_takeWhile_range (p : Nat → Bool) (n : Nat) :
    ((List.range n).takeWhile p).length ≤ n ∧ (∀ j < ((List.range n).takeWhile p).length, p j = true) ∧
      (((List.range n).takeWhile p).length < n → p ((List.range n).takeWhile p).length = false) := by
  induction n with
  | zero => simp
  | succ n ih =>
    obtain ⟨hle, hall, hstop⟩ := ih
    rw [List.range_succ, List.takeWhile_append, List.length_range]
    by_cases hfull : ((List.range n).takeWhile p).length = n
    · rw [if_pos hfull]
      rw [hfull] at hall
      by_cases hn : p n = true
      · rw [List.takeWhile_cons_of_pos hn, List.takeWhile_nil, List.length_append, List.length_range, List.length_singleton]
        refine ⟨le_rfl, fun j hj => ?_, fun hlt => absurd hlt (lt_irrefl _)⟩
        by_cases hjn : j = n
        · rwa [hjn]
        · exact hall j (by omega)
      · rw [List.takeWhile_cons_of_neg hn, List.append_nil, List.length_range]
        exact ⟨Nat.le_succ n, hall, fun _ => by simpa using hn⟩
    · rw [if_neg hfull]
      exact ⟨hle.trans (Nat.le_succ n), hall, fun _ => hstop (by omega)⟩

/-- What the copy into a block leaves: as much of what was asked for as the source has. -/
lemma copyinBlock_ok (m : Mem) (dst : Nat) (src : Nat → Option UInt8) (tot n : Nat) :
    ∃ k ≤ n, (copyinBlock m dst src tot n).1 = decide (k = n) ∧ (∀ j < k, (src (tot + j)).isSome) ∧
      (k < n → src (tot + k) = none) ∧
      ∀ x, (copyinBlock m dst src tot n).2 x = if dst ≤ x ∧ x < dst + k then (src (tot + (x - dst))).getD 0 else m x := by
  obtain ⟨hle, hall, hstop⟩ := length_takeWhile_range (fun j => (src (tot + j)).isSome) n
  exact ⟨_, hle, rfl, hall, fun hlt => by simpa using hstop hlt, fun _ => rfl⟩

/-- What the loop of `writei` has done when it ends with `tot`. If the source could not be read, the last
block may have got bytes that do not count. -/
structure Looped (fs : Fs) (D : Nat → Dinode) (ip : Fin ninode) (i off n : Nat) (src : Nat → Option UInt8)
    (start : Nat) (L : Finset Nat) (tot : Nat) (fs' : Fs) (d : Dinode) (L' : Finset Nat) (hi : Nat) : Prop where
  writes : Writes fs D ip i (off + start) hi (fun x => (src (x - off)).getD 0) fs' d
  logs : Logs fs' L'
  mono : L ⊆ L'
  card : L'.card + (if d.addrs ndirect = 0 then 1 else 0) ≤
    L.card + (if (D i).addrs ndirect = 0 then 1 else 0) + touched (off + start) (off + n)
  start_le : start ≤ tot
  le_hi : off + tot ≤ hi
  hi_le : hi ≤ off + n
  source : ∀ j, start ≤ j → off + j < hi → (src j).isSome
  ended : hi = off + tot ∧ (tot = n ∨ fs'.fileBlock d ((off + tot) / bsize) = 0) ∨
    hi < off + n ∧ src (hi - off) = none ∧ off + tot = max off (hi / bsize * bsize)
  enough : (∀ j < n, (src j).isSome) → fs.needed (D i) (off + start) (off + n) ≤ fs.freeCount → tot = n
  first : start < tot → fs.missing (D i) ((off + start) / bsize) ≤ fs.freeCount
  users : fs'.log = { fs.log with block := fs'.log.block }
  log : fs.log.block ⊆ fs'.log.block
  disk : ∀ c, c ∉ fs'.log.block → hi = off + tot ∨ c ≠ fs'.fileBlock d ((off + tot) / bsize) → fs'.block c = fs.block c
  last : off + tot < hi → fs.fileBlock (D i) ((off + tot) / bsize) = 0 →
    fs'.fileBlock d ((off + tot) / bsize) ∈ fs'.log.block
  budget : tot = n → ∀ top, off + n ≤ top → top ≤ maxfile * bsize →
    fs'.needed d (off + n) top + fs.freeCount ≤ fs.needed (D i) (off + start) top + fs'.freeCount

lemma writeiLoop_ok (src : Nat → Option UInt8) {off n fuel : Nat} (hmax : off + n ≤ maxfile * bsize) :
    ∀ {fs : Fs} {D : Nat → Dinode} {L : Finset Nat} {start a : Nat}, Owned fs D → (fs.itable ip).d = D i →
      (D i).type ≠ 0 → n - start ≤ fuel → start ≤ n → start = 0 ∨ (off + start) % bsize = 0 ∨ start = n →
      Room fs (D i) L a → fs.needed (D i) (off + start) (off + n) ≤ a →
      ∃ tot fs' d' L' hi, Gives (writeiLoop ip src n fuel fs (off + start) start) (tot, off + tot, fs') L' ∧
        Looped fs D ip i off n src start L tot fs' d' L' hi := by
  have stays : ∀ {fs fs' : Fs} {D : Nat → Dinode} {d : Dinode} {L L' : Finset Nat} {start : Nat}, Extends fs D ip i fs' d →
      (D i).type ≠ 0 → Backed fs fs' → Logs fs' L' → L ⊆ L' → L'.card + (if d.addrs ndirect = 0 then 1 else 0) ≤
        L.card + (if (D i).addrs ndirect = 0 then 1 else 0) + touched (off + start) (off + n) → start ≤ n →
      (start < n → fs.freeCount < fs.needed (D i) (off + start) (off + n) ∧ fs'.fileBlock d ((off + start) / bsize) = 0) →
      (start = n → fs' = fs ∧ d = D i) →
      Looped fs D ip i off n src start L start fs' d L' (off + start) := by
    intro fs fs' D d L L' start hext ht hbacked hlogs hmono hcard hle hfull hsame
    refine ⟨hext.writes ht _ _, hlogs, hmono, hcard, le_rfl, le_rfl, by omega, by omega, Or.inl ⟨rfl, ?_⟩, fun _ henough => ?_,
      fun hlt => absurd hlt (lt_irrefl _), hbacked.log, hbacked.mono, fun c hc _ => hbacked.same c hc, fun hlt => absurd hlt (lt_irrefl _),
      fun hall top _ _ => ?_⟩
    · by_cases hlt : start < n
      · exact Or.inr (hfull hlt).2
      · exact Or.inl (by omega)
    · by_contra hne
      have := (hfull (by omega)).1
      omega
    · obtain ⟨rfl, rfl⟩ := hsame hall
      rw [hall]
  induction fuel with
  | zero =>
    intro fs D L start a h hd ht hfuel hle halign hroom hneed
    rw [writeiLoop]
    exact ⟨start, fs, D i, L, off + start, Gives.ok L rfl, stays (.refl h hd) ht (.refl fs) hroom.logs (Finset.Subset.refl L) (by omega) hle (by omega)
      fun _ => ⟨rfl, rfl⟩⟩
  | succ fuel ih =>
    intro fs D L start a h hd ht hfuel hle halign hroom hneed
    by_cases hdone : n ≤ start
    · exact ⟨start, fs, D i, L, off + start, Gives.ok L (if_pos hdone),
        stays (.refl h hd) ht (.refl fs) hroom.logs (Finset.Subset.refl L) (by omega) hle (by omega)
          fun _ => ⟨rfl, rfl⟩⟩
    have hbn : (off + start) / bsize < maxfile := Nat.div_lt_of_lt_mul (by rw [Nat.mul_comm]; omega)
    have htouched : 0 < touched (off + start) (off + n) := touched_pos (by omega)
    have hmissing : fs.missing (D i) ((off + start) / bsize) ≤ a := (missing_le_needed (by omega) hmax).trans hneed
    obtain ⟨fs1, d1, L1, hmap, hfound⟩ := bmap_ok h hd ht hbn (hroom.mono hmissing)
    have hcard1 := hfound.card
    by_cases hzero : fs1.fileBlock d1 ((off + start) / bsize) = 0
    · refine ⟨start, fs1, d1, L1, off + start, ?_, stays hfound.ext ht hfound.backed hfound.logs hfound.mono (by omega) hle
        (fun hlt => ⟨hfound.freeCount_lt ht hzero (by omega) hmax, hzero⟩) fun hall => absurd hall.ge hdone⟩
      rw [writeiLoop, if_neg hdone]
      exact hmap.bind (Finset.Subset.refl _) (Gives.ok _ (if_pos hzero))
    obtain ⟨addr, haddr⟩ : ∃ addr, addr = fs1.fileBlock d1 ((off + start) / bsize) := ⟨_, rfl⟩
    obtain ⟨m, hm⟩ : ∃ m, m = min (n - start) (bsize - (off + start) % bsize) := ⟨_, rfl⟩
    obtain ⟨k, hk, hok, hread, hunread, hdata⟩ := copyinBlock_ok (fs1.block addr) ((off + start) % bsize) src start m
    rcases hcopy : copyinBlock (fs1.block addr) ((off + start) % bsize) src start m with ⟨copied, data⟩
    rw [hcopy] at hok hdata
    dsimp only at hok hdata
    have hself : Function.update D i d1 i = d1 := Function.update_self i d1 D
    have ht1 : (Function.update D i d1 i).type ≠ 0 := by
      rw [hself, hfound.ext.type]
      exact ht
    have hmod : (off + start) % bsize < bsize := Nat.mod_lt _ (by decide)
    obtain ⟨fs2, hfs2⟩ : ∃ fs2 : Fs, fs2 = { fs1 with block := Function.update fs1.block addr data } := ⟨_, rfl⟩
    have hround : ∀ {r : Nat × Nat × Fs} {L' : Finset Nat}, L1 ⊆ L' →
        Gives (if !copied then pure (start, off + start, fs2)
          else fs2.logWrite addr >>= fun fs => writeiLoop ip src n fuel fs (off + start + m) (start + m)) r L' →
        Gives (writeiLoop ip src n (fuel + 1) fs (off + start) start) r L' := by
      intro r L' hsub hrest
      rw [writeiLoop, if_neg hdone]
      refine hmap.bind hsub ?_
      dsimp only
      rw [if_neg hzero, ← haddr, ← hm, hcopy]
      dsimp only
      rwa [← hfs2]
    have hsome : fs1.fileBlock (Function.update D i d1 i) ((off + start) / bsize) ≠ 0 := by rwa [hself]
    have hblock : fs1.fileBlock (Function.update D i d1 i) ((off + start) / bsize) = addr := by rw [hself, haddr]
    have hother : ∀ c, c ≠ addr → fs2.block c = fs1.block c := by
      intro c hc
      rw [hfs2]
      exact Function.update_of_ne hc data fs1.block
    have hthis : fs2.block addr = data := by
      rw [hfs2]
      exact Function.update_self addr data fs1.block
    have hput : ∀ l, Writes fs1 (Function.update D i d1) ip i (off + start) (off + start + k)
        (fun x => (src (x - off)).getD 0) (fs2.logged l) (Function.update D i d1 i) := by
      intro l
      refine hfound.ext.owned.writes hfound.ext.inode ht1 hsome (by omega) (by rw [hfs2]; rfl) (by rw [hfs2]; rfl)
        (by rw [hfs2]; rfl) (by rw [hfs2]; rfl) (fun c hc => ?_) fun x => ?_
      · rw [hblock] at hc
        exact hother c hc
      · rw [hblock]
        refine (congrFun hthis x).trans ((hdata x).trans ?_)
        split
        · rw [show off + start + (x - (off + start) % bsize) - off = start + (x - (off + start) % bsize) by omega]
        · rfl
    have hwrite : ∀ l, Writes fs D ip i (off + start) (off + start + k) (fun x => (src (x - off)).getD 0) (fs2.logged l) d1 := by
      intro l
      have hnext := hput l
      rw [hself] at hnext
      exact (hfound.ext.writes ht _ _).trans hnext le_rfl (Nat.le_add_right _ _)
    have hstays : ∀ l bn, (fs2.logged l).fileBlock d1 bn = fs1.fileBlock d1 bn := by
      intro l bn
      have hsame : (fs2.logged l).slot (Function.update D i d1 i) (slotOf bn) = fs1.slot (Function.update D i d1 i) (slotOf bn) :=
        hfound.ext.owned.slot_write ht1 (fun c (hc : c ≠ fs1.fileBlock (Function.update D i d1 i) ((off + start) / bsize)) =>
          hother c (hblock ▸ hc)) ht1 (slotOf bn)
      rwa [hself] at hsame
    have hlogs2 : Logs fs2 L1 := hfound.logs.congr (by rw [hfs2])
    have hlog2 : fs2.log = fs1.log := by rw [hfs2]
    by_cases hkm : k = m
    · rw [decide_eq_true hkm] at hok
      obtain ⟨l, hl, hlogs3, hmonol, hmeml⟩ := hlogs2.logWrite (haddr ▸ hfound.mem hzero)
      rw [hlog2] at hmonol
      have hnext := hwrite l
      rw [hkm] at hnext
      have hinode : ((fs2.logged l).itable ip).d = Function.update D i d1 i := hnext.inode
      have hstep : touched (off + start + m) (off + n) + 1 ≤ touched (off + start) (off + n) :=
        touched_step (by omega) (by omega)
      rw [Nat.add_assoc] at hstep
      have hneed' := hfound.needed_add ht (by omega) hmax (Nat.le_add_right _ m) hnext.kept (hnext.filled _ le_rfl (by omega))
      rw [Nat.add_assoc] at hneed'
      have hmarks : Marks (fs2.logged l) L1 (a - fs.missing (D i) ((off + start) / bsize)) := by
        refine (hfound.marks _ ?_).congr (by rw [hfs2]; rfl) (by rw [hfs2]; rfl)
        rw [Nat.sub_add_cancel hmissing]
        exact hroom.marks
      have hroom' : Room (fs2.logged l) (Function.update D i d1 i) L1 (a - fs.missing (D i) ((off + start) / bsize)) := by
        rw [hself]
        exact ⟨hlogs3, hmarks, hfound.indirect⟩
      have halign' : start + m = 0 ∨ (off + (start + m)) % bsize = 0 ∨ start + m = n := Or.inr (round_end hm hle)
      obtain ⟨tot, fs', d', L', hi, hloop, hlooped⟩ := ih hnext.owned hinode ht1 (by omega) (by omega) halign' hroom'
        (by rw [hself]; omega)
      obtain ⟨hwrites, hlogs', hmono, hcardrest, hstart, hlehi, hhile, hsource, hended, henough, -, husers, hlog, hdisk, hlast,
        hbudget⟩ := hlooped
      rw [← Nat.add_assoc] at hwrites
      rw [hself] at henough hcardrest hlast hbudget
      have hcount : (fs2.logged l).freeCount = fs1.freeCount := by
        rw [hfs2]
        rfl
      have hfree := hfound.freeCount_eq hzero
      refine ⟨tot, fs', d', L', hi, hround hmono ?_, hnext.trans hwrites (Nat.le_add_right _ _) (by omega), hlogs',
        hfound.mono.trans hmono, by omega, by omega, hlehi, hhile, fun j hj hjhi => ?_, hended, fun hreadable hneeded =>
        henough hreadable ?_, fun _ => ?_, ?_, List.Subset.trans hfound.backed.mono (List.Subset.trans hmonol hlog),
        fun c hc hcl => ?_, fun hlt hnone => ?_, fun hall top hle' htop => ?_⟩
      · rw [hok, Bool.not_true, if_neg Bool.false_ne_true, Nat.add_assoc]
        exact hl.bind hmono hloop
      · by_cases hjm : start + m ≤ j
        · exact hsource j hjm hjhi
        · have hsome := hread (j - start) (by omega)
          rwa [Nat.add_sub_cancel' hj] at hsome
      · omega
      · omega
      · refine husers.trans ?_
        change { fs2.log with block := fs'.log.block } = { fs.log with block := fs'.log.block }
        rw [hlog2, hfound.backed.log]
      · have hcl' : c ∉ l := fun hmem => hc (hlog hmem)
        have hca : c ≠ addr := by
          rintro rfl
          exact hcl' hmeml
        rw [hdisk c hc hcl]
        exact (hother c hca).trans (hfound.backed.same c fun hmem => hcl' (hmonol hmem))
      · -- the last block is another one than this
        have hbn' : (off + tot) / bsize ≠ (off + start) / bsize :=
          other_block hm hstart (Nat.lt_of_add_lt_add_left (lt_of_lt_of_le hlt hhile))
        exact hlast hlt ((hstays l _).trans ((hfound.others _ hbn').trans hnone))
      · have hadd := hfound.needed_add ht (by omega) htop (Nat.le_add_right _ m) hnext.kept
          (hnext.filled _ le_rfl (by omega))
        have hrest := hbudget hall top hle' htop
        rw [← Nat.add_assoc] at hrest
        omega
    · rw [decide_eq_false hkm] at hok
      have hnone : src (start + k) = none := hunread (by omega)
      have hunreadable : ¬ ∀ j < n, (src j).isSome := by
        intro hreadable
        have hsome := hreadable (start + k) (by omega)
        rw [hnone] at hsome
        cases hsome
      refine ⟨start, fs2, d1, L1, off + start + k, hround (Finset.Subset.refl _) (Gives.ok _ ?_), hwrite fs2.log.block, hlogs2, hfound.mono, by omega, le_rfl, by omega, by omega, fun j hj hjhi => ?_, Or.inr ⟨by omega, ?_, ?_⟩,
        fun hreadable => absurd hreadable hunreadable, fun hlt => absurd hlt (lt_irrefl _), ?_, ?_, fun c hc hcl => ?_,
        fun _ hnone => ?_, fun hall => absurd hall.ge hdone⟩
      · rw [hok, Bool.not_false, if_pos rfl]
        rfl
      · have hsome := hread (j - start) (by omega)
        rwa [Nat.add_sub_cancel' hj] at hsome
      · rwa [show off + start + k - off = start + k by omega]
      · exact round_start halign hm (lt_of_le_of_ne hk hkm)
      · rw [hlog2]
        exact hfound.backed.log
      · rw [hlog2]
        exact hfound.backed.mono
      · rw [hlog2] at hc
        rw [← hfound.backed.same c hc]
        by_cases hca : c = addr
        · have hkeep := hstays fs2.log.block ((off + start) / bsize)
          have hk0 : k = 0 := by
            rcases hcl with heq | hne
            · omega
            · exact absurd (hca.trans (haddr.trans hkeep.symm)) hne
          rw [hca, hthis]
          funext x
          rw [hdata, if_neg (by omega)]
        · exact hother c hca
      · have hkeep := hstays fs2.log.block ((off + start) / bsize)
        have hmem := hfound.fresh hnone hzero
        rw [hlog2]
        exact hkeep.symm ▸ hmem

/-! ### A whole write -/

/-- Only the types and addresses of inodes say who owns which block. -/
lemma loc_congr {D' : Nat → Dinode} (htype : ∀ j, (D' j).type = (D j).type)
    (haddr : ∀ j m, m ≤ ndirect → (D' j).addrs m = (D j).addrs m) (hblock : fs'.block = fs.block) : fs'.loc D' = fs.loc D := by
  funext ⟨j, k⟩
  unfold loc
  rw [htype]
  split
  · rfl
  · exact slot_congr (haddr j) fun _ => by rw [hblock]

lemma byteAt_congr {x : Nat} (haddr : ∀ m ≤ ndirect, d'.addrs m = d.addrs m) (hblock : fs'.block = fs.block) :
    fs'.byteAt d' x = fs.byteAt d x := by
  have hsame : fs'.fileBlock d' (x / bsize) = fs.fileBlock d (x / bsize) :=
    slot_congr haddr fun _ => by rw [hblock]
  unfold byteAt
  rw [hsame, hblock]

/-- What `writei` has done when it returns `tot`: the bytes from `off` to `hi` are those of the source,
and no others have changed. -/
structure Wrote (fs : Fs) (ip : Fin ninode) (off n : Nat) (src : Nat → Option UInt8) (tot hi : Nat) (fs' : Fs) :
    Prop where
  owned : Owned fs' fs'.inode
  live : Live fs' ip
  inode : fs'.inode = Function.update fs.inode (fs.itable ip).inum (fs'.itable ip).d
  disk : fs'.dinode = Function.update fs.dinode (fs.itable ip).inum (fs'.itable ip).d
  itable : fs'.itable = Function.update fs.itable ip { fs.itable ip with d := (fs'.itable ip).d }
  sb : fs'.sb = fs.sb
  type : (fs'.itable ip).d.type = (fs.itable ip).d.type
  nlink : (fs'.itable ip).d.nlink = (fs.itable ip).d.nlink
  size : (fs'.itable ip).d.size = max (fs.itable ip).d.size (off + tot)
  le_hi : off + tot ≤ hi
  hi_le : hi ≤ off + n
  kept : ∀ bn, fs.fileBlock (fs.itable ip).d bn ≠ 0 →
    fs'.fileBlock (fs'.itable ip).d bn = fs.fileBlock (fs.itable ip).d bn
  filled : ∀ x, off ≤ x → x < hi → fs'.fileBlock (fs'.itable ip).d (x / bsize) ≠ 0
  bytes : ∀ x, fs'.byteAt (fs'.itable ip).d x =
    if off ≤ x ∧ x < hi then (src (x - off)).getD 0 else fs.byteAt (fs.itable ip).d x
  source : ∀ j, off + j < hi → (src j).isSome
  ended : hi = off + tot ∧ (tot = n ∨ fs'.fileBlock (fs'.itable ip).d ((off + tot) / bsize) = 0) ∨
    hi < off + n ∧ src (hi - off) = none ∧ off + tot = max off (hi / bsize * bsize)
  first : 0 < tot → fs.missing (fs.itable ip).d (off / bsize) ≤ fs.freeCount
  users : fs'.log = { fs.log with block := fs'.log.block }
  log : fs.log.block ⊆ fs'.log.block
  data : ∀ c, c ∉ fs'.log.block → hi = off + tot ∨ c ≠ fs'.fileBlock (fs'.itable ip).d ((off + tot) / bsize) →
    fs'.block c = fs.block c
  last : off + tot < hi → fs.fileBlock (fs.itable ip).d ((off + tot) / bsize) = 0 →
    fs'.fileBlock (fs'.itable ip).d ((off + tot) / bsize) ∈ fs'.log.block
  others : ∀ j, j ≠ (fs.itable ip).inum → (fs.inode j).type ≠ 0 →
    (∀ bn, fs.fileBlock (fs.inode j) bn ≠ 0 → fs'.fileBlock (fs.inode j) bn ≠ 0) ∧
      ∀ x, fs'.byteAt (fs.inode j) x = fs.byteAt (fs.inode j) x
  budget : tot = n → ∀ top, off + n ≤ top → top ≤ maxfile * bsize →
    fs'.needed (fs'.itable ip).d (off + n) top + fs.freeCount ≤
      fs.needed (fs.itable ip).d off top + fs'.freeCount

/-- A transaction is open. -/
structure Open (fs : Fs) : Prop where
  outstanding : 1 ≤ fs.log.outstanding
  nodup : fs.log.block.Nodup

/-- The size and the inode block at the end of `writei`. -/
lemma Looped.wrote {off n tot hi : Nat} {src : Nat → Option UInt8} {L' : Finset Nat} (hlive : Live fs ip)
    (h : Looped fs fs.inode ip (fs.itable ip).inum off n src 0 L tot fs' d L' hi) :
    ∃ fs'', Gives ((if (fs'.itable ip).d.size < off + tot then
        fs'.setInode ip { fs'.itable ip with d := { (fs'.itable ip).d with size := off + tot } } else fs').iupdate ip)
        fs'' L' ∧ Wrote fs ip off n src tot hi fs'' ∧ Open fs'' ∧ fs''.log.block.length ≤ L'.card + 1 := by
  obtain ⟨hw, hlogs, -, -, -, hlehi, hhile, hsource, hended, -, hfirst, husers, hlog, hdata, hlast, hbudget⟩ := h
  have hd : (fs'.itable ip).d = d := by rw [hw.inode, Function.update_self]
  have hinum : (fs'.itable ip).inum = (fs.itable ip).inum := by rw [hw.itable, Function.update_self]
  obtain ⟨d'', hset, haddr, htype, hnlink, hsize⟩ : ∃ d'' : Dinode,
      (if (fs'.itable ip).d.size < off + tot then
        fs'.setInode ip { fs'.itable ip with d := { (fs'.itable ip).d with size := off + tot } } else fs') =
        fs'.setInode ip { fs'.itable ip with d := d'' } ∧ d''.addrs = d.addrs ∧ d''.type = d.type ∧
        d''.nlink = d.nlink ∧ d''.size = max d.size (off + tot) := by
    by_cases hgrow : d.size < off + tot
    · rw [hd, if_pos hgrow]
      exact ⟨_, rfl, rfl, rfl, rfl, (max_eq_right hgrow.le).symm⟩
    · rw [hd, if_neg hgrow]
      refine ⟨d, ?_, rfl, rfl, rfl, (max_eq_left (not_lt.mp hgrow)).symm⟩
      unfold setInode
      rw [← hd, Function.update_eq_self]
  obtain ⟨fs1, hfs1⟩ : ∃ fs1 : Fs, fs1 = { fs'.setInode ip { fs'.itable ip with d := d'' } with
      dinode := Function.update fs'.dinode (fs.itable ip).inum d'' } := ⟨_, rfl⟩
  have hupdate : (fs'.setInode ip { fs'.itable ip with d := d'' }).iupdate ip =
      (fs'.setInode ip { fs'.itable ip with d := d'' }).bread [] (fs.iblock (fs.itable ip).inum) >>=
        fun _ => fs1.logWrite (fs.iblock (fs.itable ip).inum) := by
    obtain ⟨v, hv, hvinum, hvd⟩ : ∃ v : Inode, v = { fs'.itable ip with d := d'' } ∧ v.inum = (fs.itable ip).inum ∧
        v.d = d'' := ⟨_, rfl, hinum, rfl⟩
    have hentry : (fs'.setInode ip v).itable ip = v := by simp [setInode]
    have hblock : (fs'.setInode ip v).iblock (fs.itable ip).inum = fs.iblock (fs.itable ip).inum := by
      change (fs.itable ip).inum / ipb + fs'.sb.inodestart = _
      rw [hw.sb]
      rfl
    rw [hfs1, ← hv]
    unfold iupdate
    rw [hentry, hvinum, hvd, hblock]
    rfl
  have hlogs1 : Logs fs1 L' := hlogs.congr (by rw [hfs1]; rfl)
  obtain ⟨l, hl, hnodup, hlen, -, hmonol, -⟩ := hlogs1.logWrite_any (fs.iblock (fs.itable ip).inum)
  have hlog1 : fs1.log = fs'.log := by rw [hfs1]; rfl
  rw [hlog1] at hmonol
  have htable : (fs1.logged l).itable = Function.update fs.itable ip { fs.itable ip with d := d'' } := by
    rw [hfs1]
    change Function.update fs'.itable ip { fs'.itable ip with d := d'' } = _
    rw [hw.itable, Function.update_idem, Function.update_self]
  have hentry : ((fs1.logged l).itable ip).d = d'' := by rw [htable, Function.update_self]
  have hdisk : (fs1.logged l).dinode = Function.update fs.dinode (fs.itable ip).inum d'' := by
    rw [hfs1]
    change Function.update fs'.dinode (fs.itable ip).inum d'' = _
    rw [hw.dinode]
  have hinode : (fs1.logged l).inode = Function.update fs.inode (fs.itable ip).inum d'' := by
    refine hlive.inode_update htable fun j hj => ?_
    rw [hdisk, Function.update_of_ne hj]
  have hblock : (fs1.logged l).block = fs'.block := by rw [hfs1]; rfl
  have hfile : ∀ bn, (fs1.logged l).fileBlock d'' bn = fs'.fileBlock d bn := fun bn =>
    slot_congr (fun m _ => by rw [haddr]) fun _ => by rw [hblock]
  have hbyte : ∀ x, (fs1.logged l).byteAt d'' x = fs'.byteAt d x := fun x =>
    byteAt_congr (fun m _ => by rw [haddr]) hblock
  have hloc : (fs1.logged l).loc (fs1.logged l).inode = fs'.loc (Function.update fs.inode (fs.itable ip).inum d) := by
    rw [hinode]
    refine loc_congr (fun j => ?_) (fun j m _ => ?_) hblock
    · by_cases hj : j = (fs.itable ip).inum
      · rw [hj, Function.update_self, Function.update_self, htype]
      · rw [Function.update_of_ne hj, Function.update_of_ne hj]
    · by_cases hj : j = (fs.itable ip).inum
      · rw [hj, Function.update_self, Function.update_self, haddr]
      · rw [Function.update_of_ne hj, Function.update_of_ne hj]
  have hlive' : Live (fs1.logged l) ip := by
    refine hlive.congr fun jp => ?_
    rw [htable]
    by_cases hjp : jp = ip
    · subst hjp
      simp
    · simp [hjp]
  refine ⟨fs1.logged l, ?_, ⟨?_, hlive', ?_, ?_, ?_, ?_, ?_, ?_, ?_, hlehi, hhile, fun bn hbn => ?_, fun x hx hx' => ?_,
    fun x => ?_, fun j hj => hsource j (Nat.zero_le j) hj, ?_, fun hpos => ?_, ?_, List.Subset.trans hlog hmonol,
    fun c hc hcl => ?_, fun hlt hnone => ?_, fun j hj ht => ⟨fun bn hbn => ?_, fun x => ?_⟩,
    fun hall top hle htop => ?_⟩, ⟨hlogs1.outstanding, hnodup⟩,
    hlen.trans (Nat.succ_le_succ hlogs1.length_le)⟩
  · rw [hset, hupdate]
    have hopened : Logs (fs'.setInode ip { fs'.itable ip with d := d'' }) L' := hlogs.congr rfl
    exact (hopened.bread_nil _).bind (Finset.Subset.refl L') hl
  · exact hw.owned.congr (by rw [hfs1]; rfl) (by rw [hfs1]; rfl) hloc
  · rw [hentry, hinode]
  · rw [hentry, hdisk]
  · rw [hentry, htable]
  · rw [hfs1]
    exact hw.sb
  · rw [hentry, htype, hw.type, hlive.inode]
  · rw [hentry, hnlink, hw.nlink, hlive.inode]
  · rw [hentry, hsize, hw.size, hlive.inode]
  · have hkept := hw.kept bn
    rw [hlive.inode] at hkept
    rw [hentry, hfile]
    exact hkept hbn
  · rw [hentry, hfile]
    exact hw.filled x (by omega) hx'
  · rw [hentry, hbyte, hw.bytes, hlive.inode, add_zero]
  · rw [hentry, hfile]
    exact hended
  · have hle := hfirst hpos
    rwa [hlive.inode] at hle
  · change { fs1.log with block := l } = { fs.log with block := l }
    rw [hlog1, husers]
  · rw [hblock]
    refine hdata c (fun hmem => hc (hmonol hmem)) ?_
    rwa [hentry, hfile] at hcl
  · rw [hlive.inode] at hlast
    rw [hentry, hfile]
    exact hmonol (hlast hlt hnone)
  · have hother : ∀ bn, (fs1.logged l).fileBlock (fs.inode j) bn = fs'.fileBlock (fs.inode j) bn := fun bn =>
      slot_congr (fun _ _ => rfl) fun _ => by rw [hblock]
    rw [hother]
    exact (hw.others j hj ht).1 bn hbn
  · rw [byteAt_congr (fun _ _ => rfl) hblock]
    exact (hw.others j hj ht).2 x
  · have hneeded : (fs1.logged l).needed d'' (off + n) top = fs'.needed d (off + n) top := by
      unfold needed
      rw [haddr]
      simp only [hfile]
    have hcount : (fs1.logged l).freeCount = fs'.freeCount := by
      rw [hfs1]
      rfl
    have hrest := hbudget hall top hle htop
    rw [hlive.inode, Nat.add_zero] at hrest
    rwa [hentry, hneeded, hcount]

/-- The blocks that a write may log beside those it writes to and that of the inode, where `B` are blocks of
the bitmap. -/
def reserved (fs : Fs) (ip : Fin ninode) (B : Finset Nat) : Finset Nat :=
  (if (fs.itable ip).d.addrs ndirect = 0 then ∅ else {(fs.itable ip).d.addrs ndirect}) ∪ (B ∪ fs.log.block.toFinset)

lemma card_reserved (h : Open fs) (ip : Fin ninode) (B : Finset Nat) :
    (fs.reserved ip B).card + (if (fs.itable ip).d.addrs ndirect = 0 then 1 else 0) ≤ fs.log.block.length + B.card + 1 := by
  have hunion := Finset.card_union_le B fs.log.block.toFinset
  rw [List.toFinset_card_of_nodup h.nodup] at hunion
  unfold reserved
  by_cases hind : (fs.itable ip).d.addrs ndirect = 0
  · rw [if_pos hind, if_pos hind, Finset.empty_union]
    omega
  · have hunion' := Finset.card_union_le {(fs.itable ip).d.addrs ndirect} (B ∪ fs.log.block.toFinset)
    rw [if_neg hind, if_neg hind]
    rw [Finset.card_singleton] at hunion'
    omega

lemma room_reserved {B : Finset Nat} {a : Nat} (h : Open fs) (hmarks : Marks fs B a) :
    Room fs (fs.itable ip).d (fs.reserved ip B) a := by
  refine ⟨⟨h.outstanding, h.nodup, ?_⟩, hmarks.mono ?_ le_rfl, fun hind => ?_⟩
  · intro b hb
    simp only [reserved, Finset.mem_union]
    exact Or.inr (Or.inr hb)
  · intro b hb
    simp only [reserved, Finset.mem_union]
    exact Or.inr (Or.inl hb)
  · simp [reserved, hind]

lemma writei_rejects {src : Nat → Option UInt8} {off n : Nat} (hoff : off < 2 ^ 32) (hn : n < 2 ^ 32)
    (h : (fs.itable ip).d.size < off ∨ maxfile * bsize < off + n) : fs.writei ip src off n = .ok (-1, fs) := by
  unfold writei
  by_cases hsize : (fs.itable ip).d.size < off ∨ u32 (off + n) < off
  · rw [if_pos hsize]
    rfl
  · have hu : u32 (off + n) = off + n := by
      unfold u32 at *
      omega
    rw [if_neg hsize, if_pos (by omega)]
    rfl

/-- A write within the limits, as far as there are blocks and the source can be read. The log grows by the
blocks of the bitmap `B`, those that are written to, the indirect block and that of the inode. -/
theorem writei_ok (h : Owned fs fs.inode) (hlive : Live fs ip) (ht : (fs.itable ip).d.type ≠ 0) (hopen : Open fs)
    (src : Nat → Option UInt8) {off n a : Nat} {B : Finset Nat} (hoff : off ≤ (fs.itable ip).d.size)
    (hmax : off + n ≤ maxfile * bsize) (hmarks : Marks fs B a) (hneed : fs.needed (fs.itable ip).d off (off + n) ≤ a) :
    ∃ (tot hi : Nat) (fs' : Fs) (L' : Finset Nat), Gives (fs.writei ip src off n) ((tot : Int), fs') L' ∧
      Wrote fs ip off n src tot hi fs' ∧
      ((∀ j < n, (src j).isSome) → fs.needed (fs.itable ip).d off (off + n) ≤ fs.freeCount → tot = n) ∧
      L'.card ≤ fs.log.block.length + B.card + touched off (off + n) + 1 ∧
      Open fs' ∧ fs'.log.block.length ≤ fs.log.block.length + B.card + touched off (off + n) + 2 := by
  have hu : u32 (off + n) = off + n := Nat.mod_eq_of_lt (by unfold maxfile bsize ndirect nindirect at hmax; omega)
  have hroom : Room fs (fs.inode (fs.itable ip).inum) (fs.reserved ip B) a := by
    rw [hlive.inode]
    exact room_reserved hopen hmarks
  obtain ⟨tot, fs1, d, L', hi, hloop, hlooped⟩ := writeiLoop_ok src hmax h hlive.inode.symm (hlive.inode ▸ ht)
    (Nat.sub_le n 0) (Nat.zero_le n) (Or.inl rfl) hroom (by rw [hlive.inode]; exact hneed)
  obtain ⟨fs', hupdate, hwrote, hopen', hlen⟩ := hlooped.wrote hlive
  have henough := hlooped.enough
  have hcard := hlooped.card
  have hreserved := card_reserved hopen ip B
  rw [hlive.inode] at henough hcard
  rw [Nat.add_zero] at hcard
  refine ⟨tot, hi, fs', L', ?_, hwrote, henough, by omega, hopen', by omega⟩
  unfold writei
  rw [hu, if_neg (by omega), if_neg (by omega)]
  exact hloop.bind (Finset.Subset.refl _) (hupdate.bind (Finset.Subset.refl _) (Gives.ok _ rfl))

/-- With a source that can be read, all that has changed is counted. -/
lemma Wrote.hi_eq {off n tot hi : Nat} {src : Nat → Option UInt8} (h : Wrote fs ip off n src tot hi fs')
    (hread : ∀ j < n, (src j).isSome) : hi = off + tot := by
  rcases h.ended with ⟨hhi, -⟩ | ⟨hlt, hnone, -⟩
  · exact hhi
  · have hle := h.le_hi
    have hsome := hread (hi - off) (by omega)
    rw [hnone] at hsome
    cases hsome

/-- A file that has all its blocks still has them. -/
lemma Wrote.dense {off n tot hi : Nat} {src : Nat → Option UInt8} (h : Wrote fs ip off n src tot hi fs')
    (hdense : Dense fs (fs.itable ip).d) (hoff : off ≤ (fs.itable ip).d.size) (hmax : off + n ≤ maxfile * bsize) :
    Dense fs' (fs'.itable ip).d := by
  have hsize := h.size
  have hlehi := h.le_hi
  have hhile := h.hi_le
  refine ⟨?_, fun bn hbn => ?_⟩
  · have := hdense.size
    omega
  · by_cases hold : bn * bsize < (fs.itable ip).d.size
    · rw [h.kept bn (hdense.blocks bn hold)]
      exact hdense.blocks bn hold
    · have hfill := h.filled (bn * bsize) (by omega) (by omega)
      rwa [Nat.mul_div_cancel bn (by decide)] at hfill

lemma Wrote.content {off n tot : Nat} {src : Nat → Option UInt8} (h : Wrote fs ip off n src tot (off + tot) fs')
    (hoff : off ≤ (fs.itable ip).d.size) :
    fs'.content (fs'.itable ip).d = (fs.content (fs.itable ip).d).take off ++
      (List.range tot).map (fun j => (src j).getD 0) ++ (fs.content (fs.itable ip).d).drop (off + tot) := by
  have hsize := h.size
  apply List.ext_getElem
  · simp
    omega
  · intro x hx _
    rw [length_content] at hx
    have hbyte := h.bytes x
    have hmin : min off (fs.itable ip).d.size = off := min_eq_left hoff
    simp only [Fs.content, List.getElem_append, List.getElem_map, List.getElem_range, List.getElem_take,
      List.getElem_drop, List.length_append, List.length_take, List.length_map, List.length_range, hmin, hbyte]
    by_cases hlt : x < off
    · rw [if_neg (by omega), dif_pos (by omega), dif_pos hlt]
    · by_cases hin : x < off + tot
      · rw [if_pos ⟨not_lt.mp hlt, hin⟩, dif_pos hin, dif_neg hlt]
      · rw [if_neg (by omega), dif_neg hin, show off + tot + (x - (off + tot)) = x by omega]

/-- No byte of another file changes. -/
lemma Wrote.content_of_ne {off n tot hi : Nat} {src : Nat → Option UInt8} (h : Wrote fs ip off n src tot hi fs') {j : Nat}
    (hj : j ≠ (fs.itable ip).inum) (ht : (fs.inode j).type ≠ 0) :
    fs'.inode j = fs.inode j ∧ fs'.content (fs'.inode j) = fs.content (fs.inode j) := by
  have hsame : fs'.inode j = fs.inode j := by rw [h.inode, Function.update_of_ne hj]
  refine ⟨hsame, ?_⟩
  rw [hsame]
  exact List.map_congr_left fun x _ => (h.others j hj ht).2 x

/-- A file whose entry of the table is in use and that has all its blocks, in a file system where every
block has one owner, in a transaction. -/
structure Sound (fs : Fs) (ip : Fin ninode) : Prop where
  owned : Owned fs fs.inode
  live : Live fs ip
  type : (fs.itable ip).d.type ≠ 0
  dense : Dense fs (fs.itable ip).d
  opened : Open fs

/-- What is written is read back, as much of it as there was room for on the disk, with the rest of the
file as it was, and no other file changes. The log must have room for the blocks of the file, for those
with the inode and its further addresses, and for those of the bitmap that new blocks can be in. -/
theorem writei_reads_back (h : Sound fs ip) :
    (∀ (src : Nat → Option UInt8) (off n : Nat), (∀ j < n, (src j).isSome) → off ≤ (fs.itable ip).d.size →
      off + n ≤ maxfile * bsize →
      fs.log.block.length + min (fs.sb.size / bpb + 1) (fs.needed (fs.itable ip).d off (off + n)) +
        touched off (off + n) + 2 < logblocks →
      ∃ (r : Nat) (fs' : Fs), fs.writei ip src off n = .ok ((r : Int), fs') ∧ r ≤ n ∧
        (fs.needed (fs.itable ip).d off (off + n) ≤ fs.freeCount → r = n) ∧
        (fs'.itable ip).d.size = max (fs.itable ip).d.size (off + r) ∧
        (∀ o k, o + k < 2 ^ 32 → fs'.readi ip o k =
          .ok ((((fs.content (fs.itable ip).d).take off ++ (List.range r).map (fun j => (src j).getD 0) ++
            (fs.content (fs.itable ip).d).drop (off + r)).drop o).take k, fs')) ∧
        ∀ j, j ≠ (fs.itable ip).inum → (fs.inode j).type ≠ 0 →
          fs'.inode j = fs.inode j ∧ fs'.content (fs'.inode j) = fs.content (fs.inode j)) ∧
    ∀ (src : Nat → Option UInt8) (off n : Nat), off < 2 ^ 32 → n < 2 ^ 32 →
      ((fs.itable ip).d.size < off ∨ maxfile * bsize < off + n) → fs.writei ip src off n = .ok (-1, fs) := by
  refine ⟨fun src off n hread hoff hmax hroom => ?_, fun src off n hoff hn hout => writei_rejects hoff hn hout⟩
  obtain ⟨B, hmarks, hbits⟩ := fs.exists_marks (fs.needed (fs.itable ip).d off (off + n))
  obtain ⟨r, hi, fs', L', hgives, hwrote, henough, hcard, -, -⟩ := writei_ok h.owned h.live h.type h.opened src hoff hmax
    hmarks le_rfl
  have hwrite := hgives.eq_ok (by omega)
  obtain rfl := hwrote.hi_eq hread
  have hle := hwrote.hi_le
  refine ⟨r, fs', hwrite, by omega, henough hread, hwrote.size, fun o k hok => ?_, fun j hj ht => hwrote.content_of_ne hj ht⟩
  rw [readi_ok (hwrote.dense h.dense hoff hmax) hok, hwrote.content hoff]

/-- A disk of 64 blocks with an empty file, which is open. -/
def oneFile : Fs where
  sb := ⟨64, 2, 3⟩
  dinode := fun i => ⟨if i = 2 then 2 else 0, 1, 0, fun _ => 0⟩
  bitmap := fun b => decide (b < 4)
  block := fun _ _ => 0
  itable := fun ip => ⟨1, 2, if ip.val = 0 then 1 else 0, false, 0, true, ⟨2, 1, 0, fun _ => 0⟩⟩
  log := ⟨1, false, []⟩

/-- An empty file on a disk without data. -/
lemma sound_of_empty (haddr : ∀ j k, (fs.inode j).addrs k = 0)
    (hbits : ∀ b, fs.bitmap b = true ↔ b < fs.dataStart) (hsb : fs.sb.size ≤ 2 ^ 32) (hlive : Live fs ip)
    (ht : (fs.itable ip).d.type ≠ 0) (hsize : (fs.itable ip).d.size = 0) (hopen : Open fs) : Sound fs ip := by
  have hloc : ∀ s, fs.loc fs.inode s = 0 := by
    intro s
    unfold loc slot
    rw [haddr, haddr]
    simp
  refine ⟨⟨⟨fun s hs => absurd (hloc s) hs, fun s t hs => absurd (hloc s) hs, fun b hb => ?_⟩,
    fun b hb _ => (hbits b).mpr hb, hsb⟩, hlive, ht, ⟨?_, fun bn hbn => ?_⟩, hopen⟩
  · refine iff_of_false (fun hused => ?_) ?_
    · exact absurd ((hbits b).mp hused) (not_lt.mpr hb.1)
    · rintro ⟨s, hs⟩
      rw [hloc] at hs
      rw [← hs] at hb
      exact fs.not_isData_zero hb
  · rw [hsize]
    exact Nat.zero_le _
  · rw [hsize] at hbn
    exact absurd hbn (Nat.not_lt_zero _)

lemma sound_oneFile : Sound oneFile ⟨0, by decide⟩ := by
  have haddr : ∀ j k, (oneFile.inode j).addrs k = 0 := by
    intro j k
    unfold Fs.inode
    split <;> rfl
  refine sound_of_empty haddr (fun b => ?_) (by decide) ⟨by decide, rfl, fun jp href _ => ?_⟩ (by decide) rfl
    ⟨by decide, List.nodup_nil⟩
  · have hdata : oneFile.dataStart = 4 := by decide
    rw [hdata]
    exact decide_eq_true_iff
  · by_contra hne
    have hzero : jp.val ≠ 0 := fun hv => hne (Fin.ext hv)
    simp [oneFile, hzero] at href

/-- The message `hi` is written to an empty file and read back. -/
theorem writei_reads_back_hi : ∃ (r : Nat) (fs : Fs),
    oneFile.writei ⟨0, by decide⟩ (fun j => [104, 105][j]?) 0 2 = .ok ((r : Int), fs) ∧ r = 2 ∧
      fs.readi ⟨0, by decide⟩ 0 100 = .ok ([104, 105], fs) := by
  obtain ⟨r, fs, hwrite, hle, henough, -, hread, -⟩ := (writei_reads_back sound_oneFile).1 (fun j => [104, 105][j]?) 0 2
    (by decide) (by decide) (by decide) (by decide)
  obtain rfl := henough (by decide +kernel)
  exact ⟨2, fs, hwrite, rfl, (hread 0 100 (by decide)).trans rfl⟩

lemma copyinBlock_zeros (m : Mem) (dst tot n : Nat) :
    copyinBlock m dst (fun _ => some 0) tot n = (true, fun x => if dst ≤ x ∧ x < dst + n then 0 else m x) := by
  have hall : (List.range n).takeWhile (fun j => ((fun _ => some 0 : Nat → Option UInt8) (tot + j)).isSome) = List.range n :=
    List.takeWhile_eq_self_iff.mpr fun _ _ => rfl
  unfold copyinBlock
  dsimp only
  rw [hall, List.length_range, decide_eq_true rfl]
  rfl

/-- The loop of `writei` for a source of zeros. -/
def zerosLoop (ip : Fin ninode) (n : Nat) : Nat → Fs → Nat → Nat → Except Stop (Nat × Nat × Fs)
  | 0, fs, off, tot => pure (tot, off, fs)
  | fuel + 1, fs, off, tot =>
    if n ≤ tot then pure (tot, off, fs)
    else do
      let (addr, fs) ← fs.bmap ip (off / bsize)
      if addr = 0 then pure (tot, off, fs)
      else
        let m := min (n - tot) (bsize - off % bsize)
        let fs ← { fs with block := Function.update fs.block addr fun x =>
          if off % bsize ≤ x ∧ x < off % bsize + m then 0 else fs.block addr x }.logWrite addr
        zerosLoop ip n fuel fs (off + m) (tot + m)

lemma writeiLoop_zeros (ip : Fin ninode) (n fuel : Nat) (fs : Fs) (off tot : Nat) :
    writeiLoop ip (fun _ => some 0) n fuel fs off tot = zerosLoop ip n fuel fs off tot := by
  induction fuel generalizing fs off tot with
  | zero => rfl
  | succ fuel ih =>
    rw [writeiLoop, zerosLoop]
    simp only [copyinBlock_zeros, ih, Bool.not_true, Bool.false_eq_true, if_false]

/-- Writing 40 blocks in one call is more than a transaction can hold. -/
theorem writei_panics : ¬ ∀ (fs : Fs) (ip : Fin ninode), Sound fs ip → ∀ (src : Nat → Option UInt8) (off n : Nat),
    (∀ j < n, (src j).isSome) → off ≤ (fs.itable ip).d.size → off + n ≤ maxfile * bsize →
    ∃ (r : Nat) (fs' : Fs), fs.writei ip src off n = .ok ((r : Int), fs') ∧ r ≤ n := by
  intro hall
  obtain ⟨r, fs, hwrite, -⟩ := hall oneFile _ sound_oneFile (fun _ => some 0) 0 40960 (fun _ _ => rfl) (by decide) (by decide)
  have hstop : stopped (zerosLoop ⟨0, by decide⟩ 40960 40960 oneFile 0 0) = some (.panic .logTooBig) := by
    decide +kernel
  rw [writei, if_neg (by decide), if_neg (by decide), writeiLoop_zeros] at hwrite
  obtain ⟨x, hx, -⟩ := bind_ok hwrite
  rw [hx] at hstop
  cases hstop

end Fs

end FogOS.Kernel
