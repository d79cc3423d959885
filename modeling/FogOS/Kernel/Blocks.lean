import FogOS.Kernel.Itable
import FogOS.Lib.Placement

/-!
# Who owns which block

The blocks of `kernel/fs.c` behind the metadata are handed out by `balloc` and listed by inodes: an
inode has 13 addresses, the last of them that of a block with 256 more. An inode as the kernel works
with it may be ahead of the one on the disk, so the inodes are given by a function here.
-/

namespace FogOS.Kernel

open ByteMem Placement

namespace Fs

variable {fs fs' : Fs} {ip : Fin ninode} {b c i : Nat} {L : Finset Nat}

/-! ### Writing to the log -/

/-- The file system with another list of logged blocks. -/
def logged (fs : Fs) (l : List Nat) : Fs := { fs with log := { fs.log with block := l } }

section

variable (fs : Fs) (l : List Nat)

@[simp] lemma logged_sb : (fs.logged l).sb = fs.sb := rfl
@[simp] lemma logged_dinode : (fs.logged l).dinode = fs.dinode := rfl
@[simp] lemma logged_bitmap : (fs.logged l).bitmap = fs.bitmap := rfl
@[simp] lemma logged_block : (fs.logged l).block = fs.block := rfl
@[simp] lemma logged_itable : (fs.logged l).itable = fs.itable := rfl

end

/-- A transaction is open, and the blocks in the log are among `L`. -/
structure Logs (fs : Fs) (L : Finset Nat) : Prop where
  outstanding : 1 ≤ fs.log.outstanding
  nodup : fs.log.block.Nodup
  subset : fs.log.block.toFinset ⊆ L

/-- The outcome is `a`, unless it is that the log is full; then `L` has more blocks than the log holds. -/
def Gives {α : Type} (x : Except Stop α) (a : α) (L : Finset Nat) : Prop :=
  x = .ok a ∨ (∃ e, x = .error e) ∧ logblocks ≤ L.card

section

variable {α β : Type} {x : Except Stop α} {a a' : α} {L' : Finset Nat}

lemma Gives.ok (L : Finset Nat) (h : x = .ok a) : Gives x a L := Or.inl h

lemma Gives.mono (h : Gives x a L) (hL : L ⊆ L') : Gives x a L' :=
  h.imp id fun hfull => ⟨hfull.1, hfull.2.trans (Finset.card_le_card hL)⟩

/-- What comes after in a sequence. -/
lemma Gives.bind {f : α → Except Stop β} {b : β} (h : Gives x a L) (hL : L ⊆ L') (h' : Gives (f a) b L') :
    Gives (x >>= f) b L' := by
  rcases h with rfl | ⟨⟨e, rfl⟩, hfull⟩
  · exact h'
  · exact Or.inr ⟨⟨e, rfl⟩, hfull.trans (Finset.card_le_card hL)⟩

lemma Gives.unique (h : Gives x a L) (hx : x = .ok a') : a' = a := by
  rcases h with h | ⟨⟨e, h⟩, -⟩
  · exact Except.ok.inj (hx.symm.trans h)
  · rw [hx] at h
    cases h

lemma Gives.eq_ok (h : Gives x a L) (hroom : L.card < logblocks) : x = .ok a :=
  h.resolve_right fun hfull => absurd hroom (not_lt.mpr hfull.2)

end

lemma Logs.mono {L' : Finset Nat} (h : Logs fs L) (hL : L ⊆ L') : Logs fs L' :=
  ⟨h.outstanding, h.nodup, h.subset.trans hL⟩

lemma Logs.congr (h : Logs fs L) (hlog : fs'.log = fs.log) : Logs fs' L := by
  obtain ⟨hout, hnodup, hsub⟩ := h
  rw [← hlog] at hout hnodup hsub
  exact ⟨hout, hnodup, hsub⟩

lemma Logs.length_le (h : Logs fs L) : fs.log.block.length ≤ L.card := by
  rw [← List.toFinset_card_of_nodup h.nodup]
  exact Finset.card_le_card h.subset

/-- A block is logged unless the log is full. -/
lemma Logs.logWrite_any (h : Logs fs L) (b : Nat) :
    ∃ l, Gives (fs.logWrite b) (fs.logged l) L ∧ l.Nodup ∧ l.length ≤ fs.log.block.length + 1 ∧ l.toFinset ⊆ insert b L ∧
      fs.log.block ⊆ l ∧ b ∈ l := by
  have hlen := h.length_le
  have hout := h.outstanding
  by_cases hmem : b ∈ fs.log.block
  · refine ⟨fs.log.block, ?_, h.nodup, Nat.le_succ _, h.subset.trans (Finset.subset_insert b L), List.Subset.refl _, hmem⟩
    unfold Fs.logWrite
    by_cases hfull : logblocks ≤ fs.log.block.length
    · rw [if_pos hfull]
      exact Or.inr ⟨⟨_, rfl⟩, hfull.trans hlen⟩
    · rw [if_neg hfull, if_neg (by omega), if_pos hmem]
      exact Gives.ok L rfl
  · refine ⟨fs.log.block ++ [b], ?_, ?_, by simp, ?_, List.subset_append_left _ _, by simp⟩
    · unfold Fs.logWrite
      by_cases hfull : logblocks ≤ fs.log.block.length
      · rw [if_pos hfull]
        exact Or.inr ⟨⟨_, rfl⟩, hfull.trans hlen⟩
      · rw [if_neg hfull, if_neg (by omega), if_neg hmem]
        exact Gives.ok L rfl
    · exact List.Nodup.append h.nodup (List.nodup_singleton b) (by simpa using hmem)
    · intro c hc
      rcases List.mem_append.mp (List.mem_toFinset.mp hc) with hc | hc
      · exact Finset.mem_insert_of_mem (h.subset (List.mem_toFinset.mpr hc))
      · rw [List.mem_singleton] at hc
        exact hc ▸ Finset.mem_insert_self b L

lemma Logs.logWrite (h : Logs fs L) (hb : b ∈ L) :
    ∃ l, Gives (fs.logWrite b) (fs.logged l) L ∧ Logs (fs.logged l) L ∧ fs.log.block ⊆ l ∧ b ∈ l := by
  obtain ⟨l, hl, hnodup, -, hsub, hmono, hmem⟩ := h.logWrite_any b
  rw [Finset.insert_eq_of_mem hb] at hsub
  exact ⟨l, hl, ⟨h.outstanding, hnodup, hsub⟩, hmono, hmem⟩

/-- As long as blocks not yet in the log are still to be logged, there is a buffer for each of them, and one
more may be in use. -/
lemma Logs.bread {held : List Nat} (h : Logs fs L) (hb : b ∈ L) (hlen : held.length ≤ 1)
    (hheld : b ∉ held) : Gives (fs.bread held b) () L := by
  unfold Fs.bread
  rw [if_neg hheld]
  by_cases hfull : b ∉ (fs.log.block ++ held).toFinset ∧
      nbuf ≤ (fs.log.block ++ held).toFinset.card
  · rw [if_pos hfull]
    refine Or.inr ⟨⟨_, rfl⟩, ?_⟩
    obtain ⟨hnew, hcard⟩ := hfull
    rw [List.toFinset_append, Finset.mem_union, not_or] at hnew
    have hlog : fs.log.block.toFinset.card + 1 ≤ L.card := by
      rw [← Finset.card_insert_of_notMem hnew.1]
      exact Finset.card_le_card (Finset.insert_subset hb h.subset)
    have hused : (fs.log.block ++ held).toFinset.card ≤ fs.log.block.toFinset.card + 1 := by
      rw [List.toFinset_append]
      exact (Finset.card_union_le _ _).trans
        (Nat.add_le_add_left (held.toFinset_card_le.trans hlen) _)
    exact (hcard.trans hused).trans hlog
  · rw [if_neg hfull]
    exact Gives.ok L rfl

lemma Logs.bread_nil (h : Logs fs L) (b : Nat) : Gives (fs.bread [] b) () L := by
  unfold Fs.bread
  rw [if_neg List.not_mem_nil, List.append_nil]
  by_cases hfull : b ∉ fs.log.block.toFinset ∧ nbuf ≤ fs.log.block.toFinset.card
  · rw [if_pos hfull]
    exact Or.inr ⟨⟨_, rfl⟩, hfull.2.trans (Finset.card_le_card h.subset)⟩
  · rw [if_neg hfull]
    exact Gives.ok L rfl

/-- What has changed in a block is in the log. -/
structure Backed (fs fs' : Fs) : Prop where
  log : fs'.log = { fs.log with block := fs'.log.block }
  mono : fs.log.block ⊆ fs'.log.block
  same : ∀ b, b ∉ fs'.log.block → fs'.block b = fs.block b

lemma Backed.refl (fs : Fs) : Backed fs fs := ⟨rfl, List.Subset.refl _, fun _ _ => rfl⟩

lemma Backed.trans {fs'' : Fs} (h : Backed fs fs') (h' : Backed fs' fs'') : Backed fs fs'' := by
  refine ⟨?_, List.Subset.trans h.mono h'.mono, fun b hb => (h'.same b hb).trans (h.same b fun hmem => hb (h'.mono hmem))⟩
  rw [h'.log, h.log]

/-! ### Slots -/

/-- The first block after the metadata. -/
def dataStart (fs : Fs) : Nat := fs.sb.bmapstart + fs.sb.size / bpb + 1

/-- A block that `balloc` may hand out. -/
def IsData (fs : Fs) (b : Nat) : Prop := fs.dataStart ≤ b ∧ b < fs.sb.size

lemma not_isData_zero (fs : Fs) : ¬ fs.IsData 0 := by
  intro h
  exact absurd h.1 (Nat.not_succ_le_zero _)

/-- `MAXFILE`. -/
def maxfile : Nat := ndirect + nindirect

/-- The addresses of an inode: those it has itself, and those in its indirect block. -/
def slot (fs : Fs) (d : Dinode) (k : Nat) : Nat :=
  if k ≤ ndirect then d.addrs k
  else if d.addrs ndirect ≠ 0 ∧ k ≤ maxfile then fs.indirect (d.addrs ndirect) (k - (ndirect + 1)) else 0

/-- The slot of the `bn`-th block of a file. -/
def slotOf (bn : Nat) : Nat := if bn < ndirect then bn else bn + 1

/-- The `bn`-th block of a file, or 0. -/
def fileBlock (fs : Fs) (d : Dinode) (bn : Nat) : Nat := fs.slot d (slotOf bn)

/-- The slots of the allocated inodes `D`. -/
def loc (fs : Fs) (D : Nat → Dinode) (s : Nat × Nat) : Nat :=
  if (D s.1).type = 0 then 0 else fs.slot (D s.1) s.2

lemma slotOf_ne (bn : Nat) : slotOf bn ≠ ndirect := by
  unfold slotOf
  split <;> omega

lemma slotOf_inj {bn bn' : Nat} (h : slotOf bn = slotOf bn') : bn = bn' := by
  unfold slotOf at h
  split at h <;> split at h <;> omega

lemma loc_of_type {D : Nat → Dinode} (h : (D i).type ≠ 0) (k : Nat) : fs.loc D (i, k) = fs.slot (D i) k :=
  if_neg h

lemma slot_direct {d : Dinode} {k : Nat} (hk : k ≤ ndirect) : fs.slot d k = d.addrs k := if_pos hk

lemma slot_indirect {d : Dinode} {j : Nat} (hind : d.addrs ndirect ≠ 0) (hj : j < nindirect) :
    fs.slot d (ndirect + 1 + j) = fs.indirect (d.addrs ndirect) j := by
  unfold slot
  rw [if_neg (by omega), if_pos ⟨hind, by unfold maxfile; omega⟩, Nat.add_sub_cancel_left]

lemma slot_none {d : Dinode} {k : Nat} (hk : ndirect < k) (hind : d.addrs ndirect = 0) : fs.slot d k = 0 := by
  unfold slot
  rw [if_neg (by omega), if_neg (by simp [hind])]

/-- Only the addresses and the indirect block matter. -/
lemma slot_congr {d d' : Dinode} {k : Nat} (haddr : ∀ m ≤ ndirect, d'.addrs m = d.addrs m)
    (hblock : d.addrs ndirect ≠ 0 → fs'.block (d.addrs ndirect) = fs.block (d.addrs ndirect)) :
    fs'.slot d' k = fs.slot d k := by
  have hind := haddr ndirect le_rfl
  unfold slot
  by_cases hk : k ≤ ndirect
  · rw [if_pos hk, if_pos hk, haddr k hk]
  · rw [if_neg hk, if_neg hk, hind]
    by_cases hs : d.addrs ndirect ≠ 0 ∧ k ≤ maxfile
    · rw [if_pos hs, if_pos hs]
      unfold indirect
      rw [hblock hs.1]
    · rw [if_neg hs, if_neg hs]

/-- No block has two owners, and the bitmap marks the metadata and what is owned. -/
structure Owned (fs : Fs) (D : Nat → Dinode) : Prop where
  placed : Placed fs.IsData fs.bitmap (fs.loc D)
  metadata : ∀ b, b < fs.dataStart → b < fs.sb.size → fs.bitmap b = true
  size : fs.sb.size ≤ 2 ^ 32

/-! ### Allocating -/

/-- The block `b` is marked and zeroed. -/
def take (fs : Fs) (b : Nat) : Fs :=
  { fs with bitmap := Function.update fs.bitmap b true, block := Function.update fs.block b fun _ => 0 }

/-- Assignment to an address of an in-memory inode. -/
def setAddr (fs : Fs) (ip : Fin ninode) (k b : Nat) : Fs :=
  fs.setInode ip { fs.itable ip with d := { (fs.itable ip).d with addrs := Function.update (fs.itable ip).d.addrs k b } }

/-- The blocks of the bitmap. -/
def bitmapBlocks (fs : Fs) : Finset Nat := (Finset.range (fs.sb.size / bpb + 1)).image (· + fs.sb.bmapstart)

lemma bblock_mem (hb : b < fs.sb.size) : fs.bblock b ∈ fs.bitmapBlocks := by
  refine Finset.mem_image.mpr ⟨b / bpb, Finset.mem_range.mpr ?_, rfl⟩
  exact Nat.lt_succ_of_le (Nat.div_le_div_right hb.le)

lemma card_bitmapBlocks (fs : Fs) : fs.bitmapBlocks.card ≤ fs.sb.size / bpb + 1 :=
  Finset.card_image_le.trans (Finset.card_range _).le

/-- The free blocks, in the order in which `balloc` hands them out. -/
def freeList (fs : Fs) : List Nat := (List.range fs.sb.size).filter fun b => !fs.bitmap b

/-- The bitmap blocks of the next `a` blocks that `balloc` hands out are in `L`. -/
def Marks (fs : Fs) (L : Finset Nat) (a : Nat) : Prop := ∀ b ∈ fs.freeList.take a, fs.bblock b ∈ L

lemma mem_freeList : b ∈ fs.freeList ↔ b < fs.sb.size ∧ fs.bitmap b = false := by simp [freeList]

lemma nodup_freeList (fs : Fs) : fs.freeList.Nodup := List.nodup_range.filter _

/-- All of the bitmap is in `L`. -/
lemma marks_of_bitmapBlocks (h : fs.bitmapBlocks ⊆ L) (a : Nat) : Marks fs L a := by
  intro b hb
  exact h (bblock_mem (mem_freeList.mp (List.mem_of_mem_take hb)).1)

/-- The next `a` blocks have no more than `a` blocks of the bitmap. -/
lemma exists_marks (fs : Fs) (a : Nat) : ∃ B, Marks fs B a ∧ B.card ≤ min (fs.sb.size / bpb + 1) a := by
  refine ⟨(fs.freeList.take a).toFinset.image fs.bblock,
    fun b hb => Finset.mem_image_of_mem _ (List.mem_toFinset.mpr hb), le_min ?_ ?_⟩
  · refine (Finset.card_le_card fun x hx => ?_).trans fs.card_bitmapBlocks
    obtain ⟨b, hb, rfl⟩ := Finset.mem_image.mp hx
    exact marks_of_bitmapBlocks (Finset.Subset.refl _) a b (List.mem_toFinset.mp hb)
  · exact Finset.card_image_le.trans ((List.toFinset_card_le _).trans (List.length_take_le _ _))

lemma Marks.mono {L' : Finset Nat} {a a' : Nat} (h : Marks fs L a) (hL : L ⊆ L') (ha : a' ≤ a) : Marks fs L' a' := by
  intro b hb
  have hsub := (List.take_prefix_take_left ha).subset hb
  exact hL (h b hsub)

lemma Marks.congr {a : Nat} (h : Marks fs L a) (hsb : fs'.sb = fs.sb) (hbits : fs'.bitmap = fs.bitmap) : Marks fs' L a := by
  have hlist : fs'.freeList = fs.freeList := by
    unfold freeList
    rw [hsb, hbits]
  intro b hb
  rw [hlist] at hb
  have hmem := h b hb
  unfold bblock at hmem ⊢
  rwa [hsb]

/-- The block that is taken is the first of the free ones. -/
lemma freeList_take {rest : List Nat} (h : fs.freeList = b :: rest) : (fs.take b).freeList = rest := by
  have hnodup := fs.nodup_freeList
  rw [h] at hnodup
  have hfilter : (fs.take b).freeList = fs.freeList.filter fun c => c ≠ b := by
    unfold freeList
    rw [List.filter_filter]
    refine List.filter_congr fun c _ => ?_
    by_cases hcb : c = b
    · simp [take, hcb]
    · simp [take, hcb]
  rw [hfilter, h]
  have hrest : ∀ c ∈ rest, c ≠ b := by
    rintro c hc rfl
    exact (List.nodup_cons.mp hnodup).1 hc
  simpa using hrest

/-- `balloc` finds no block, or takes one that is free. -/
lemma balloc_ok (h : Logs fs L) (hbits : Marks fs L 1) :
    ((∀ b < fs.sb.size, fs.bitmap b = true) ∧ fs.balloc = .ok (0, fs)) ∨
      ∃ b l, b < fs.sb.size ∧ fs.bitmap b = false ∧ Gives fs.balloc (b, (fs.take b).logged l) (insert b L) ∧
        Logs ((fs.take b).logged l) (insert b L) ∧
        (∀ a, Marks fs L (a + 1) → Marks ((fs.take b).logged l) (insert b L) a) ∧
        Backed fs ((fs.take b).logged l) ∧ b ∈ l := by
  have hhead : fs.freeList.head? = (List.range fs.sb.size).find? fun b => !fs.bitmap b := List.head?_filter
  unfold balloc
  split
  · next hnone =>
    refine Or.inl ⟨fun b hb => ?_, rfl⟩
    have hused := List.find?_eq_none.mp hnone b (List.mem_range.mpr hb)
    simpa using hused
  · next b hfind =>
    have hb := List.mem_range.mp (List.mem_of_find?_eq_some hfind)
    have hfree : fs.bitmap b = false := by simpa using List.find?_some hfind
    obtain ⟨rest, hlist⟩ : ∃ rest, fs.freeList = b :: rest := by
      rw [hfind] at hhead
      exact List.head?_eq_some_iff.mp hhead
    have hmark : fs.bblock b ∈ L := hbits b (by rw [hlist]; simp)
    have hlogs : Logs { fs with bitmap := Function.update fs.bitmap b true } (insert b L) :=
      (h.mono (Finset.subset_insert b L)).congr rfl
    obtain ⟨l, hl, hlogs, hmono, -⟩ := hlogs.logWrite (Finset.mem_insert_of_mem hmark)
    have hzero : Logs ((fs.take b).logged l) (insert b L) := hlogs.congr rfl
    obtain ⟨l', hl', hlogs', hmono', hmem'⟩ := hzero.logWrite (Finset.mem_insert_self b L)
    refine Or.inr ⟨b, l', hb, hfree, ?_, hlogs', fun a ha => ?_, ⟨rfl, List.Subset.trans hmono hmono', fun c hc => ?_⟩, hmem'⟩
    · refine hl.bind (Finset.Subset.refl _) ?_
      exact Gives.bind hl' (Finset.Subset.refl _) (Gives.ok _ rfl)
    · have hrest : Marks (fs.take b) (insert b L) a := by
        intro c hc
        rw [freeList_take hlist] at hc
        refine Finset.mem_insert_of_mem (ha c ?_)
        rw [hlist, List.take_succ_cons]
        exact List.mem_cons_of_mem b hc
      exact hrest.congr rfl rfl
    · have hcb : c ≠ b := by
        rintro rfl
        exact hc hmem'
      exact Function.update_of_ne hcb _ _

/-- A free block is nobody's. -/
lemma Owned.isData_of_free {D : Nat → Dinode} (h : Owned fs D) (hb : b < fs.sb.size) (hfree : fs.bitmap b = false) :
    fs.IsData b := by
  refine ⟨?_, hb⟩
  by_contra hlt
  have hused := h.metadata b (not_le.mp hlt) hb
  rw [hfree] at hused
  cases hused

/-! ### Attaching a block -/

/-- From `fs` to `fs'` the inode `i`, now `d`, has got blocks filled with zeros; it and all others keep
the blocks they had, with their contents. -/
structure Extends (fs : Fs) (D : Nat → Dinode) (ip : Fin ninode) (i : Nat) (fs' : Fs) (d : Dinode) : Prop where
  owned : Owned fs' (Function.update D i d)
  sb : fs'.sb = fs.sb
  dinode : fs'.dinode = fs.dinode
  itable : fs'.itable = Function.update fs.itable ip { fs.itable ip with d := d }
  type : d.type = (D i).type
  nlink : d.nlink = (D i).nlink
  size : d.size = (D i).size
  kept : ∀ s, fs.loc D s ≠ 0 → fs'.loc (Function.update D i d) s = fs.loc D s
  data : ∀ s, s.2 ≠ ndirect → fs.loc D s ≠ 0 → fs'.block (fs.loc D s) = fs.block (fs.loc D s)
  zeroed : ∀ s, s.2 ≠ ndirect → fs.loc D s = 0 → fs'.loc (Function.update D i d) s ≠ 0 →
    fs'.block (fs'.loc (Function.update D i d) s) = fun _ => 0

variable {D : Nat → Dinode} {d d' : Dinode} {k l : Nat}

lemma Extends.refl (h : Owned fs D) (hd : (fs.itable ip).d = D i) : Extends fs D ip i fs (D i) := by
  have hself : Function.update D i (D i) = D := Function.update_eq_self i D
  have htable : fs.itable = Function.update fs.itable ip { fs.itable ip with d := D i } := by
    rw [← hd]
    exact (Function.update_eq_self ip fs.itable).symm
  refine ⟨?_, rfl, rfl, htable, rfl, rfl, rfl, ?_, fun _ _ _ => rfl, ?_⟩
  · rwa [hself]
  · rw [hself]
    exact fun _ _ => rfl
  · rw [hself]
    intro s _ hnone hsome
    exact absurd hnone hsome

lemma Extends.trans {fs'' : Fs} (h : Extends fs D ip i fs' d) (h' : Extends fs' (Function.update D i d) ip i fs'' d') :
    Extends fs D ip i fs'' d' := by
  have hself : Function.update D i d i = d := Function.update_self i d D
  have hidem : Function.update (Function.update D i d) i d' = Function.update D i d' := Function.update_idem ..
  obtain ⟨howned, hsb, hdinode, htable, htype, hnlink, hsize, hkept, hdata, hzeroed⟩ := h'
  rw [hidem] at howned hkept hzeroed
  rw [hself] at htype hnlink hsize
  refine ⟨howned, hsb.trans h.sb, hdinode.trans h.dinode, ?_, htype.trans h.type, hnlink.trans h.nlink,
    hsize.trans h.size, fun s hs => ?_, fun s hs hloc => ?_, fun s hs hnone hsome => ?_⟩
  · rw [htable, h.itable, Function.update_idem, Function.update_self]
  · have hmid := h.kept s hs
    rw [hkept s (hmid ▸ hs), hmid]
  · have hmid := h.kept s hloc
    have hdata' := hdata s hs (hmid ▸ hloc)
    rw [hmid] at hdata'
    rw [hdata', h.data s hs hloc]
  · by_cases hmid : fs'.loc (Function.update D i d) s = 0
    · exact hzeroed s hs hmid hsome
    · rw [hkept s hmid, hdata s hs hmid]
      exact h.zeroed s hs hnone hmid

/-- A block nobody had is put into one slot. -/
lemma Owned.attach (h : Owned fs D) (hb : b < fs.sb.size) (hfree : fs.bitmap b = false)
    (hslot : fs.loc D (i, k) = 0) (hsb : fs'.sb = fs.sb) (hbits : fs'.bitmap = Function.update fs.bitmap b true)
    (hloc : fs'.loc (Function.update D i d) = Function.update (fs.loc D) (i, k) b) :
    Owned fs' (Function.update D i d) := by
  have hdata := h.isData_of_free hb hfree
  have hsame : fs'.IsData = fs.IsData := by
    unfold IsData dataStart
    rw [hsb]
  refine ⟨?_, fun c hc hlt => ?_, hsb ▸ h.size⟩
  · rw [hsame, hbits, hloc]
    exact h.placed.attach hslot hdata hfree fs.not_isData_zero
  · unfold dataStart at hc
    rw [hsb] at hc hlt
    rw [hbits]
    by_cases hcb : c = b
    · rw [hcb, Function.update_self]
    · rw [Function.update_of_ne hcb]
      exact h.metadata c hc hlt

/-- The addresses of `d` with one more. -/
def withAddr (d : Dinode) (k b : Nat) : Dinode := { d with addrs := Function.update d.addrs k b }

@[simp] lemma withAddr_self (d : Dinode) (k b : Nat) : (withAddr d k b).addrs k = b := by simp [withAddr]

lemma withAddr_of_ne (d : Dinode) {k m : Nat} (hm : m ≠ k) (b : Nat) : (withAddr d k b).addrs m = d.addrs m := by
  simp [withAddr, hm]

/-- The indirect block of an inode is none of its other blocks, and nobody else's. -/
lemma Owned.ne_indirect (h : Owned fs D) (ht : (D i).type ≠ 0) (hind : (D i).addrs ndirect ≠ 0) {s : Nat × Nat}
    (hs : s ≠ (i, ndirect)) : fs.loc D s ≠ (D i).addrs ndirect := by
  intro heq
  have hself : fs.loc D (i, ndirect) = (D i).addrs ndirect := by rw [loc_of_type ht, slot_direct le_rfl]
  exact hs (h.placed.inj (i, ndirect) s (hself ▸ hind) (hself.trans heq.symm)).symm

lemma Owned.indirect_ne (h : Owned fs D) (hb : b < fs.sb.size) (hfree : fs.bitmap b = false) {j : Nat}
    (ht : (D j).type ≠ 0) : (D j).addrs ndirect ≠ b := by
  have hfresh := h.placed.fresh (h.isData_of_free hb hfree) hfree (j, ndirect)
  rwa [loc_of_type ht, slot_direct le_rfl] at hfresh

/-- A block is listed by an inode itself. -/
lemma Owned.attach_direct (h : Owned fs D) (hd : (fs.itable ip).d = D i) (ht : (D i).type ≠ 0) (hk : k ≤ ndirect)
    (hnone : (D i).addrs k = 0) (hb : b < fs.sb.size) (hfree : fs.bitmap b = false) (l : List Nat) :
    Extends fs D ip i (((fs.take b).logged l).setAddr ip k b) (withAddr (D i) k b) ∧
      (((fs.take b).logged l).setAddr ip k b).loc (Function.update D i (withAddr (D i) k b)) =
        Function.update (fs.loc D) (i, k) b := by
  have hdata := h.isData_of_free hb hfree
  have hslot : fs.loc D (i, k) = 0 := by rw [loc_of_type ht, slot_direct hk, hnone]
  -- the new block is no indirect block, so all entries stay
  have hsame : ∀ {j m}, (D j).type ≠ 0 → (((fs.take b).logged l).setAddr ip k b).slot (D j) m = fs.slot (D j) m := by
    intro j m hj
    refine slot_congr (fun _ _ => rfl) fun _ => ?_
    exact Function.update_of_ne (h.indirect_ne hb hfree hj) _ _
  have hloc : (((fs.take b).logged l).setAddr ip k b).loc (Function.update D i (withAddr (D i) k b)) =
      Function.update (fs.loc D) (i, k) b := by
    funext ⟨j, m⟩
    by_cases hj : j = i
    · subst hj
      have ht' : (Function.update D j (withAddr (D j) k b) j).type ≠ 0 := by rwa [Function.update_self]
      rw [loc_of_type ht', Function.update_self]
      by_cases hm : m = k
      · rw [hm, Function.update_self, slot_direct hk, withAddr_self]
      · have hne : (j, m) ≠ (j, k) := fun he => hm (Prod.mk.inj he).2
        rw [Function.update_of_ne hne, loc_of_type ht]
        by_cases hle : m ≤ ndirect
        · rw [slot_direct hle, slot_direct hle]
          exact withAddr_of_ne _ hm b
        · by_cases hki : k = ndirect
          · -- the new indirect block lists nothing
            subst hki
            rw [slot_none (by omega) hnone]
            unfold slot
            rw [if_neg hle]
            split
            · have hblock : (((fs.take b).logged l).setAddr ip ndirect b).block b = fun _ => 0 :=
                Function.update_self b _ _
              unfold indirect
              rw [withAddr_self, hblock]
              rfl
            · rfl
          · have hind : (withAddr (D j) k b).addrs ndirect = (D j).addrs ndirect :=
              withAddr_of_ne _ (Ne.symm hki) b
            rw [← hsame (m := m) ht]
            unfold slot
            rw [if_neg hle, if_neg hle, hind]
    · have hne : (j, m) ≠ (i, k) := fun he => hj (Prod.mk.inj he).1
      rw [Function.update_of_ne hne]
      unfold loc
      rw [Function.update_of_ne hj]
      by_cases htj : (D j).type = 0
      · rw [if_pos htj, if_pos htj]
      · rw [if_neg htj, if_neg htj, hsame htj]
  refine ⟨⟨h.attach hb hfree hslot rfl rfl hloc, rfl, rfl, ?_, rfl, rfl, rfl, fun s hs => ?_, fun s _ hs => ?_,
    fun s _ hnone' hsome => ?_⟩, hloc⟩
  · unfold withAddr
    rw [← hd]
    rfl
  · rw [hloc, Function.update_of_ne]
    rintro rfl
    exact hs hslot
  · exact Function.update_of_ne (h.placed.fresh hdata hfree s) _ _
  · rw [hloc] at hsome ⊢
    by_cases hsk : s = (i, k)
    · rw [hsk, Function.update_self]
      exact Function.update_self b _ _
    · rw [Function.update_of_ne hsk] at hsome
      exact absurd hnone' hsome

lemma indirect_setIndirect {j m v : Nat} (hv : v < 2 ^ 32) (fs : Fs) (c : Nat) :
    (fs.setIndirect c j v).indirect c m = if m = j then v else fs.indirect c m := by
  have hblock : (fs.setIndirect c j v).block c =
      fun x => if 4 * j ≤ x ∧ x < 4 * j + 4 then UInt8.ofNat (v / 256 ^ (x - 4 * j)) else fs.block c x :=
    Function.update_self c _ _
  unfold indirect
  rw [hblock]
  by_cases hm : m = j
  · subst hm
    have h0 : 4 * m - 4 * m = 0 := by omega
    have h1 : 4 * m + 1 - 4 * m = 1 := by omega
    have h2 : 4 * m + 2 - 4 * m = 2 := by omega
    have h3 : 4 * m + 3 - 4 * m = 3 := by omega
    dsimp only
    rw [if_pos rfl, if_pos (by omega), if_pos (by omega), if_pos (by omega), if_pos (by omega), h0, h1, h2, h3]
    simp only [UInt8.toNat_ofNat']
    omega
  · dsimp only
    rw [if_neg hm, if_neg (by omega), if_neg (by omega), if_neg (by omega), if_neg (by omega)]

/-- A block is listed by an indirect block. -/
lemma Owned.attach_indirect (h : Owned fs D) (hd : (fs.itable ip).d = D i) (ht : (D i).type ≠ 0)
    (hind : (D i).addrs ndirect ≠ 0) {m : Nat} (hm : m < nindirect) (hnone : fs.indirect ((D i).addrs ndirect) m = 0)
    (hb : b < fs.sb.size) (hfree : fs.bitmap b = false) (l l' : List Nat) :
    Extends fs D ip i ((((fs.take b).logged l).setIndirect ((D i).addrs ndirect) m b).logged l') (D i) ∧
      ((((fs.take b).logged l).setIndirect ((D i).addrs ndirect) m b).logged l').loc D =
        Function.update (fs.loc D) (i, ndirect + 1 + m) b := by
  have hdata := h.isData_of_free hb hfree
  have hne := h.indirect_ne hb hfree ht
  have hslot : fs.loc D (i, ndirect + 1 + m) = 0 := by rw [loc_of_type ht, slot_indirect hind hm, hnone]
  have hupdate : Function.update D i (D i) = D := Function.update_eq_self i D
  obtain ⟨fs', hfs'⟩ : ∃ fs', fs' = (((fs.take b).logged l).setIndirect ((D i).addrs ndirect) m b).logged l' := ⟨_, rfl⟩
  rw [← hfs']
  have hkept : ∀ c, c ≠ b → c ≠ (D i).addrs ndirect → fs'.block c = fs.block c := by
    intro c hcb hci
    rw [hfs']
    exact (Function.update_of_ne hci _ _).trans (Function.update_of_ne hcb _ _)
  have hloc : fs'.loc D = Function.update (fs.loc D) (i, ndirect + 1 + m) b := by
    funext ⟨j, n⟩
    unfold loc
    dsimp only
    by_cases htj : (D j).type = 0
    · have hji : (j, n) ≠ (i, ndirect + 1 + m) := fun he => ht ((Prod.mk.inj he).1 ▸ htj)
      rw [if_pos htj, Function.update_of_ne hji, if_pos htj]
    rw [if_neg htj]
    by_cases hj : j = i
    · subst hj
      by_cases hn : ndirect < n ∧ n ≤ maxfile
      · -- an entry of the indirect block
        obtain ⟨n', rfl⟩ : ∃ n', n = ndirect + 1 + n' := ⟨n - (ndirect + 1), by omega⟩
        have hn' : n' < nindirect := by
          unfold maxfile at hn
          omega
        have hread : fs'.indirect ((D j).addrs ndirect) n' = if n' = m then b else fs.indirect ((D j).addrs ndirect) n' := by
          rw [hfs']
          have hset := indirect_setIndirect (m := n') (j := m) (lt_of_lt_of_le hb h.size) ((fs.take b).logged l) ((D j).addrs ndirect)
          have hold : ((fs.take b).logged l).indirect ((D j).addrs ndirect) n' = fs.indirect ((D j).addrs ndirect) n' := by
            unfold indirect
            rw [show ((fs.take b).logged l).block ((D j).addrs ndirect) = fs.block ((D j).addrs ndirect) from
              Function.update_of_ne hne _ _]
          rw [hold] at hset
          exact hset
        rw [slot_indirect hind hn', hread]
        by_cases hnm : n' = m
        · rw [if_pos hnm, hnm, Function.update_self]
        · have hpair : (j, ndirect + 1 + n') ≠ (j, ndirect + 1 + m) := fun he => hnm (by have := (Prod.mk.inj he).2; omega)
          rw [if_neg hnm, Function.update_of_ne hpair, if_neg htj, slot_indirect hind hn']
      · have hpair : (j, n) ≠ (j, ndirect + 1 + m) := by
          intro he
          have := (Prod.mk.inj he).2
          unfold maxfile at hn
          omega
        rw [Function.update_of_ne hpair, if_neg htj]
        unfold slot
        by_cases hle : n ≤ ndirect
        · rw [if_pos hle, if_pos hle]
        · rw [if_neg hle, if_neg hle, if_neg (by omega), if_neg (by omega)]
    · have hpair : (j, n) ≠ (i, ndirect + 1 + m) := fun he => hj (Prod.mk.inj he).1
      rw [Function.update_of_ne hpair, if_neg htj]
      refine slot_congr (fun _ _ => rfl) fun hindj => hkept _ (h.indirect_ne hb hfree htj) ?_
      have hown := h.ne_indirect (s := (j, ndirect)) ht hind fun he => hj (Prod.mk.inj he).1
      rwa [loc_of_type htj, slot_direct le_rfl] at hown
  have hbits : fs'.bitmap = Function.update fs.bitmap b true := by rw [hfs']; rfl
  refine ⟨⟨?_, ?_, ?_, ?_, rfl, rfl, rfl, fun s hs => ?_, fun s hs hloc' => ?_, fun s hs hnone' hsome => ?_⟩, hloc⟩
  · refine h.attach (k := ndirect + 1 + m) hb hfree hslot (by rw [hfs']; rfl) hbits ?_
    rw [hupdate]
    exact hloc
  · rw [hfs']
    rfl
  · rw [hfs']
    rfl
  · rw [← hd, hfs']
    exact (Function.update_eq_self ip fs.itable).symm
  · rw [hupdate, hloc, Function.update_of_ne]
    rintro rfl
    exact hs hslot
  · refine hkept _ (h.placed.fresh hdata hfree s) (h.ne_indirect ht hind ?_)
    rintro rfl
    exact hs rfl
  · rw [hupdate, hloc] at hsome ⊢
    by_cases hsk : s = (i, ndirect + 1 + m)
    · rw [hsk, Function.update_self, hfs']
      exact (Function.update_of_ne hne.symm _ _).trans (Function.update_self b _ _)
    · rw [Function.update_of_ne hsk] at hsome
      exact absurd hnone' hsome

/-! ### Finding a block of a file -/

/-- How many blocks are free. -/
def freeCount (fs : Fs) : Nat := ((Finset.range fs.sb.size).filter fun b => fs.bitmap b = false).card

lemma freeCount_eq_zero (h : ∀ b < fs.sb.size, fs.bitmap b = true) : fs.freeCount = 0 := by
  refine Finset.card_eq_zero.mpr (Finset.filter_eq_empty_iff.mpr fun b hb => ?_)
  simp [h b (Finset.mem_range.mp hb)]

lemma freeCount_take (hb : b < fs.sb.size) (hfree : fs.bitmap b = false) (hsb : fs'.sb = fs.sb)
    (hbits : fs'.bitmap = Function.update fs.bitmap b true) : fs'.freeCount + 1 = fs.freeCount := by
  have hmem : b ∈ (Finset.range fs.sb.size).filter fun c => fs.bitmap c = false := by simp [hb, hfree]
  have herase : ((Finset.range fs'.sb.size).filter fun c => fs'.bitmap c = false) =
      ((Finset.range fs.sb.size).filter fun c => fs.bitmap c = false).erase b := by
    ext c
    rw [hsb, hbits]
    by_cases hcb : c = b
    · simp [hcb]
    · simp [hcb]
  unfold freeCount
  rw [herase]
  exact Finset.card_erase_add_one hmem

/-- What a look at the slot `k` of inode `i` does: an empty one has got a block, unless there is none. -/
structure Maps (fs : Fs) (D : Nat → Dinode) (ip : Fin ninode) (i k : Nat) (L : Finset Nat) (fs' : Fs)
    (d : Dinode) (L' : Finset Nat) : Prop where
  ext : Extends fs D ip i fs' d
  logs : Logs fs' L'
  mono : L ⊆ L'
  card : L'.card ≤ L.card + if fs.slot (D i) k = 0 then 1 else 0
  mem : fs.slot (D i) k = 0 → fs'.slot d k ≠ 0 → fs'.slot d k ∈ L'
  free : fs'.freeCount + (if fs.slot (D i) k = 0 ∧ fs'.slot d k ≠ 0 then 1 else 0) = fs.freeCount
  full : fs'.slot d k = 0 → fs'.freeCount = 0
  others : ∀ s, s ≠ (i, k) → fs'.loc (Function.update D i d) s = fs.loc D s
  marks : ∀ a, Marks fs L (a + if fs.slot (D i) k = 0 then 1 else 0) → Marks fs' L' a
  backed : Backed fs fs'
  fresh : fs.slot (D i) k = 0 → fs'.slot d k ≠ 0 → fs'.slot d k ∈ fs'.log.block

/-- The slot has a block, or there is no block to be had. -/
lemma Maps.refl (h : Owned fs D) (hd : (fs.itable ip).d = D i) (hl : Logs fs L)
    (hslot : fs.slot (D i) k ≠ 0 ∨ ∀ b < fs.sb.size, fs.bitmap b = true) : Maps fs D ip i k L fs (D i) L := by
  refine ⟨.refl h hd, hl, Finset.Subset.refl L, Nat.le_add_right _ _, fun h0 hne => absurd h0 hne, ?_, fun h0 => ?_,
    fun s _ => by rw [Function.update_eq_self], fun a ha => ha.mono (Finset.Subset.refl L) (Nat.le_add_right _ _),
    .refl fs, fun h0 hne => absurd h0 hne⟩
  · rw [if_neg (fun hboth => hboth.2 hboth.1), add_zero]
  · exact freeCount_eq_zero (hslot.resolve_left fun hne => hne h0)

/-- One of the inode's own addresses. -/
lemma bmapDirect_ok (h : Owned fs D) (hd : (fs.itable ip).d = D i) (ht : (D i).type ≠ 0) (hk : k ≤ ndirect)
    (hl : Logs fs L) (hbits : fs.slot (D i) k = 0 → Marks fs L 1) :
    ∃ fs' d' L', Gives (fs.bmapDirect ip k) (fs'.slot d' k, fs') L' ∧ Maps fs D ip i k L fs' d' L' := by
  have hslot : fs.slot (D i) k = (D i).addrs k := slot_direct hk
  unfold bmapDirect
  dsimp only
  rw [hd]
  by_cases hzero : (D i).addrs k = 0
  · rw [if_neg (not_not.mpr hzero)]
    rcases balloc_ok hl (hbits (hslot.trans hzero)) with ⟨hfull, hnone⟩ | ⟨b, l, hb, hfree, htake, hlogs, hmarks, hbacked, hmemb⟩
    · rw [hnone, ok_bind]
      refine ⟨fs, D i, L, Gives.ok L ?_, .refl h hd hl (Or.inr hfull)⟩
      rw [hslot, hzero]
      rfl
    · have hb0 : b ≠ 0 := by
        rintro rfl
        exact fs.not_isData_zero (h.isData_of_free hb hfree)
      have hnew : (((fs.take b).logged l).setAddr ip k b).slot (withAddr (D i) k b) k = b := by
        rw [slot_direct hk, withAddr_self]
      have hadd : fs.slot (D i) k = 0 ∧
          (((fs.take b).logged l).setAddr ip k b).slot (withAddr (D i) k b) k ≠ 0 :=
        ⟨hslot.trans hzero, fun h0 => hb0 (hnew.symm.trans h0)⟩
      obtain ⟨hext, hloc⟩ := h.attach_direct hd ht hk hzero hb hfree l
      refine ⟨((fs.take b).logged l).setAddr ip k b, withAddr (D i) k b, insert b L, ?_,
        hext, hlogs.congr rfl, Finset.subset_insert b L, ?_, fun _ _ => ?_, ?_,
        fun h0 => absurd (hnew.symm.trans h0) hb0, fun s hs => by rw [hloc, Function.update_of_ne hs], fun a ha => ?_,
        ⟨rfl, hbacked.mono, hbacked.same⟩, fun _ _ => by rw [hnew]; exact hmemb⟩
      · refine htake.bind (Finset.Subset.refl _) (Gives.ok _ ?_)
        dsimp only
        rw [if_neg hb0, hnew, ← hd]
        rfl
      · rw [if_pos hadd.1]
        exact Finset.card_insert_le b L
      · rw [hnew]
        exact Finset.mem_insert_self b L
      · rw [if_pos hadd]
        exact freeCount_take hb hfree rfl rfl
      · rw [if_pos hadd.1] at ha
        exact (hmarks a ha).congr rfl rfl
  · rw [if_pos hzero]
    refine ⟨fs, D i, L, Gives.ok L ?_, .refl h hd hl (Or.inl (hslot ▸ hzero))⟩
    rw [hslot]
    rfl

/-- An entry of the indirect block. -/
lemma bmapEntry_ok (h : Owned fs D) (hd : (fs.itable ip).d = D i) (ht : (D i).type ≠ 0)
    (hind : (D i).addrs ndirect ≠ 0) {m : Nat} (hm : m < nindirect) (hl : Logs fs L)
    (hbits : fs.slot (D i) (ndirect + 1 + m) = 0 → Marks fs L 1)
    (hmem : (D i).addrs ndirect ∈ L) :
    ∃ fs' L', Gives (if fs.indirect ((D i).addrs ndirect) m ≠ 0 then pure (fs.indirect ((D i).addrs ndirect) m, fs)
      else do
        let (addr, fs) ← fs.balloc
        if addr = 0 then pure (0, fs)
        else
          let fs ← (fs.setIndirect ((D i).addrs ndirect) m addr).logWrite ((D i).addrs ndirect)
          pure (addr, fs)) (fs'.slot (D i) (ndirect + 1 + m), fs') L' ∧
      Maps fs D ip i (ndirect + 1 + m) L fs' (D i) L' := by
  have hslot : fs.slot (D i) (ndirect + 1 + m) = fs.indirect ((D i).addrs ndirect) m := slot_indirect hind hm
  by_cases hzero : fs.indirect ((D i).addrs ndirect) m = 0
  · rw [if_neg (not_not.mpr hzero)]
    rcases balloc_ok hl (hbits (hslot.trans hzero)) with ⟨hfull, hnone⟩ | ⟨b, l, hb, hfree, htake, hlogs, hmarks, hbacked, hmemb⟩
    · rw [hnone, ok_bind]
      refine ⟨fs, L, Gives.ok L ?_, .refl h hd hl (Or.inr hfull)⟩
      rw [hslot, hzero]
      rfl
    · have hb0 : b ≠ 0 := by
        rintro rfl
        exact fs.not_isData_zero (h.isData_of_free hb hfree)
      have hset : Logs (((fs.take b).logged l).setIndirect ((D i).addrs ndirect) m b) (insert b L) := hlogs.congr rfl
      obtain ⟨l', hl', hlogs', hmono', hmemind⟩ := hset.logWrite (Finset.mem_insert_of_mem hmem)
      obtain ⟨hext, hloc⟩ := h.attach_indirect hd ht hind hm hzero hb hfree l l'
      have hnew : ((((fs.take b).logged l).setIndirect ((D i).addrs ndirect) m b).logged l').slot (D i)
          (ndirect + 1 + m) = b := by
        rw [← loc_of_type ht, hloc, Function.update_self]
      have hadd : fs.slot (D i) (ndirect + 1 + m) = 0 ∧
          ((((fs.take b).logged l).setIndirect ((D i).addrs ndirect) m b).logged l').slot (D i) (ndirect + 1 + m) ≠ 0 :=
        ⟨hslot.trans hzero, fun h0 => hb0 (hnew.symm.trans h0)⟩
      refine ⟨(((fs.take b).logged l).setIndirect ((D i).addrs ndirect) m b).logged l', insert b L, ?_, hext, hlogs',
        Finset.subset_insert b L, ?_, fun _ _ => ?_, ?_, fun h0 => absurd (hnew.symm.trans h0) hb0, fun s hs => ?_, fun a ha => ?_,
        ⟨rfl, List.Subset.trans hbacked.mono hmono', fun c hc => ?_⟩, fun _ _ => by rw [hnew]; exact hmono' hmemb⟩
      · refine htake.bind (Finset.Subset.refl _) ?_
        dsimp only
        rw [if_neg hb0, hnew]
        exact hl'.bind (Finset.Subset.refl _) (Gives.ok _ rfl)
      · rw [if_pos hadd.1]
        exact Finset.card_insert_le b L
      · rw [hnew]
        exact Finset.mem_insert_self b L
      · rw [if_pos hadd]
        exact freeCount_take hb hfree rfl rfl
      · rw [Function.update_eq_self, hloc, Function.update_of_ne hs]
      · rw [if_pos hadd.1] at ha
        exact (hmarks a ha).congr rfl rfl
      · have hci : c ≠ (D i).addrs ndirect := by
          rintro rfl
          exact hc hmemind
        exact (Function.update_of_ne hci _ _).trans (hbacked.same c fun hcl => hc (hmono' hcl))
  · rw [if_pos hzero]
    refine ⟨fs, L, Gives.ok L ?_, .refl h hd hl (Or.inl (hslot ▸ hzero))⟩
    rw [hslot]
    rfl

/-- How many blocks have to be allocated before the block `bn` of a file is there. -/
def missing (fs : Fs) (d : Dinode) (bn : Nat) : Nat :=
  (if fs.fileBlock d bn = 0 then 1 else 0) + if ndirect ≤ bn ∧ d.addrs ndirect = 0 then 1 else 0

/-- The blocks that say where those of a file are, if `a` of them may be new, are among `L`. -/
structure Room (fs : Fs) (d : Dinode) (L : Finset Nat) (a : Nat) : Prop where
  logs : Logs fs L
  marks : Marks fs L a
  indirect : d.addrs ndirect ≠ 0 → d.addrs ndirect ∈ L

/-- What `bmap` does: the block is there, or it and if need be the indirect block are allocated, as long
as there are blocks. -/
structure Found (fs : Fs) (D : Nat → Dinode) (ip : Fin ninode) (i bn : Nat) (L : Finset Nat) (fs' : Fs)
    (d : Dinode) (L' : Finset Nat) : Prop where
  ext : Extends fs D ip i fs' d
  logs : Logs fs' L'
  mono : L ⊆ L'
  indirect : d.addrs ndirect ≠ 0 → d.addrs ndirect ∈ L'
  card : L'.card + (if d.addrs ndirect = 0 then 1 else 0) ≤ L.card + (if (D i).addrs ndirect = 0 then 1 else 0) + 1
  mem : fs'.fileBlock d bn ≠ 0 → fs'.fileBlock d bn ∈ L'
  free : fs'.freeCount + (if fs.fileBlock (D i) bn = 0 ∧ fs'.fileBlock d bn ≠ 0 then 1 else 0) +
    (if (D i).addrs ndirect = 0 ∧ d.addrs ndirect ≠ 0 then 1 else 0) = fs.freeCount
  full : fs'.fileBlock d bn = 0 → fs'.freeCount = 0
  near : bn < ndirect → d.addrs ndirect = (D i).addrs ndirect
  marks : ∀ a, Marks fs L (a + fs.missing (D i) bn) → Marks fs' L' a
  backed : Backed fs fs'
  fresh : fs.fileBlock (D i) bn = 0 → fs'.fileBlock d bn ≠ 0 → fs'.fileBlock d bn ∈ fs'.log.block
  others : ∀ bn', bn' ≠ bn → fs'.fileBlock d bn' = fs.fileBlock (D i) bn'

/-- There is room to log the block of the slot as well. -/
lemma Maps.noted {L' : Finset Nat} (h : Maps fs D ip i k L fs' d L') :
    ∃ L'', Logs fs' L'' ∧ L' ⊆ L'' ∧ L''.card ≤ L.card + 1 ∧ (fs'.slot d k ≠ 0 → fs'.slot d k ∈ L'') := by
  have hcard := h.card
  by_cases hnew : fs'.slot d k ≠ 0 ∧ fs.slot (D i) k ≠ 0
  · rw [if_neg hnew.2, add_zero] at hcard
    have hinsert : (insert (fs'.slot d k) L').card ≤ L.card + 1 := (Finset.card_insert_le _ _).trans (by omega)
    exact ⟨_, h.logs.mono (Finset.subset_insert _ _), Finset.subset_insert _ _, hinsert,
      fun _ => Finset.mem_insert_self _ _⟩
  · refine ⟨L', h.logs, Finset.Subset.refl _, hcard.trans (by split <;> omega), fun hne => h.mem ?_ hne⟩
    by_contra hold
    exact hnew ⟨hne, hold⟩

lemma Maps.addrs {L' : Finset Nat} (h : Maps fs D ip i k L fs' d L') (ht : (D i).type ≠ 0) (hk : k ≠ ndirect) :
    d.addrs ndirect = (D i).addrs ndirect := by
  have hself : Function.update D i d i = d := Function.update_self i d D
  have ht' : (Function.update D i d i).type ≠ 0 := by
    rw [hself, h.ext.type]
    exact ht
  have hsame := h.others (i, ndirect) fun he => hk (Prod.mk.inj he).2.symm
  rwa [loc_of_type ht', loc_of_type ht, hself, slot_direct le_rfl, slot_direct le_rfl] at hsame

/-- The other blocks of the file are as they were. -/
lemma Maps.fileBlock {L' : Finset Nat} (h : Maps fs D ip i k L fs' d L') (ht : (D i).type ≠ 0) {bn : Nat}
    (hne : slotOf bn ≠ k) : fs'.fileBlock d bn = fs.fileBlock (D i) bn := by
  have hself : Function.update D i d i = d := Function.update_self i d D
  have ht' : (Function.update D i d i).type ≠ 0 := by
    rw [hself, h.ext.type]
    exact ht
  have hsame := h.others (i, slotOf bn) fun he => hne (Prod.mk.inj he).2
  rwa [loc_of_type ht', loc_of_type ht, hself] at hsame

lemma Extends.inode (h : Extends fs D ip i fs' d) : (fs'.itable ip).d = Function.update D i d i := by
  rw [h.itable, Function.update_self, Function.update_self]

/-- The block `bn` of a file, where the inode lists it itself. -/
lemma bmap_direct (h : Owned fs D) (hd : (fs.itable ip).d = D i) (ht : (D i).type ≠ 0) {bn : Nat} (hbn : bn < ndirect)
    (hroom : Room fs (D i) L (fs.missing (D i) bn)) :
    ∃ fs' d' L', Gives (fs.bmap ip bn) (fs'.fileBlock d' bn, fs') L' ∧ Found fs D ip i bn L fs' d' L' := by
  have hslot : slotOf bn = bn := if_pos hbn
  have hmiss : fs.missing (D i) bn = if fs.slot (D i) bn = 0 then 1 else 0 := by
    unfold missing fileBlock
    rw [hslot, if_neg (fun hfar : ndirect ≤ bn ∧ (D i).addrs ndirect = 0 => absurd hbn (not_lt.mpr hfar.1)), add_zero]
  have hmarks := hroom.marks
  rw [hmiss] at hmarks
  obtain ⟨fs', d', L', hmap, hmaps⟩ := bmapDirect_ok h hd ht hbn.le hroom.logs
    fun hzero => by rwa [if_pos hzero] at hmarks
  obtain ⟨L'', hlogs, hsub, hle, hmem⟩ := hmaps.noted
  have hind := hmaps.addrs ht (by omega)
  have hfree := hmaps.free
  refine ⟨fs', d', L'', ?_, hmaps.ext, hlogs, hmaps.mono.trans hsub, fun hne => ?_, ?_, ?_, ?_, ?_, fun _ => hind, fun a ha => ?_,
    hmaps.backed, by unfold fileBlock; rw [hslot]; exact hmaps.fresh, fun bn' hne => hmaps.fileBlock ht fun heq => ?_⟩
  · unfold bmap fileBlock
    rw [if_pos hbn, hslot]
    exact hmap.mono hsub
  · rw [hind] at hne ⊢
    exact hsub (hmaps.mono (hroom.indirect hne))
  · rw [hind]
    omega
  · unfold fileBlock
    rwa [hslot]
  · unfold fileBlock
    rw [hslot, hind, if_neg (fun hboth : (D i).addrs ndirect = 0 ∧ (D i).addrs ndirect ≠ 0 => hboth.2 hboth.1)]
    exact hfree
  · unfold fileBlock
    rw [hslot]
    exact hmaps.full
  · rw [hmiss] at ha
    exact (hmaps.marks a ha).mono hsub le_rfl
  · exact hne (slotOf_inj (heq.trans hslot.symm))

/-- The block `bn` of a file whose indirect block is there. -/
lemma bmap_entry (h : Owned fs D) (hd : (fs.itable ip).d = D i) (ht : (D i).type ≠ 0) {m : Nat} (hm : m < nindirect)
    (hind : (D i).addrs ndirect ≠ 0) (hroom : Room fs (D i) L (fs.missing (D i) (ndirect + m))) :
    ∃ fs' L', Gives (fs.bmap ip (ndirect + m)) (fs'.fileBlock (D i) (ndirect + m), fs') L' ∧
      Found fs D ip i (ndirect + m) L fs' (D i) L' := by
  have hslot : slotOf (ndirect + m) = ndirect + 1 + m := by
    unfold slotOf
    rw [if_neg (by omega)]
    omega
  have hmiss : fs.missing (D i) (ndirect + m) = if fs.slot (D i) (ndirect + 1 + m) = 0 then 1 else 0 := by
    unfold missing fileBlock
    rw [hslot, if_neg (fun hfar : ndirect ≤ ndirect + m ∧ (D i).addrs ndirect = 0 => hind hfar.2), add_zero]
  have hmarks := hroom.marks
  rw [hmiss] at hmarks
  obtain ⟨fs', L', hmap, hmaps⟩ := bmapEntry_ok h hd ht hind hm hroom.logs
    (fun hzero => by rwa [if_pos hzero] at hmarks) (hroom.indirect hind)
  obtain ⟨L'', hlogs, hsub, hle, hmem⟩ := hmaps.noted
  have hdirect : fs.bmapDirect ip ndirect = .ok ((D i).addrs ndirect, fs) := by
    unfold bmapDirect
    dsimp only
    rw [hd, if_pos hind]
    rfl
  have hfree := hmaps.free
  refine ⟨fs', L'', ?_, hmaps.ext, hlogs, hmaps.mono.trans hsub, fun hne => hsub (hmaps.mono (hroom.indirect hne)),
    ?_, ?_, ?_, ?_, fun _ => rfl, fun a ha => ?_, hmaps.backed, by unfold fileBlock; rw [hslot]; exact hmaps.fresh,
    fun bn' hne => hmaps.fileBlock ht fun heq => hne (slotOf_inj (heq.trans hslot.symm))⟩
  · unfold bmap fileBlock
    rw [if_neg (by omega), if_pos (by omega), hdirect, ok_bind, hslot]
    dsimp only
    rw [if_neg hind, Nat.add_sub_cancel_left]
    exact hmap.mono hsub
  · rw [if_neg hind]
    omega
  · unfold fileBlock
    rwa [hslot]
  · unfold fileBlock
    rw [hslot, if_neg (fun hboth : (D i).addrs ndirect = 0 ∧ (D i).addrs ndirect ≠ 0 => hboth.2 hboth.1)]
    exact hfree
  · unfold fileBlock
    rw [hslot]
    exact hmaps.full
  · rw [hmiss] at ha
    exact (hmaps.marks a ha).mono hsub le_rfl

/-- The block `bn` of a file that has no indirect block yet. -/
lemma bmap_indirect (h : Owned fs D) (hd : (fs.itable ip).d = D i) (ht : (D i).type ≠ 0) {m : Nat}
    (hm : m < nindirect) (hind : (D i).addrs ndirect = 0) (hroom : Room fs (D i) L (fs.missing (D i) (ndirect + m))) :
    ∃ fs' d' L', Gives (fs.bmap ip (ndirect + m)) (fs'.fileBlock d' (ndirect + m), fs') L' ∧
      Found fs D ip i (ndirect + m) L fs' d' L' := by
  have hslot : slotOf (ndirect + m) = ndirect + 1 + m := by
    unfold slotOf
    rw [if_neg (by omega)]
    omega
  have hbmap : fs.bmap ip (ndirect + m) = (do
      let (ind, fs) ← fs.bmapDirect ip ndirect
      if ind = 0 then pure (0, fs)
      else if fs.indirect ind m ≠ 0 then pure (fs.indirect ind m, fs)
      else
        let (addr, fs) ← fs.balloc
        if addr = 0 then pure (0, fs)
        else
          let fs ← (fs.setIndirect ind m addr).logWrite ind
          pure (addr, fs)) := by
    unfold bmap
    rw [if_neg (by omega), if_pos (by omega), Nat.add_sub_cancel_left]
  have hnone : fs.fileBlock (D i) (ndirect + m) = 0 := by
    unfold fileBlock
    rw [hslot, slot_none (by omega) hind]
  have hslot1 : fs.slot (D i) ndirect = 0 := (slot_direct le_rfl).trans hind
  have hmiss : fs.missing (D i) (ndirect + m) = 2 := by
    unfold missing
    rw [if_pos hnone, if_pos ⟨Nat.le_add_right _ _, hind⟩]
  have hmarks := hroom.marks
  rw [hmiss] at hmarks
  obtain ⟨fs1, d1, L1, hmap1, hmaps1⟩ := bmapDirect_ok h hd ht le_rfl hroom.logs
    fun _ => hmarks.mono (Finset.Subset.refl L) (by omega)
  have hmarks1 : ∀ a, Marks fs L (a + 1) → Marks fs1 L1 a := by
    intro a ha
    refine hmaps1.marks a ?_
    rwa [if_pos hslot1]
  have hown1 : fs1.slot d1 ndirect = d1.addrs ndirect := slot_direct le_rfl
  have hcard1 := hmaps1.card
  have hfree1 := hmaps1.free
  rw [if_pos hslot1] at hcard1
  rw [hown1] at hmap1 hfree1
  rw [hbmap]
  by_cases hzero : d1.addrs ndirect = 0
  · -- there is no block for the indirect block
    have hnone1 : fs1.fileBlock d1 (ndirect + m) = 0 := by
      unfold fileBlock
      rw [hslot, slot_none (by omega) hzero]
    rw [if_neg (fun hboth => hboth.2 hzero)] at hfree1
    refine ⟨fs1, d1, L1, hmap1.bind (Finset.Subset.refl _) (Gives.ok _ ?_), hmaps1.ext, hmaps1.logs, hmaps1.mono, fun hne => absurd hzero hne, ?_,
      fun hne => absurd hnone1 hne, ?_, fun _ => hmaps1.full (hown1.trans hzero), fun hlt => by omega,
      fun a ha => hmarks1 a (ha.mono (Finset.Subset.refl L) (by omega)), hmaps1.backed, fun _ hne => absurd hnone1 hne,
      fun bn' _ => hmaps1.fileBlock ht (slotOf_ne bn')⟩
    · dsimp only
      rw [if_pos hzero, hnone1]
      rfl
    · rw [if_pos hzero, if_pos hind]
      omega
    · rw [if_neg (fun hboth => hboth.2 hnone1), if_neg (fun hboth => hboth.2 hzero)]
      exact hfree1
  · rw [if_pos ⟨hslot1, hzero⟩] at hfree1
    have hself : Function.update D i d1 i = d1 := Function.update_self i d1 D
    have ht1 : (Function.update D i d1 i).type ≠ 0 := by
      rw [hself, hmaps1.ext.type]
      exact ht
    have hmem1 : d1.addrs ndirect ∈ L1 := by
      have hmem := hmaps1.mem hslot1
      rw [hown1] at hmem
      exact hmem hzero
    obtain ⟨fs2, L2, hmap2, hmaps2⟩ := bmapEntry_ok hmaps1.ext.owned hmaps1.ext.inode ht1 (hself.symm ▸ hzero) hm
      hmaps1.logs (fun _ => hmarks1 1 hmarks) (hself.symm ▸ hmem1)
    obtain ⟨L', hlogs, hsub, hle, hmem⟩ := hmaps2.noted
    have hent : fs1.slot d1 (ndirect + 1 + m) = 0 := by
      have hsame := hmaps1.others (i, ndirect + 1 + m) fun he => by have := (Prod.mk.inj he).2; omega
      rwa [loc_of_type ht1, loc_of_type ht, hself, slot_none (d := D i) (by omega) hind] at hsame
    have hfree2 := hmaps2.free
    have hfull2 := hmaps2.full
    have hext := hmaps1.ext.trans (hself ▸ hmaps2.ext)
    rw [hself] at hmap2 hmem hfree2 hfull2
    refine ⟨fs2, d1, L', ?_, hext, hlogs, (hmaps1.mono.trans hmaps2.mono).trans hsub,
      fun _ => hsub (hmaps2.mono hmem1), ?_, ?_, ?_, ?_, fun hlt => by omega, fun a ha => ?_,
      hmaps1.backed.trans hmaps2.backed, fun _ => ?_, fun bn' hne => ?_⟩
    · refine hmap1.bind (hmaps2.mono.trans hsub) ?_
      dsimp only
      unfold fileBlock
      rw [if_neg hzero, hslot]
      exact hmap2.mono hsub
    · rw [if_neg hzero, if_pos hind]
      omega
    · unfold fileBlock
      rwa [hslot]
    · have hblock : fs2.fileBlock d1 (ndirect + m) = fs2.slot d1 (ndirect + 1 + m) := by
        unfold fileBlock
        rw [hslot]
      have hsame : (if fs.fileBlock (D i) (ndirect + m) = 0 ∧ fs2.fileBlock d1 (ndirect + m) ≠ 0 then 1 else 0) =
          if fs1.slot d1 (ndirect + 1 + m) = 0 ∧ fs2.slot d1 (ndirect + 1 + m) ≠ 0 then 1 else 0 := by
        rw [hnone, hent, hblock]
      rw [hsame, hfree2, if_pos (show (D i).addrs ndirect = 0 ∧ d1.addrs ndirect ≠ 0 from ⟨hind, hzero⟩)]
      exact hfree1
    · unfold fileBlock
      rw [hslot]
      exact hfull2
    · rw [hmiss] at ha
      refine (hmaps2.marks a ?_).mono hsub le_rfl
      rw [hself, if_pos hent]
      exact hmarks1 (a + 1) ha
    · have hfresh2 := hmaps2.fresh
      rw [hself] at hfresh2
      unfold fileBlock
      rw [hslot]
      exact hfresh2 hent
    · have hsame2 := hmaps2.fileBlock ht1 fun heq => hne (slotOf_inj (heq.trans hslot.symm))
      rw [hself] at hsame2
      exact hsame2.trans (hmaps1.fileBlock ht (slotOf_ne bn'))

/-- `bmap` finds every block that is there, and allocates one that is not. -/
theorem bmap_ok (h : Owned fs D) (hd : (fs.itable ip).d = D i) (ht : (D i).type ≠ 0) {bn : Nat} (hbn : bn < maxfile)
    (hroom : Room fs (D i) L (fs.missing (D i) bn)) :
    ∃ fs' d' L', Gives (fs.bmap ip bn) (fs'.fileBlock d' bn, fs') L' ∧ Found fs D ip i bn L fs' d' L' := by
  by_cases hlt : bn < ndirect
  · exact bmap_direct h hd ht hlt hroom
  · obtain ⟨m, rfl⟩ : ∃ m, bn = ndirect + m := ⟨bn - ndirect, by omega⟩
    have hm : m < nindirect := by
      unfold maxfile at hbn
      omega
    by_cases hind : (D i).addrs ndirect = 0
    · exact bmap_indirect h hd ht hm hind hroom
    · obtain ⟨fs', L', hmap, hfound⟩ := bmap_entry h hd ht hm hind hroom
      exact ⟨fs', D i, L', hmap, hfound⟩

end Fs

end FogOS.Kernel
