import Mathlib.Algebra.BigOperators.Group.Finset.Basic
import Mathlib.Data.List.GetD
import FogOS.Mkfs.Image

/-!
# What mkfs lays out

The blocks of an image that `mkfs` is writing: those below `freeblock` have one owner each, and the
others are zero. Appending to an inode extends its contents and leaves the other inodes alone.
-/

namespace FogOS.Mkfs

open Kernel ByteMem Placement

namespace Image

/-- The image with the bitmap that `balloc` is going to write. -/
def marked (img : Image) : Fs :=
  { img.fs with bitmap := fun b => decide (b < img.freeblock) }

/-- The marked image, as the kernel sees it when it has the inode `din` in memory. -/
def view (img : Image) (din : Dinode) : Fs :=
  { img.marked with itable := fun _ => ⟨0, 0, 0, false, 0, false, din⟩ }

/-- The blocks in use have one owner each and hold the contents `F` of the inodes `D`, with zeros
after the end; the other blocks are zero. -/
structure Core (img : Image) (D : Nat → Dinode) (F : Nat → List UInt8) : Prop where
  sb : img.fs.sb = superblock
  owned : Fs.Owned img.marked D
  fresh : ∀ b, img.freeblock ≤ b → img.fs.block b = fun _ => 0
  holds : ∀ i bn x, x < bsize → img.fs.loc D (i, Fs.slotOf bn) ≠ 0 →
    img.fs.block (img.fs.loc D (i, Fs.slotOf bn)) x = (F i).getD (bn * bsize + x) 0

section Core

variable {img : Image} {D : Nat → Dinode} {F : Nat → List UInt8} {i k m : Nat}

lemma loc_congr {fs fs' : Fs} (h : fs'.block = fs.block) (D : Nat → Dinode) :
    fs'.loc D = fs.loc D := by
  funext s
  unfold Fs.loc
  split
  · rfl
  · exact Fs.slot_congr (fun _ _ => rfl) fun _ => by rw [h]

/-- The next block is nobody's. -/
lemma Core.free (h : Core img D F) (hroom : img.freeblock < fssize) :
    img.freeblock < img.marked.sb.size ∧ img.marked.bitmap img.freeblock = false := by
  refine ⟨?_, by simp [marked]⟩
  rw [show img.marked.sb = img.fs.sb from rfl, h.sb]
  exact hroom

/-- A block that is taken was zero already. -/
lemma Core.take_block (h : Core img D F) :
    Function.update img.fs.block img.freeblock (fun _ => 0) = img.fs.block := by
  funext b
  by_cases hb : b = img.freeblock
  · rw [hb]
    exact (Function.update_self _ _ _).trans (h.fresh _ le_rfl).symm
  · exact Function.update_of_ne hb _ _

lemma marked_bump (img : Image) :
    img.bump.marked.bitmap = Function.update img.marked.bitmap img.freeblock true := by
  funext b
  by_cases hb : b = img.freeblock
  · rw [hb, Function.update_self]
    simp [marked, bump]
  · rw [Function.update_of_ne hb]
    exact decide_eq_decide.mpr (show b < img.freeblock + 1 ↔ b < img.freeblock by omega)

/-- The contents that are held, after a slot has got a block of zeros. -/
lemma Core.holds_attach (h : Core img D F) {img' : Image} {D' : Nat → Dinode}
    (hloc : img'.fs.loc D' = Function.update (img.fs.loc D) (i, k) img.freeblock)
    (hslot : img.fs.loc D (i, k) = 0)
    (hkept : ∀ s, s.2 ≠ ndirect → img.fs.loc D s ≠ 0 →
      img'.fs.block (img.fs.loc D s) = img.fs.block (img.fs.loc D s))
    (hzero : k ≠ ndirect → img'.fs.block img.freeblock = fun _ => 0)
    (hend : ∀ bn, k = Fs.slotOf bn → (F i).length ≤ bn * bsize) :
    ∀ j bn x, x < bsize → img'.fs.loc D' (j, Fs.slotOf bn) ≠ 0 →
      img'.fs.block (img'.fs.loc D' (j, Fs.slotOf bn)) x = (F j).getD (bn * bsize + x) 0 := by
  intro j bn x hx hne
  rw [hloc] at hne ⊢
  by_cases hs : (j, Fs.slotOf bn) = (i, k)
  · obtain ⟨rfl, hk⟩ := Prod.mk.inj hs
    rw [hs, Function.update_self, hzero fun hi => Fs.slotOf_ne bn (hk.trans hi)]
    have hle := hend bn hk.symm
    exact (List.getD_eq_default (F j) 0 (by omega)).symm
  · rw [Function.update_of_ne hs] at hne ⊢
    rw [hkept _ (Fs.slotOf_ne bn) hne]
    exact h.holds j bn x hx hne

/-- An inode lists the next block itself. -/
lemma Core.direct (h : Core img D F) (ht : (D i).type ≠ 0) (hk : k ≤ ndirect)
    (hnone : (D i).addrs k = 0) (hroom : img.freeblock < fssize)
    (hend : k < ndirect → (F i).length ≤ k * bsize) :
    Core img.bump (Function.update D i (Fs.withAddr (D i) k img.freeblock)) F ∧
      img.fs.loc (Function.update D i (Fs.withAddr (D i) k img.freeblock)) =
        Function.update (img.fs.loc D) (i, k) img.freeblock := by
  obtain ⟨hb, hfree⟩ := h.free hroom
  have howned : Fs.Owned (img.view (D i)) D :=
    h.owned.congr rfl rfl (loc_congr rfl D)
  obtain ⟨hext, hloc⟩ := 
    @Fs.Owned.attach_direct _ ⟨0, by decide⟩ _ _ _ _ howned rfl ht hk hnone hb hfree []
  have hblock : img.fs.block =
      ((((img.view (D i)).take img.freeblock).logged []).setAddr ⟨0, by decide⟩ k img.freeblock).block :=
    h.take_block.symm
  have hloc' : img.fs.loc (Function.update D i (Fs.withAddr (D i) k img.freeblock)) =
      Function.update (img.fs.loc D) (i, k) img.freeblock := by
    rw [loc_congr hblock, hloc]
    rfl
  have hslot : img.fs.loc D (i, k) = 0 := by rw [Fs.loc_of_type ht, Fs.slot_direct hk, hnone]
  refine ⟨⟨h.sb, ?_, fun b hle => h.fresh b (Nat.le_of_succ_le hle), ?_⟩, hloc'⟩
  · exact hext.owned.congr rfl (marked_bump img) (loc_congr hblock _)
  · refine h.holds_attach hloc' hslot (fun _ _ _ => rfl) (fun _ => h.fresh _ le_rfl) ?_
    rintro bn rfl
    have hbn := Fs.slotOf_ne bn
    unfold Fs.slotOf at hk hbn hend
    split at hend
    · exact hend ‹_›
    · rw [if_neg ‹_›] at hk hbn
      omega

/-- A block that is listed is in use. -/
lemma Core.loc_lt (h : Core img D F) {s : Nat × Nat} (hs : img.fs.loc D s ≠ 0) :
    img.fs.loc D s < img.freeblock := of_decide_eq_true (h.owned.placed.used_of_loc hs)

lemma Core.indirect_lt (h : Core img D F) (ht : (D i).type ≠ 0) (hind : (D i).addrs ndirect ≠ 0) :
    (D i).addrs ndirect < img.freeblock := by
  have hself : img.fs.loc D (i, ndirect) = (D i).addrs ndirect := by
    rw [Fs.loc_of_type ht, Fs.slot_direct le_rfl]
  rw [← hself] at hind ⊢
  exact h.loc_lt hind

/-- The indirect block of an inode lists the next block. -/
lemma Core.indirect (h : Core img D F) (ht : (D i).type ≠ 0) (hind : (D i).addrs ndirect ≠ 0)
    (hm : m < nindirect) (hnone : img.fs.indirect ((D i).addrs ndirect) m = 0)
    (hroom : img.freeblock < fssize) (hend : (F i).length ≤ (ndirect + m) * bsize) :
    Core { img with fs := img.fs.setIndirect ((D i).addrs ndirect) m img.freeblock }.bump D F ∧
      (img.fs.setIndirect ((D i).addrs ndirect) m img.freeblock).loc D =
        Function.update (img.fs.loc D) (i, ndirect + 1 + m) img.freeblock := by
  obtain ⟨hb, hfree⟩ := h.free hroom
  have howned : Fs.Owned (img.view (D i)) D :=
    h.owned.congr rfl rfl (loc_congr rfl D)
  obtain ⟨hext, hloc⟩ :=
    @Fs.Owned.attach_indirect _ ⟨0, by decide⟩ _ _ _ howned rfl ht hind _ hm hnone hb hfree [] []
  obtain ⟨ind, hi⟩ : ∃ ind, (D i).addrs ndirect = ind := ⟨_, rfl⟩
  rw [hi] at hext hloc ⊢
  have hblock : (img.fs.setIndirect ind m img.freeblock).block =
      ((((img.view (D i)).take img.freeblock).logged []).setIndirect ind m img.freeblock).block := by
    unfold Fs.setIndirect
    have htake : (((img.view (D i)).take img.freeblock).logged []).block = img.fs.block := h.take_block
    simp only [htake]
  have hloc' : (img.fs.setIndirect ind m img.freeblock).loc D =
      Function.update (img.fs.loc D) (i, ndirect + 1 + m) img.freeblock := by
    rw [loc_congr hblock]
    exact hloc
  have hslot : img.fs.loc D (i, ndirect + 1 + m) = 0 := by
    rw [Fs.loc_of_type ht, Fs.slot_indirect hind hm, hnone]
  have hlt : ind < img.freeblock := by
    rw [← hi]
    exact h.indirect_lt ht hind
  have hother : ∀ b, b ≠ ind → (img.fs.setIndirect ind m img.freeblock).block b = img.fs.block b :=
    fun b hne => Function.update_of_ne hne _ _
  refine ⟨⟨h.sb, ?_, fun b hle => ?_, ?_⟩, hloc'⟩
  · have howned' := hext.owned
    rw [Function.update_eq_self] at howned'
    exact howned'.congr rfl (marked_bump img) (loc_congr hblock D)
  · have hle' : img.freeblock + 1 ≤ b := hle
    exact (hother b (by omega)).trans (h.fresh b (by omega))
  · refine h.holds_attach hloc' hslot (fun s hs hne => ?_) (fun _ => ?_) fun bn hbn => ?_
    · refine hother _ fun heq => hs ?_
      have hself : img.fs.loc D (i, ndirect) = ind := by
        rw [Fs.loc_of_type ht, Fs.slot_direct le_rfl, hi]
      rw [h.owned.placed.inj s (i, ndirect) hne (heq.trans hself.symm)]
    · exact (hother _ hlt.ne').trans (h.fresh _ le_rfl)
    · unfold Fs.slotOf at hbn
      split at hbn
      · omega
      · obtain rfl : bn = ndirect + m := by omega
        exact hend

/-- Bytes of a text to which a piece has been appended. -/
lemma getD_append (l piece : List UInt8) (y : Nat) :
    (l ++ piece).getD y 0 =
      if l.length ≤ y ∧ y < l.length + piece.length then piece.getD (y - l.length) 0
      else l.getD y 0 := by
  by_cases hlt : y < l.length
  · rw [if_neg (by omega), List.getD_append _ _ _ _ hlt]
  · rw [List.getD_append_right _ _ _ _ (by omega)]
    split
    · rfl
    · rw [List.getD_eq_default _ _ (by omega), List.getD_eq_default _ _ (by omega)]

/-- A piece is appended to the last block of an inode. -/
lemma Core.write (h : Core img D F) (ht : (D i).type ≠ 0) {bn : Nat} {piece : List UInt8}
    (hne : img.fs.loc D (i, Fs.slotOf bn) ≠ 0) (hbn : (F i).length / bsize = bn)
    (hfit : (F i).length % bsize + piece.length ≤ bsize) {img' : Image}
    (himg : img' = img.wsect (img.fs.loc D (i, Fs.slotOf bn)) (bcopy piece
      (img.fs.block (img.fs.loc D (i, Fs.slotOf bn))) ((F i).length % bsize) piece.length)) :
    Core img' D (Function.update F i (F i ++ piece)) ∧ img'.fs.loc D = img.fs.loc D := by
  obtain ⟨x, hx⟩ : ∃ x, img.fs.loc D (i, Fs.slotOf bn) = x := ⟨_, rfl⟩
  have hfile : img.fs.fileBlock (D i) bn = x := by
    rw [← hx, Fs.loc_of_type ht]
    rfl
  rw [hx] at himg hne
  have hother : ∀ c, c ≠ x → img'.fs.block c = img.fs.block c := by
    intro c hc
    rw [himg]
    exact Function.update_of_ne hc _ _
  have hself : img'.fs.block x = bcopy piece (img.fs.block x) ((F i).length % bsize) piece.length := by
    rw [himg]
    exact Function.update_self _ _ _
  have hloc : img'.fs.loc D = img.fs.loc D := by
    funext s
    by_cases hs : (D s.1).type = 0
    · rw [Fs.loc, Fs.loc, if_pos hs, if_pos hs]
    · rw [Fs.loc, Fs.loc, if_neg hs, if_neg hs]
      refine @Fs.Owned.slot_write img.marked img'.fs _ _ h.owned ht bn (fun c hc => hother c ?_) _ hs s.2
      rwa [← hfile]
  have hlt : x < img.freeblock := by
    rw [← hx]
    exact h.loc_lt (by rwa [hx])
  refine ⟨⟨?_, ?_, fun b hle => ?_, fun j bn' y hy hne' => ?_⟩, hloc⟩
  · rw [himg]
    exact h.sb
  · refine h.owned.congr (by rw [himg]; rfl) (by rw [himg]; rfl) ?_
    exact (loc_congr rfl D).trans (hloc.trans (loc_congr rfl D))
  · have hfree : img'.freeblock = img.freeblock := by rw [himg]; rfl
    rw [hother b (by omega)]
    exact h.fresh b (by omega)
  · rw [hloc] at hne' ⊢
    have hold := h.holds j bn' y hy hne'
    by_cases hsame : img.fs.loc D (j, Fs.slotOf bn') = x
    · have hpair := h.owned.placed.inj _ _ hne' (hsame.trans hx.symm)
      obtain ⟨rfl, hslot⟩ := Prod.mk.inj hpair
      obtain rfl := Fs.slotOf_inj hslot
      rw [hsame] at hold ⊢
      rw [hself, Function.update_self, getD_append, ← hold, bcopy]
      have hdecomp := Nat.div_add_mod' (F j).length bsize
      rw [hbn] at hdecomp
      by_cases hin : (F j).length % bsize ≤ y ∧ y < (F j).length % bsize + piece.length
      · rw [if_pos hin, if_pos (by omega)]
        congr 1
        omega
      · rw [if_neg hin, if_neg (by omega)]
    · rw [hother _ hsame, hold]
      by_cases hj : j = i
      · subst hj
        have hbn' : bn' ≠ bn := by
          rintro rfl
          exact hsame hx
        rw [Function.update_self, getD_append, if_neg]
        have hdecomp := Nat.div_add_mod' (F j).length bsize
        rw [hbn] at hdecomp
        have hstep : bn' + 1 ≤ bn ∨ bn + 1 ≤ bn' := by omega
        rcases hstep with hle | hle
        · have := Nat.mul_le_mul_right bsize hle
          rw [Nat.add_mul] at this
          omega
        · have := Nat.mul_le_mul_right bsize hle
          rw [Nat.add_mul] at this
          omega
      · rw [Function.update_of_ne hj]

end Core

/-! ### Slots and their number -/

/-- Where in a file what a slot is for begins. -/
def start (k : Nat) : Nat := (if k ≤ ndirect then k else k - 1) * bsize

/-- The blocks of a file of `n` bytes, with its indirect block. -/
def cost (n : Nat) : Nat := (n + (bsize - 1)) / bsize + if ndirect * bsize < n then 1 else 0

/-- The slots of each inode are those for its first `N` bytes, and `freeblock` counts them. -/
structure Laid (img : Image) (D : Nat → Dinode) (N : Nat → Nat) (F : Nat → List UInt8) : Prop
    extends Core img D F where
  slots : ∀ i k, img.fs.loc D (i, k) ≠ 0 ↔ start k < N i
  count : img.freeblock = nmeta + ∑ j ∈ Finset.range img.freeinode, cost (N j)

lemma start_slotOf (bn : Nat) : start (Fs.slotOf bn) = bn * bsize := by
  unfold start Fs.slotOf
  split
  · rw [if_pos (by omega)]
  · rw [if_neg (by omega), Nat.add_sub_cancel]

/-- The slots that a file needs from its `bn`-th block on. -/
lemma start_eq_iff {k bn : Nat} :
    start k = bn * bsize ↔ k = Fs.slotOf bn ∨ (k = ndirect ∧ bn = ndirect) := by
  have hmul : ∀ a : Nat, a * bsize = bn * bsize ↔ a = bn := fun a =>
    Nat.mul_left_inj (by decide)
  unfold start Fs.slotOf
  rw [hmul]
  split <;> split <;> omega

lemma cost_mid {n : Nat} (h : n % bsize ≠ 0) : cost (n + 1) = cost n := by
  unfold cost ndirect bsize at *
  split <;> split <;> omega

lemma cost_next {n : Nat} (h : n % bsize = 0) :
    cost (n + 1) = cost n + 1 + if n = ndirect * bsize then 1 else 0 := by
  unfold cost ndirect bsize at *
  split <;> split <;> split <;> omega

/-- As long as the block is the same, so are the blocks that are needed. -/
lemma cost_within {n m : Nat} (hm : 0 < m) (h : n % bsize + m ≤ bsize) : cost (n + m) = cost (n + 1) := by
  unfold cost ndirect bsize at *
  split <;> split <;> omega

lemma start_lt_within {n m k : Nat} (hm : 0 < m) (h : n % bsize + m ≤ bsize) :
    start k < n + m ↔ start k < n + 1 := by
  unfold start bsize at *
  omega

lemma cost_mono {n m : Nat} (h : n ≤ m) : cost n ≤ cost m := by
  unfold cost ndirect bsize at *
  split <;> split <;> omega

section Slots

variable {img : Image} {D : Nat → Dinode} {F : Nat → List UInt8} {N : Nat → Nat} {i : Nat}

lemma sum_update {n v : Nat} (hi : i < n) :
    ∑ j ∈ Finset.range n, cost (Function.update N i v j) + cost (N i) =
      ∑ j ∈ Finset.range n, cost (N j) + cost v := by
  have hmem : i ∈ Finset.range n := Finset.mem_range.mpr hi
  rw [← Finset.add_sum_erase _ _ hmem, ← Finset.add_sum_erase _ (fun j => cost (N j)) hmem,
    Function.update_self]
  have hrest : ∑ j ∈ (Finset.range n).erase i, cost (Function.update N i v j) =
      ∑ j ∈ (Finset.range n).erase i, cost (N j) := by
    refine Finset.sum_congr rfl fun j hj => ?_
    rw [Function.update_of_ne (Finset.ne_of_mem_erase hj)]
  rw [hrest]
  omega

/-- An inode has got the slots that begin at `off`. -/
lemma Laid.extend (h : Laid img D N F) (hi : i < img.freeinode) {img' : Image} {D' : Nat → Dinode}
    (hcore : Core img' D' F) (hinode : img'.freeinode = img.freeinode)
    (hother : ∀ j k, j ≠ i → img'.fs.loc D' (j, k) = img.fs.loc D (j, k))
    (hslots : ∀ k, img'.fs.loc D' (i, k) ≠ 0 ↔ img.fs.loc D (i, k) ≠ 0 ∨ start k = N i)
    (hfree : img'.freeblock + cost (N i) = img.freeblock + cost (N i + 1)) :
    Laid img' D' (Function.update N i (N i + 1)) F := by
  refine ⟨hcore, fun j k => ?_, ?_⟩
  · by_cases hj : j = i
    · subst hj
      rw [hslots, h.slots, Function.update_self]
      omega
    · rw [hother j k hj, h.slots, Function.update_of_ne hj]
  · have hsum := @sum_update N i _ (N i + 1) hi
    rw [hinode]
    have hcount := h.count
    omega

/-- The slots of the block `bn`, which begins where the file ends, are empty. -/
lemma Laid.slot_empty (h : Laid img D N F) {bn k : Nat} (hN : N i = bn * bsize)
    (hk : start k = bn * bsize) : img.fs.loc D (i, k) = 0 := by
  by_contra hne
  have := (h.slots i k).mp hne
  omega

/-- The file ends inside a block, which is there. -/
lemma Laid.blockFor_mid (h : Laid img D N F) (ht : (D i).type ≠ 0) {bn : Nat}
    (hbn : bn < Fs.maxfile) (hlt : bn * bsize < N i) (hsize : img.freeblock ≤ fssize) :
    img.blockFor (D i) bn = .ok (img.fs.loc D (i, Fs.slotOf bn), D i, img) := by
  have hne := (h.slots i (Fs.slotOf bn)).mpr (by rwa [start_slotOf])
  rw [Image.blockFor]
  by_cases hdir : bn < ndirect
  · have hslot : img.fs.loc D (i, Fs.slotOf bn) = (D i).addrs bn := by
      rw [Fs.loc_of_type ht, Fs.slotOf, if_pos hdir, Fs.slot_direct hdir.le]
    rw [hslot] at hne ⊢
    rw [if_pos hdir, if_neg hne]
    rfl
  · have hind : (D i).addrs ndirect ≠ 0 := by
      have hslot := (h.slots i ndirect).mpr (by
        have := Nat.mul_le_mul_right bsize (not_lt.mp hdir)
        unfold start
        rw [if_pos le_rfl]
        omega)
      rwa [Fs.loc_of_type ht, Fs.slot_direct le_rfl] at hslot
    have hslot : img.fs.loc D (i, Fs.slotOf bn) = img.fs.indirect ((D i).addrs ndirect) (bn - ndirect) := by
      rw [Fs.loc_of_type ht, Fs.slotOf, if_neg hdir,
        show bn + 1 = ndirect + 1 + (bn - ndirect) by omega,
        Fs.slot_indirect hind (by unfold Fs.maxfile at hbn; omega)]
    have hlt := h.indirect_lt ht hind
    rw [hslot] at hne ⊢
    rw [if_neg hdir, Image.indirectFor, if_neg hind]
    simp only [if_pos (show (D i).addrs ndirect < fssize by omega), if_neg hne]
    rfl

/-- What finding a block leaves: the block, the inode and the image. -/
structure Reserved (img : Image) (D : Nat → Dinode) (N : Nat → Nat) (F : Nat → List UInt8)
    (i bn x : Nat) (d : Dinode) (img' : Image) : Prop where
  laid : Laid img' (Function.update D i d) (Function.update N i (N i + 1)) F
  block : img'.fs.loc (Function.update D i d) (i, Fs.slotOf bn) = x
  dinode : img'.fs.dinode = img.fs.dinode
  freeinode : img'.freeinode = img.freeinode
  type : d.type = (D i).type
  nlink : d.nlink = (D i).nlink

/-- The file ends where a block begins that the inode is to list itself. -/
lemma Laid.blockFor_direct (h : Laid img D N F) (ht : (D i).type ≠ 0) (hi : i < img.freeinode)
    {bn : Nat} (hbn : bn < ndirect) (hN : N i = bn * bsize) (hF : (F i).length = N i)
    (hroom : img.freeblock < fssize) :
    ∃ x d img', img.blockFor (D i) bn = .ok (x, d, img') ∧ Reserved img D N F i bn x d img' := by
  have hslot : Fs.slotOf bn = bn := if_pos hbn
  have hnone : (D i).addrs bn = 0 := by
    have hempty := h.slot_empty hN (start_slotOf bn)
    rwa [hslot, Fs.loc_of_type ht, Fs.slot_direct hbn.le] at hempty
  obtain ⟨hcore, hloc⟩ := h.toCore.direct ht hbn.le hnone hroom fun _ => (hF.trans hN).le
  refine ⟨img.freeblock, Fs.withAddr (D i) bn img.freeblock, img.bump, ?_, ?_, ?_, rfl, rfl, rfl, rfl⟩
  · rw [Image.blockFor, if_pos hbn, if_pos hnone]
    rfl
  · refine h.extend hi hcore rfl (fun j k hj => ?_) (fun k => ?_) ?_
    · refine (congrFun hloc (j, k)).trans (Function.update_of_ne ?_ _ _)
      exact fun he => hj (Prod.mk.inj he).1
    · change img.fs.loc _ (i, k) ≠ 0 ↔ _
      rw [hloc, hN, start_eq_iff, hslot]
      by_cases hk : k = bn
      · rw [hk, Function.update_self]
        have hpos : img.freeblock ≠ 0 := by
          rw [h.count]
          exact Nat.ne_of_gt (Nat.add_pos_left (by decide) _)
        simp [hpos]
      · rw [Function.update_of_ne fun he => hk (Prod.mk.inj he).2]
        simp [hk, hbn.ne]
    · have hcost := cost_next (n := N i) (by rw [hN]; exact Nat.mul_mod_left bn bsize)
      rw [if_neg] at hcost
      · rw [hcost]
        change img.freeblock + 1 + _ = _
        omega
      · rw [hN]
        unfold bsize
        omega
  · change img.fs.loc _ _ = _
    rw [hloc, hslot, Function.update_self]

/-- The indirect block is there, or it gets the next block. -/
lemma Laid.indirectFor (h : Laid img D N F) (ht : (D i).type ≠ 0) {bn : Nat} (hbn : ndirect ≤ bn)
    (hN : N i = bn * bsize) (hroom : img.freeblock < fssize) :
    ∃ d img', img.indirectFor (D i) = (d, img') ∧ Core img' (Function.update D i d) F ∧
      d.addrs ndirect ≠ 0 ∧
      (∀ s, s ≠ (i, ndirect) → img'.fs.loc (Function.update D i d) s = img.fs.loc D s) ∧
      img'.freeblock = img.freeblock + (if bn = ndirect then 1 else 0) ∧
      img'.fs.dinode = img.fs.dinode ∧ img'.freeinode = img.freeinode ∧
      d.type = (D i).type ∧ d.nlink = (D i).nlink := by
  have hself : img.fs.loc D (i, ndirect) = (D i).addrs ndirect := by
    rw [Fs.loc_of_type ht, Fs.slot_direct le_rfl]
  have hstart : start ndirect = ndirect * bsize := by rw [start, if_pos le_rfl]
  by_cases heq : bn = ndirect
  · have hnone : (D i).addrs ndirect = 0 := by
      rw [← hself]
      exact h.slot_empty hN (by rw [hstart, heq])
    obtain ⟨hcore, hloc⟩ := h.toCore.direct ht le_rfl hnone hroom fun hlt => absurd hlt (lt_irrefl _)
    refine ⟨_, _, if_pos hnone, hcore, ?_, fun s hs => ?_, ?_, rfl, rfl, rfl, rfl⟩
    · rw [Fs.withAddr_self, h.count]
      exact Nat.ne_of_gt (Nat.add_pos_left (by decide) _)
    · exact (congrFun hloc s).trans (Function.update_of_ne hs _ _)
    · rw [if_pos heq]
      rfl
  · have hsome : (D i).addrs ndirect ≠ 0 := by
      rw [← hself]
      refine (h.slots i ndirect).mpr ?_
      rw [hstart, hN]
      exact Nat.mul_lt_mul_of_pos_right (by omega) (by decide)
    refine ⟨_, _, if_neg hsome, ?_, hsome, fun s _ => ?_, ?_, rfl, rfl, rfl, rfl⟩
    · rw [Function.update_eq_self]
      exact h.toCore
    · rw [Function.update_eq_self]
    · rw [if_neg heq, Nat.add_zero]

/-- The file ends where a block begins that the indirect block is to list. -/
lemma Laid.blockFor_indirect (h : Laid img D N F) (ht : (D i).type ≠ 0) (hi : i < img.freeinode)
    {bn : Nat} (hbn : ndirect ≤ bn) (hmax : bn < Fs.maxfile) (hN : N i = bn * bsize)
    (hF : (F i).length = N i) (hroom : img.freeblock + (if bn = ndirect then 1 else 0) < fssize) :
    ∃ x d img', img.blockFor (D i) bn = .ok (x, d, img') ∧ Reserved img D N F i bn x d img' := by
  obtain ⟨d, img₁, hrun, hcore₁, hind, hloc₁, hfree₁, hdinode, hinode, htype, hnlink⟩ :=
    h.indirectFor ht hbn hN (by omega)
  obtain ⟨m, rfl⟩ := Nat.exists_eq_add_of_le hbn
  have hm : m < nindirect := by
    unfold Fs.maxfile at hmax
    omega
  have hslot : Fs.slotOf (ndirect + m) = ndirect + 1 + m := by
    unfold Fs.slotOf
    rw [if_neg (by omega)]
    omega
  obtain ⟨D₁, hD₁⟩ : ∃ D₁, Function.update D i d = D₁ := ⟨_, rfl⟩
  have hd : D₁ i = d := by rw [← hD₁, Function.update_self]
  have ht₁ : (D₁ i).type ≠ 0 := by rwa [hd, htype]
  rw [hD₁] at hcore₁ hloc₁
  rw [← hd] at hind
  have hne : (i, ndirect + 1 + m) ≠ (i, ndirect) := fun he => by
    have := (Prod.mk.inj he).2
    omega
  have hnone : img₁.fs.indirect ((D₁ i).addrs ndirect) m = 0 := by
    have hempty := h.slot_empty hN (start_slotOf (ndirect + m))
    rw [hslot, ← hloc₁ _ hne, Fs.loc_of_type ht₁, Fs.slot_indirect hind hm] at hempty
    exact hempty
  obtain ⟨hcore, hloc⟩ := hcore₁.indirect ht₁ hind hm hnone (by omega) (hF.trans hN).le
  have hlt := hcore₁.indirect_lt ht₁ hind
  refine ⟨img₁.freeblock, d,
    { img₁ with fs := img₁.fs.setIndirect ((D₁ i).addrs ndirect) m img₁.freeblock }.bump,
    ?_, ?_, ?_, hdinode, hinode, htype, hnlink⟩
  · rw [Image.blockFor, if_neg (by omega), hrun, ← hd]
    simp only [if_pos (show (D₁ i).addrs ndirect < fssize by omega), Nat.add_sub_cancel_left, hnone,
      if_true]
    rfl
  · rw [hD₁]
    refine h.extend hi hcore hinode (fun j k hj => ?_) (fun k => ?_) ?_
    · refine (congrFun hloc (j, k)).trans ?_
      rw [Function.update_of_ne fun he => hj (Prod.mk.inj he).1]
      exact hloc₁ _ fun he => hj (Prod.mk.inj he).1
    · change (img₁.fs.setIndirect _ _ _).loc D₁ (i, k) ≠ 0 ↔ _
      rw [hloc, hN, start_eq_iff, hslot]
      by_cases hk : k = ndirect + 1 + m
      · rw [hk, Function.update_self]
        have hpos : img₁.freeblock ≠ 0 := by omega
        simp [hpos]
      · rw [Function.update_of_ne fun he => hk (Prod.mk.inj he).2]
        by_cases hki : k = ndirect
        · subst hki
          rw [Fs.loc_of_type ht₁, Fs.slot_direct le_rfl]
          refine iff_of_true hind ?_
          by_cases hm0 : m = 0
          · exact Or.inr (Or.inr ⟨rfl, by omega⟩)
          · refine Or.inl ((h.slots i ndirect).mpr ?_)
            rw [start, if_pos le_rfl, hN]
            exact Nat.mul_lt_mul_of_pos_right (by omega) (by decide)
        · rw [hloc₁ _ fun he => hki (Prod.mk.inj he).2]
          simp [hk, hki]
    · have hcost := cost_next (n := N i) (by rw [hN]; exact Nat.mul_mod_left _ bsize)
      have hiff : N i = ndirect * bsize ↔ ndirect + m = ndirect := by
        rw [hN]
        exact Nat.mul_left_inj (by decide)
      simp only [hiff] at hcost
      rw [hcost]
      change img₁.freeblock + 1 + _ = _
      omega
  · rw [hD₁]
    change (img₁.fs.setIndirect _ _ _).loc D₁ _ = _
    rw [hloc, hslot, Function.update_self]

/-- The block for the next byte of a file. -/
lemma Laid.blockFor_ok (h : Laid img D N F) (ht : (D i).type ≠ 0) (hi : i < img.freeinode)
    (hF : (F i).length = N i) (hmax : N i / bsize < Fs.maxfile)
    (hroom : nmeta + ∑ j ∈ Finset.range img.freeinode, cost (Function.update N i (N i + 1) j) ≤
      fssize) :
    ∃ x d img', img.blockFor (D i) (N i / bsize) = .ok (x, d, img') ∧
      Reserved img D N F i (N i / bsize) x d img' := by
  have hsum := @sum_update N i _ (N i + 1) hi
  have hcount := h.count
  by_cases hmod : N i % bsize = 0
  · have hN : N i = N i / bsize * bsize := (Nat.div_mul_cancel (Nat.dvd_of_mod_eq_zero hmod)).symm
    have hcost := cost_next hmod
    by_cases hbn : N i / bsize < ndirect
    · exact h.blockFor_direct ht hi hbn hN hF (by omega)
    · refine h.blockFor_indirect ht hi (not_lt.mp hbn) hmax hN hF ?_
      have hiff : N i = ndirect * bsize ↔ N i / bsize = ndirect := by
        nth_rewrite 1 [hN]
        exact Nat.mul_left_inj (by decide)
      simp only [hiff] at hcost
      omega
  · have hcost := cost_mid hmod
    have hlt : N i / bsize * bsize < N i := by
      have := Nat.div_add_mod' (N i) bsize
      omega
    refine ⟨_, _, _, h.blockFor_mid ht hmax hlt (by omega), ?_, ?_, rfl, rfl, rfl, rfl⟩
    · rw [Function.update_eq_self]
      refine h.extend hi h.toCore rfl (fun _ _ _ => rfl) (fun k => ?_) (by omega)
      have hne : start k ≠ N i := by
        intro heq
        rw [← heq] at hmod
        exact hmod (Nat.mul_mod_left _ bsize)
      simp [hne]
    · rw [Function.update_eq_self]

/-- One round of `iappend`. -/
lemma Laid.round (h : Laid img D N F) (ht : (D i).type ≠ 0) (hi : i < img.freeinode)
    (hF : (F i).length = N i) (hmax : N i / bsize < Fs.maxfile) {p : List UInt8} (hp : p ≠ [])
    (hroom : nmeta + ∑ j ∈ Finset.range img.freeinode, cost (Function.update N i (N i + 1) j) ≤
      fssize) {n1 : Nat} (hn1 : n1 = min p.length ((N i / bsize + 1) * bsize - N i)) :
    ∃ x d img₁ buf img', img.blockFor (D i) (N i / bsize) = .ok (x, d, img₁) ∧
      img₁.rsect x = .ok buf ∧
      img₁.wsect x (bcopy p buf (N i - N i / bsize * bsize) n1) = img' ∧
      Laid img' (Function.update D i d) (Function.update N i (N i + n1))
        (Function.update F i (F i ++ p.take n1)) ∧
      img'.fs.dinode = img.fs.dinode ∧ img'.freeinode = img.freeinode ∧
      d.type = (D i).type ∧ d.nlink = (D i).nlink := by
  obtain ⟨x, d, img₁, hrun, hlaid, hblock, hdinode, hinode, htype, hnlink⟩ :=
    h.blockFor_ok ht hi hF hmax hroom
  have hdecomp := Nat.div_add_mod' (N i) bsize
  have hmod : N i % bsize < bsize := Nat.mod_lt _ (by decide)
  have hpos : 0 < p.length := List.length_pos_iff.mpr hp
  have hb : (N i / bsize + 1) * bsize - N i = bsize - N i % bsize := by
    rw [Nat.add_mul]
    omega
  have hpos1 : 0 < n1 := by omega
  have hfit : N i % bsize + n1 ≤ bsize := by omega
  have hlen : (p.take n1).length = n1 := by
    rw [List.length_take]
    omega
  have hne : img₁.fs.loc (Function.update D i d) (i, Fs.slotOf (N i / bsize)) ≠ 0 := by
    refine (hlaid.slots i _).mpr ?_
    rw [start_slotOf, Function.update_self]
    omega
  have hx : x < fssize := by
    have hlt := hlaid.toCore.loc_lt hne
    rw [hblock] at hlt
    have hcount := hlaid.count
    rw [hinode] at hcount
    omega
  refine ⟨x, d, img₁, img₁.fs.block x, _, hrun, if_pos hx, rfl, ?_, hdinode, hinode, htype, hnlink⟩
  have hcopy : bcopy p (img₁.fs.block x) (N i - N i / bsize * bsize) n1 =
      bcopy (p.take n1) (img₁.fs.block x) ((F i).length % bsize) (p.take n1).length := by
    rw [hlen, hF, show N i - N i / bsize * bsize = N i % bsize by omega]
    funext y
    unfold bcopy
    split
    · rw [List.getD_eq_getElem?_getD, List.getD_eq_getElem?_getD, List.getElem?_take_of_lt (by omega)]
    · rfl
  have htype' : (Function.update D i d i).type ≠ 0 := by
    rw [Function.update_self, htype]
    exact ht
  have hpiece : (F i).length % bsize + (p.take n1).length ≤ bsize := by rwa [hlen, hF]
  obtain ⟨hcore, hloc⟩ := hlaid.toCore.write htype' hne (by rw [hF]) hpiece rfl
  rw [hblock] at hcore hloc
  rw [hcopy]
  refine ⟨hcore, fun j k => ?_, ?_⟩
  · rw [hloc, hlaid.slots]
    by_cases hj : j = i
    · subst hj
      rw [Function.update_self, Function.update_self]
      exact (start_lt_within hpos1 hfit).symm
    · rw [Function.update_of_ne hj, Function.update_of_ne hj]
  · refine hlaid.count.trans ?_
    refine congrArg _ (Finset.sum_congr rfl fun j _ => ?_)
    by_cases hj : j = i
    · subst hj
      rw [Function.update_self, Function.update_self, cost_within hpos1 hfit]
    · rw [Function.update_of_ne hj, Function.update_of_ne hj]

/-- The inode and the image after `p` has been appended to the inode `i`. -/
structure Appended (img : Image) (D : Nat → Dinode) (N : Nat → Nat) (F : Nat → List UInt8) (i : Nat)
    (p : List UInt8) (d : Dinode) (img' : Image) : Prop where
  laid : Laid img' (Function.update D i d) (Function.update N i (N i + p.length))
    (Function.update F i (F i ++ p))
  dinode : img'.fs.dinode = img.fs.dinode
  freeinode : img'.freeinode = img.freeinode
  type : d.type = (D i).type
  nlink : d.nlink = (D i).nlink

lemma Laid.iappendLoop (h : Laid img D N F) (ht : (D i).type ≠ 0) (hi : i < img.freeinode)
    (hF : (F i).length = N i) {p : List UInt8} (hmax : N i + p.length ≤ Fs.maxfile * bsize)
    (hroom : nmeta + ∑ j ∈ Finset.range img.freeinode,
      cost (Function.update N i (N i + p.length) j) ≤ fssize) {fuel : Nat} (hfuel : p.length ≤ fuel) :
    ∃ d img', iappendLoop fuel img (D i) (N i) p = .ok (img', d, N i + p.length) ∧
      Appended img D N F i p d img' := by
  induction fuel generalizing img D N F p with
  | zero =>
    obtain rfl := List.length_eq_zero_iff.mp (Nat.le_zero.mp hfuel)
    refine ⟨D i, img, rfl, ?_, rfl, rfl, rfl, rfl⟩
    simpa using h
  | succ fuel ih =>
    rw [Mkfs.iappendLoop]
    by_cases hp : p = []
    · subst hp
      refine ⟨D i, img, if_pos rfl, ?_, rfl, rfl, rfl, rfl⟩
      simpa using h
    · have hpos : 0 < p.length := List.length_pos_iff.mpr hp
      have hbn : N i / bsize < Fs.maxfile :=
        (Nat.div_lt_iff_lt_mul (by decide)).mpr (by omega)
      obtain ⟨n1, hn1⟩ : ∃ n1, n1 = min p.length ((N i / bsize + 1) * bsize - N i) := ⟨_, rfl⟩
      have hpos1 : 0 < n1 := by
        have hdecomp := Nat.div_add_mod' (N i) bsize
        have hmod : N i % bsize < bsize := Nat.mod_lt _ (by decide)
        rw [Nat.add_mul] at hn1
        omega
      have hsum := @sum_update N i _ (N i + p.length) hi
      have hsum1 := @sum_update N i _ (N i + 1) hi
      have hmono : cost (N i + 1) ≤ cost (N i + p.length) := cost_mono (by omega)
      obtain ⟨x, d, img₁, buf, img₂, hblock, hread, hwrite, hlaid, hdinode, hinode, htype, hnlink⟩ :=
        h.round ht hi hF hbn hp (by omega) hn1
      rw [if_neg hp, if_neg (not_le.mpr hbn), hblock, ok_bind]
      simp only [hread, ok_bind]
      rw [← hn1, hwrite]
      have hself : Function.update D i d i = d := Function.update_self ..
      have hlen : (p.drop n1).length = p.length - n1 := List.length_drop
      have hsplit : n1 + (p.length - n1) = p.length := by omega
      have hlen1 : (p.take n1).length = n1 := by
        rw [List.length_take]
        omega
      obtain ⟨d', img', hrest, happ⟩ := @ih img₂ (Function.update D i d)
        (Function.update F i (F i ++ p.take n1)) (Function.update N i (N i + n1)) hlaid
        (by rw [hself, htype]; exact ht) (by rw [hinode]; exact hi)
        (by rw [Function.update_self, Function.update_self, List.length_append, hlen1, hF])
        (p.drop n1) (by rw [Function.update_self, hlen]; omega)
        (by rw [Function.update_self, Function.update_idem, hlen, Nat.add_assoc, hsplit, hinode]; exact hroom)
        (by omega)
      rw [hself, Function.update_self, hlen, Nat.add_assoc, hsplit] at hrest
      obtain ⟨hlaid', hdinode', hinode', htype', hnlink'⟩ := happ
      rw [Function.update_self, Function.update_idem, Function.update_idem, Function.update_idem,
        Function.update_self, hlen, Nat.add_assoc, hsplit, List.append_assoc,
        List.take_append_drop] at hlaid'
      rw [hself] at htype' hnlink'
      exact ⟨d', img', hrest, hlaid', hdinode'.trans hdinode, hinode'.trans hinode,
        htype'.trans htype, hnlink'.trans hnlink⟩

end Slots

/-! ### Whole inodes -/

/-- The type of an inode. -/
def typeOf (n i : Nat) : Int :=
  if 1 ≤ i ∧ i < n then if i = rootino then tDir else tFile else 0

/-- An image between two calls: the inodes are on the disk, with the contents `F`. -/
structure Built (img : Image) (F : Nat → List UInt8) : Prop where
  laid : Laid img img.fs.dinode (fun i => (F i).length) F
  sizes : ∀ i, (img.fs.dinode i).size = (F i).length
  types : ∀ i, (img.fs.dinode i).type = typeOf img.freeinode i
  pos : 1 ≤ img.freeinode

/-- The blocks that the inodes have. -/
def total (img : Image) (F : Nat → List UInt8) : Nat :=
  ∑ j ∈ Finset.range img.freeinode, cost (F j).length

section Built

variable {img : Image} {F : Nat → List UInt8} {i : Nat}

lemma typeOf_ne_zero {n i : Nat} : typeOf n i ≠ 0 ↔ 1 ≤ i ∧ i < n := by
  unfold typeOf
  split
  · rename_i h
    refine iff_of_true ?_ h
    split <;> decide
  · rename_i h
    exact iff_of_false (fun hne => hne rfl) h

/-- An inode that is not in use is empty. -/
lemma Built.unused (h : Built img F) (hi : img.freeinode ≤ i) : F i = [] := by
  have hzero : img.fs.loc img.fs.dinode (i, 0) = 0 := by
    refine if_pos ?_
    rw [h.types]
    exact if_neg (by omega)
  have hslot := (h.laid.slots i 0).not.mp (not_not.mpr hzero)
  refine List.length_eq_zero_iff.mp ?_
  simpa [start] using hslot

lemma Built.ialloc (h : Built img F) (hroom : img.freeinode < ninodeblocks * ipb) {type : Int}
    (htype : type = if img.freeinode = rootino then tDir else tFile) :
    ∃ img', img.ialloc type = .ok (img.freeinode, img') ∧ Built img' F ∧
      img'.freeinode = img.freeinode + 1 ∧ img'.total F = img.total F := by
  have hempty := h.unused le_rfl
  have hloc : img.fs.loc (Function.update img.fs.dinode img.freeinode ⟨type, 1, 0, fun _ => 0⟩) =
      img.fs.loc img.fs.dinode := by
    funext ⟨j, k⟩
    by_cases hj : j = img.freeinode
    · have hzero : img.fs.loc img.fs.dinode (j, k) = 0 := by
        by_contra hne
        have := (h.laid.slots j k).mp hne
        rw [hj, hempty] at this
        exact absurd this (Nat.not_lt_zero _)
      rw [hzero, hj]
      unfold Fs.loc
      rw [Function.update_self]
      split
      · rfl
      · unfold Fs.slot
        split
        · rfl
        · exact if_neg (by simp)
    · unfold Fs.loc
      rw [Function.update_of_ne hj]
  have hsum : ∑ j ∈ Finset.range (img.freeinode + 1), cost (F j).length = img.total F := by
    rw [Finset.sum_range_succ, hempty]
    rfl
  refine ⟨{ img with
    freeinode := img.freeinode + 1
    fs := { img.fs with
      dinode := Function.update img.fs.dinode img.freeinode ⟨type, 1, 0, fun _ => 0⟩ } },
    ?_, ⟨⟨⟨h.laid.sb, ?_, h.laid.fresh, ?_⟩, ?_, ?_⟩, ?_, ?_, Nat.le_succ_of_le h.pos⟩, rfl, hsum⟩
  · rw [Image.ialloc, Image.winode, if_pos hroom]
    rfl
  · exact h.laid.owned.congr rfl rfl hloc
  · intro j bn x hx hne
    have hold := h.laid.holds j bn x hx
    rw [← hloc] at hold
    exact hold hne
  · intro j k
    have hold := h.laid.slots j k
    rw [← hloc] at hold
    exact hold
  · rw [hsum]
    exact h.laid.count
  · intro j
    change (Function.update img.fs.dinode img.freeinode _ j).size = _
    by_cases hj : j = img.freeinode
    · rw [hj, hempty, Function.update_self]
      rfl
    · rw [Function.update_of_ne hj]
      exact h.sizes j
  · intro j
    change (Function.update img.fs.dinode img.freeinode _ j).type = typeOf (img.freeinode + 1) j
    by_cases hj : j = img.freeinode
    · have hpos := h.pos
      rw [hj, Function.update_self]
      refine htype.trans (if_pos ?_).symm
      omega
    · rw [Function.update_of_ne hj, h.types j]
      unfold typeOf
      have hiff : (1 ≤ j ∧ j < img.freeinode + 1) ↔ 1 ≤ j ∧ j < img.freeinode := by omega
      simp only [hiff]

/-- The size does not matter for the blocks. -/
lemma loc_size (fs : Fs) (D : Nat → Dinode) (i n : Nat) (d : Dinode) :
    fs.loc (Function.update D i { d with size := n }) = fs.loc (Function.update D i d) := by
  funext ⟨j, k⟩
  unfold Fs.loc
  by_cases hj : j = i
  · rw [hj, Function.update_self, Function.update_self]
    rfl
  · rw [Function.update_of_ne hj, Function.update_of_ne hj]

lemma length_update (F : Nat → List UInt8) (i : Nat) (l : List UInt8) :
    (fun j => (Function.update F i l j).length) =
      Function.update (fun j => (F j).length) i l.length := by
  funext j
  by_cases hj : j = i
  · rw [hj, Function.update_self, Function.update_self]
  · rw [Function.update_of_ne hj, Function.update_of_ne hj]

lemma Built.iappend (h : Built img F) (hi : 1 ≤ i ∧ i < img.freeinode)
    (hin : i < ninodeblocks * ipb) {p : List UInt8}
    (hmax : (F i).length + p.length ≤ Fs.maxfile * bsize)
    (hroom : nmeta + img.total (Function.update F i (F i ++ p)) ≤ fssize) :
    ∃ img', img.iappend i p = .ok img' ∧ Built img' (Function.update F i (F i ++ p)) ∧
      img'.freeinode = img.freeinode := by
  have ht : (img.fs.dinode i).type ≠ 0 := by
    rw [h.types]
    exact typeOf_ne_zero.mpr hi
  have hlen := length_update F i (F i ++ p)
  rw [List.length_append] at hlen
  have hroom' : nmeta + ∑ j ∈ Finset.range img.freeinode,
      cost (Function.update (fun j => (F j).length) i ((F i).length + p.length) j) ≤ fssize := by
    rw [← hlen]
    exact hroom
  obtain ⟨d, img₁, hrun, hlaid, hdinode, hinode, htype, hnlink⟩ :=
    h.laid.iappendLoop ht hi.2 rfl hmax hroom' le_rfl
  rw [← hlen] at hlaid
  have hloc : img₁.fs.loc (Function.update img₁.fs.dinode i { d with size := (F i).length + p.length }) =
      img₁.fs.loc (Function.update img.fs.dinode i d) := by rw [loc_size, hdinode]
  refine ⟨{ img₁ with fs := { img₁.fs with
    dinode := Function.update img₁.fs.dinode i { d with size := (F i).length + p.length } } },
    ?_, ⟨⟨⟨hlaid.sb, ?_, hlaid.fresh, ?_⟩, ?_, hlaid.count⟩, ?_, ?_, ?_⟩, hinode⟩
  · rw [Image.iappend, h.sizes, hrun, ok_bind]
    exact if_pos hin
  · exact hlaid.owned.congr rfl rfl hloc
  · intro j bn x hx hne
    have hold := hlaid.holds j bn x hx
    rw [← hloc] at hold
    exact hold hne
  · intro j k
    have hold := hlaid.slots j k
    rw [← hloc] at hold
    exact hold
  · intro j
    change (Function.update img₁.fs.dinode i _ j).size = _
    by_cases hj : j = i
    · rw [hj, Function.update_self, Function.update_self, List.length_append]
    · rw [Function.update_of_ne hj, Function.update_of_ne hj, hdinode]
      exact h.sizes j
  · intro j
    change (Function.update img₁.fs.dinode i _ j).type = typeOf img₁.freeinode j
    rw [hinode]
    by_cases hj : j = i
    · rw [hj, Function.update_self, ← h.types i]
      exact htype
    · rw [Function.update_of_ne hj, hdinode]
      exact h.types j
  · exact hinode.symm ▸ h.pos

end Built

end Image

end FogOS.Mkfs
