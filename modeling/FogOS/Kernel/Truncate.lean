import FogOS.Kernel.Files

/-!
# Giving blocks back

`itrunc` and the part of `iput` that frees an inode: the blocks that the inode lists are free afterwards,
and those of others are as they were.
-/

namespace FogOS.Kernel

open ByteMem Placement

namespace Fs

variable {fs fs' : Fs} {ip : Fin ninode} {D : Nat → Dinode} {d : Dinode} {i b : Nat}
  {l : List Nat} {L : Finset Nat} {pid : Int}

/-! ### Lists of blocks -/

/-- The blocks of `l` are marked as free. -/
def drop (fs : Fs) (l : List Nat) : Fs :=
  { fs with bitmap := fun b => if b ≠ 0 ∧ b ∈ l then false else fs.bitmap b }

section

variable (fs : Fs) (l : List Nat)

@[simp] lemma drop_sb : (fs.drop l).sb = fs.sb := rfl
@[simp] lemma drop_dinode : (fs.drop l).dinode = fs.dinode := rfl
@[simp] lemma drop_block : (fs.drop l).block = fs.block := rfl
@[simp] lemma drop_itable : (fs.drop l).itable = fs.itable := rfl
@[simp] lemma drop_log : (fs.drop l).log = fs.log := rfl

end

lemma drop_bitmap (fs : Fs) (l : List Nat) (b : Nat) :
    (fs.drop l).bitmap b = if b ≠ 0 ∧ b ∈ l then false else fs.bitmap b := rfl

@[simp] lemma drop_nil (fs : Fs) : fs.drop [] = fs := by simp [drop]

lemma drop_append (fs : Fs) (l l' : List Nat) : (fs.drop l).drop l' = fs.drop (l ++ l') := by
  unfold drop
  congr 1
  funext b
  change (if b ≠ 0 ∧ b ∈ l' then false else if b ≠ 0 ∧ b ∈ l then false else fs.bitmap b) = _
  by_cases h : b ≠ 0 ∧ b ∈ l'
  · rw [if_pos h, if_pos ⟨h.1, List.mem_append_right l h.2⟩]
  · rw [if_neg h]
    by_cases h' : b ≠ 0 ∧ b ∈ l
    · rw [if_pos h', if_pos ⟨h'.1, List.mem_append_left l' h'.2⟩]
    · rw [if_neg h', if_neg]
      rintro ⟨h0, hmem⟩
      exact (List.mem_append.mp hmem).elim (fun hl => h' ⟨h0, hl⟩) fun hl => h ⟨h0, hl⟩

/-- Blocks that are marked as used, and of which none comes twice. -/
structure Freeable (fs : Fs) (l : List Nat) : Prop where
  used : ∀ b ∈ l, b ≠ 0 → fs.bitmap b = true
  distinct : l.Pairwise fun b c => b ≠ 0 → b ≠ c

lemma Freeable.drop {l' : List Nat} (h : Freeable fs (l ++ l')) : Freeable (fs.drop l) l' := by
  obtain ⟨hused, hdist⟩ := h
  obtain ⟨-, hl', hcross⟩ := List.pairwise_append.mp hdist
  refine ⟨fun b hb h0 => ?_, hl'⟩
  rw [drop_bitmap, if_neg]
  · exact hused b (List.mem_append_right l hb) h0
  · rintro ⟨-, hmem⟩
    exact hcross b hmem b hb h0 rfl

lemma Freeable.left {l' : List Nat} (h : Freeable fs (l ++ l')) : Freeable fs l :=
  ⟨fun b hb => h.used b (List.mem_append_left l' hb), (List.pairwise_append.mp h.distinct).1⟩

lemma bfree_ok (held : List Nat) (h : Logs fs L) (hlen : held.length ≤ 1) (hheld : fs.bblock b ∉ held) (h0 : b ≠ 0)
    (hused : fs.bitmap b = true) (hL : fs.bblock b ∈ L) :
    ∃ m, Gives (fs.bfree held b) ((fs.drop [b]).logged m) L ∧ Logs ((fs.drop [b]).logged m) L := by
  have hbits : Function.update fs.bitmap b false = (fs.drop [b]).bitmap := by
    funext c
    rw [drop_bitmap]
    by_cases hcb : c = b
    · rw [hcb, Function.update_self, if_pos ⟨h0, List.mem_singleton_self b⟩]
    · rw [Function.update_of_ne hcb, if_neg fun hmem => hcb (List.mem_singleton.mp hmem.2)]
  have hlogs : Logs (fs.drop [b]) L := h.congr rfl
  obtain ⟨m, hm, hlogs', -⟩ := hlogs.logWrite (b := fs.bblock b) hL
  refine ⟨m, ?_, hlogs'⟩
  refine (h.bread hL hlen hheld).bind (Finset.Subset.refl L) ?_
  rw [hused, Bool.not_true, if_neg Bool.false_ne_true, hbits]
  exact hm

lemma bfreeAll_ok (held : List Nat) (h : Logs fs L) (hlen : held.length ≤ 1)
    (hheld : ∀ b ∈ l, b ≠ 0 → fs.bblock b ∉ held) (hl : Freeable fs l)
    (hL : ∀ b ∈ l, b ≠ 0 → fs.bblock b ∈ L) :
    ∃ m, Gives (fs.bfreeAll held l) ((fs.drop l).logged m) L ∧ Logs ((fs.drop l).logged m) L := by
  induction l generalizing fs with
  | nil =>
    refine ⟨fs.log.block, ?_, ?_⟩ <;> rw [drop_nil]
    · exact Gives.ok L rfl
    · exact h
  | cons b l ih =>
    rw [← List.singleton_append] at hl ⊢
    have hstep : ∃ m, Gives (if b = 0 then pure fs else fs.bfree held b)
        ((fs.drop [b]).logged m) L ∧ Logs ((fs.drop [b]).logged m) L := by
      by_cases h0 : b = 0
      · have hsame : fs.drop [b] = fs := by
          unfold Fs.drop
          congr 1
          funext c
          rw [if_neg]
          rintro ⟨hc, hmem⟩
          exact hc ((List.mem_singleton.mp hmem).trans h0)
        rw [if_pos h0, hsame]
        exact ⟨fs.log.block, Gives.ok L rfl, h⟩
      · rw [if_neg h0]
        exact bfree_ok held h hlen (hheld b List.mem_cons_self h0) h0
          (hl.used b List.mem_cons_self h0) (hL b List.mem_cons_self h0)
    obtain ⟨m, hm, hlogs⟩ := hstep
    have hrest : Freeable ((fs.drop [b]).logged m) l := ⟨hl.drop.used, hl.drop.distinct⟩
    obtain ⟨m', hm', hlogs'⟩ := ih hlogs (fun c hc => hheld c (List.mem_cons_of_mem b hc)) hrest
      fun c hc => hL c (List.mem_cons_of_mem b hc)
    have hdrop : ((fs.drop [b]).logged m).drop l = (fs.drop ([b] ++ l)).logged m := by
      rw [← drop_append]
      rfl
    rw [hdrop] at hm' hlogs'
    refine ⟨m', ?_, hlogs'⟩
    unfold bfreeAll
    rw [List.singleton_append, List.foldlM_cons]
    exact hm.bind (Finset.Subset.refl L) hm'

/-! ### The blocks of an inode -/

/-- The addresses that `itrunc` goes through, in its order. -/
def slots (fs : Fs) (d : Dinode) : List Nat :=
  (List.range ndirect).map d.addrs ++
    if d.addrs ndirect = 0 then [] else (List.range nindirect).map (fs.indirect (d.addrs ndirect)) ++ [d.addrs ndirect]

lemma mem_slots (hb : b ≠ 0) : b ∈ fs.slots d ↔ ∃ k, fs.slot d k = b := by
  unfold slots
  rw [List.mem_append, List.mem_map]
  constructor
  · rintro (⟨k, hk, rfl⟩ | hmem)
    · exact ⟨k, slot_direct (List.mem_range.mp hk).le⟩
    · by_cases hind : d.addrs ndirect = 0
      · rw [if_pos hind] at hmem
        cases hmem
      · rw [if_neg hind, List.mem_append, List.mem_map, List.mem_singleton] at hmem
        rcases hmem with ⟨j, hj, rfl⟩ | rfl
        · exact ⟨ndirect + 1 + j, slot_indirect hind (List.mem_range.mp hj)⟩
        · exact ⟨ndirect, slot_direct le_rfl⟩
  · rintro ⟨k, rfl⟩
    rcases lt_trichotomy k ndirect with hk | rfl | hk
    · exact Or.inl ⟨k, List.mem_range.mpr hk, (slot_direct hk.le).symm⟩
    · rw [slot_direct le_rfl] at hb ⊢
      rw [if_neg hb]
      exact Or.inr (List.mem_append_right _ (List.mem_singleton_self _))
    · have hind : d.addrs ndirect ≠ 0 := fun h0 => hb (slot_none hk h0)
      have hmax : k ≤ maxfile := by
        by_contra hgt
        unfold slot at hb
        rw [if_neg (not_le.mpr hk), if_neg fun hs => hgt hs.2] at hb
        exact hb rfl
      obtain ⟨j, rfl⟩ := Nat.exists_eq_add_of_le hk
      have hj : j < nindirect := by
        unfold maxfile at hmax
        omega
      rw [if_neg hind, slot_indirect hind hj]
      exact Or.inr (List.mem_append_left _ (List.mem_map.mpr ⟨j, List.mem_range.mpr hj, rfl⟩))

lemma Owned.slot_inj (h : Owned fs D) (ht : (D i).type ≠ 0) {k k' : Nat} (h0 : fs.slot (D i) k ≠ 0)
    (heq : fs.slot (D i) k = fs.slot (D i) k') : k = k' := by
  rw [← loc_of_type ht] at h0 heq
  rw [← loc_of_type ht] at heq
  exact congrArg Prod.snd (h.placed.inj (i, k) (i, k') h0 heq)

/-- The blocks of an inode can all be freed. -/
lemma Owned.freeable (h : Owned fs D) (ht : (D i).type ≠ 0) : Freeable fs (fs.slots (D i)) := by
  refine ⟨fun b hb h0 => ?_, ?_⟩
  · obtain ⟨k, hk⟩ := (mem_slots h0).mp hb
    rw [← loc_of_type ht] at hk
    rw [← hk]
    exact h.placed.used_of_loc (hk ▸ h0)
  · have hne : ∀ {k k' : Nat}, k < k' → fs.slot (D i) k ≠ 0 → fs.slot (D i) k ≠ fs.slot (D i) k' :=
      fun hlt h0 heq => absurd (h.slot_inj ht h0 heq) hlt.ne
    have hdirect : ((List.range ndirect).map (D i).addrs).Pairwise fun b c => b ≠ 0 → b ≠ c := by
      rw [List.pairwise_map]
      refine List.pairwise_lt_range.imp_of_mem fun {k k'} hk hk' hlt => ?_
      have hslots := hne hlt
      rwa [slot_direct (List.mem_range.mp hk).le, slot_direct (List.mem_range.mp hk').le] at hslots
    unfold slots
    by_cases hind : (D i).addrs ndirect = 0
    · rw [if_pos hind, List.append_nil]
      exact hdirect
    · rw [if_neg hind]
      refine List.pairwise_append.mpr ⟨hdirect, List.pairwise_append.mpr ⟨?_, List.pairwise_singleton _ _, ?_⟩, ?_⟩
      · rw [List.pairwise_map]
        refine List.pairwise_lt_range.imp_of_mem fun {j j'} hj hj' hlt => ?_
        have hslots := @hne (ndirect + 1 + j) (ndirect + 1 + j') (by omega)
        rwa [slot_indirect hind (List.mem_range.mp hj), slot_indirect hind (List.mem_range.mp hj')] at hslots
      · intro b hb c hc _ heq
        obtain ⟨j, hj, rfl⟩ := List.mem_map.mp hb
        rw [List.mem_singleton.mp hc] at heq
        have hslots := @hne ndirect (ndirect + 1 + j) (by omega)
        rw [slot_direct le_rfl, slot_indirect hind (List.mem_range.mp hj)] at hslots
        exact hslots hind heq.symm
      · intro b hb c hc h0
        obtain ⟨k, hk, rfl⟩ := List.mem_map.mp hb
        have hk := List.mem_range.mp hk
        rcases List.mem_append.mp hc with hc | hc
        · obtain ⟨j, hj, rfl⟩ := List.mem_map.mp hc
          have hslots := @hne k (ndirect + 1 + j) (by omega)
          rw [slot_direct hk.le, slot_indirect hind (List.mem_range.mp hj)] at hslots
          exact hslots h0
        · rw [List.mem_singleton.mp hc]
          have hslots := hne hk
          rw [slot_direct hk.le, slot_direct le_rfl] at hslots
          exact hslots h0

/-! ### Truncating -/

/-- An inode without blocks. -/
def cleared (d : Dinode) : Dinode := { d with addrs := fun i => if i ≤ ndirect then 0 else d.addrs i, size := 0 }

/-- The bits of an inode's blocks lie in other blocks than its indirect block. -/
def Apart (fs : Fs) (d : Dinode) : Prop :=
  d.addrs ndirect ≠ 0 → ∀ b ∈ fs.slots d, b ≠ 0 → fs.bblock b ≠ d.addrs ndirect

lemma Owned.apart (h : Owned fs D) (ht : (D i).type ≠ 0) : fs.Apart (D i) := by
  intro hind b hb h0
  have hdata : ∀ {b}, b ≠ 0 → b ∈ fs.slots (D i) → fs.IsData b := by
    intro b h0 hb
    obtain ⟨k, rfl⟩ := (mem_slots h0).mp hb
    rw [← loc_of_type ht] at h0 ⊢
    exact h.placed.mem (i, k) h0
  have hbits : b / bpb ≤ fs.sb.size / bpb := Nat.div_le_div_right (hdata h0 hb).2.le
  have hlo := (hdata hind ((mem_slots hind).mpr ⟨ndirect, slot_direct le_rfl⟩)).1
  unfold dataStart at hlo
  unfold bblock
  omega

/-- What `bfreeIndirect` does after `bfreeAll`. -/
lemma bfreeSlots_ok (h : Logs fs L) (hl : Freeable fs (fs.slots d))
    (hapart : fs.Apart d)
    (hL : ∀ b ∈ fs.slots d, b ≠ 0 → fs.bblock b ∈ L) :
    ∃ m, Gives (do
        let fs ← fs.bfreeAll [] ((List.range ndirect).map d.addrs)
        fs.bfreeIndirect (d.addrs ndirect)) ((fs.drop (fs.slots d)).logged m) L ∧
      Logs ((fs.drop (fs.slots d)).logged m) L := by
  unfold Apart at hapart
  unfold slots at hl hL hapart ⊢
  obtain ⟨m, hm, hlogs⟩ := bfreeAll_ok [] h zero_le_one
    (fun _ _ _ => List.not_mem_nil) hl.left fun b hb => hL b (List.mem_append_left _ hb)
  by_cases hind : d.addrs ndirect = 0
  · rw [if_pos hind, List.append_nil]
    refine ⟨m, hm.bind (Finset.Subset.refl L) ?_, hlogs⟩
    unfold bfreeIndirect
    rw [if_pos hind]
    exact Gives.ok L rfl
  · rw [if_neg hind] at hl hL hapart ⊢
    have hrest : Freeable ((fs.drop ((List.range ndirect).map d.addrs)).logged m) _ := ⟨hl.drop.used, hl.drop.distinct⟩
    have hmem : ∀ b ∈ (List.range nindirect).map (fs.indirect (d.addrs ndirect)),
        b ∈ (List.range ndirect).map d.addrs ++
          ((List.range nindirect).map (fs.indirect (d.addrs ndirect)) ++ [d.addrs ndirect]) :=
      fun b hb => List.mem_append_right _ (List.mem_append_left _ hb)
    obtain ⟨m', hm', hlogs'⟩ := bfreeAll_ok [d.addrs ndirect] hlogs le_rfl
      (fun b hb h0 hbuf => hapart hind b (hmem b hb) h0 (List.mem_singleton.mp hbuf)) hrest.left
      fun b hb => hL b (hmem b hb)
    have hlast : Freeable ((((fs.drop ((List.range ndirect).map d.addrs)).logged m).drop _).logged m') [d.addrs ndirect] :=
      ⟨hrest.drop.used, hrest.drop.distinct⟩
    obtain ⟨m'', hm'', hlogs''⟩ := bfree_ok (b := d.addrs ndirect) [] hlogs' zero_le_one
      List.not_mem_nil hind
      (hlast.used _ (List.mem_singleton_self _) hind) (hL _ (by simp) hind)
    have hdrop : ((((fs.drop ((List.range ndirect).map d.addrs)).logged m).drop
          ((List.range nindirect).map (fs.indirect (d.addrs ndirect)))).logged m').drop [d.addrs ndirect] =
        (fs.drop ((List.range ndirect).map d.addrs ++
          ((List.range nindirect).map (fs.indirect (d.addrs ndirect)) ++ [d.addrs ndirect]))).logged m' := by
      rw [← drop_append, ← drop_append]
      rfl
    rw [hdrop] at hm'' hlogs''
    refine ⟨m'', hm.bind (Finset.Subset.refl L) ?_, hlogs''⟩
    unfold bfreeIndirect
    rw [if_neg hind]
    exact (hlogs.bread_nil _).bind (Finset.Subset.refl L) (hm'.bind (Finset.Subset.refl L) hm'')

/-- The file system after `itrunc`. -/
def truncated (fs : Fs) (ip : Fin ninode) : Fs :=
  { (fs.drop (fs.slots (fs.itable ip).d)).setInode ip { fs.itable ip with d := cleared (fs.itable ip).d } with
    dinode := Function.update fs.dinode (fs.itable ip).inum (cleared (fs.itable ip).d) }

/-- The blocks that are logged when an inode's blocks are freed. -/
def footprint (fs : Fs) (i : Nat) (d : Dinode) : Finset Nat :=
  insert (fs.iblock i) (((fs.slots d).filter fun b => b ≠ 0).toFinset.image fs.bblock)

lemma bblock_mem_footprint (hb : b ∈ fs.slots d) (h0 : b ≠ 0) : fs.bblock b ∈ fs.footprint i d := by
  refine Finset.mem_insert_of_mem (Finset.mem_image_of_mem _ ?_)
  simp [hb, h0]

lemma itrunc_ok (h : Logs fs L) (hl : Freeable fs (fs.slots (fs.itable ip).d))
    (hapart : fs.Apart (fs.itable ip).d)
    (hL : fs.footprint (fs.itable ip).inum (fs.itable ip).d ⊆ L) :
    ∃ m, Gives (fs.itrunc ip) ((fs.truncated ip).logged m) L ∧ Logs ((fs.truncated ip).logged m) L := by
  obtain ⟨m, hm, hlogs⟩ := bfreeSlots_ok h hl hapart fun b hb h0 => hL (bblock_mem_footprint hb h0)
  have htrunc : Logs ((fs.truncated ip).logged m) L := hlogs.congr rfl
  have hi : fs.iblock (fs.itable ip).inum ∈ L := hL (Finset.mem_insert_self _ _)
  obtain ⟨m', hm', hlogs', -⟩ := htrunc.logWrite hi
  refine ⟨m', ?_, hlogs'⟩
  have hself : ((((fs.drop (fs.slots (fs.itable ip).d)).logged m).setInode ip
      { fs.itable ip with d := cleared (fs.itable ip).d }).itable ip) = { fs.itable ip with d := cleared (fs.itable ip).d } :=
    Function.update_self ip _ _
  have hupdate : (((fs.drop (fs.slots (fs.itable ip).d)).logged m).setInode ip
      { fs.itable ip with d := cleared (fs.itable ip).d }).iupdate ip =
        ((fs.truncated ip).logged m).bread [] (fs.iblock (fs.itable ip).inum) >>= fun _ =>
          ((fs.truncated ip).logged m).logWrite (fs.iblock (fs.itable ip).inum) := by
    unfold iupdate
    rw [hself]
    rfl
  have hbind : fs.itrunc ip = ((do
      let fs' ← fs.bfreeAll [] ((List.range ndirect).map (fs.itable ip).d.addrs)
      fs'.bfreeIndirect ((fs.itable ip).d.addrs ndirect)) >>= fun fs' =>
        (fs'.setInode ip { fs'.itable ip with d := cleared (fs.itable ip).d }).iupdate ip) := by
    unfold itrunc
    rw [bind_assoc]
    rfl
  rw [hbind]
  refine hm.bind (Finset.Subset.refl L) ?_
  rw [logged_itable, drop_itable, hupdate]
  exact (htrunc.bread_nil _).bind (Finset.Subset.refl L) hm'

/-! ### Freeing an inode -/

lemma ext_of {fs fs' : Fs} (hsb : fs.sb = fs'.sb) (hdinode : fs.dinode = fs'.dinode) (hbits : fs.bitmap = fs'.bitmap)
    (hblock : fs.block = fs'.block) (htable : fs.itable = fs'.itable) (hlog : fs.log = fs'.log) : fs = fs' := by
  cases fs
  cases fs'
  simp only [mk.injEq]
  exact ⟨hsb, hdinode, hbits, hblock, htable, hlog⟩

/-- A free inode. -/
def emptied (d : Dinode) : Dinode := { cleared d with type := 0 }

/-- The file system after the part of `iput` that frees the inode. -/
def freed (fs : Fs) (ip : Fin ninode) : Fs :=
  { fs.drop (fs.slots (fs.itable ip).d) with
    itable := Function.update fs.itable ip
      { fs.itable ip with d := emptied (fs.itable ip).d, valid := false, locked := false, lockPid := 0 }
    dinode := Function.update fs.dinode (fs.itable ip).inum (emptied (fs.itable ip).d) }

lemma iputLast_ok (pid : Int) (h : Logs fs L) (hl : Freeable fs (fs.slots (fs.itable ip).d))
    (hapart : fs.Apart (fs.itable ip).d)
    (hL : fs.footprint (fs.itable ip).inum (fs.itable ip).d ⊆ L) (hfree : (fs.itable ip).locked = false) :
    ∃ m, Gives (fs.iputLast pid ip) ((fs.freed ip).logged m) L ∧ Logs ((fs.freed ip).logged m) L := by
  obtain ⟨v, hv⟩ : ∃ v : Inode, v = { fs.itable ip with locked := true, lockPid := pid } := ⟨_, rfl⟩
  have hself : (fs.setInode ip v).itable ip = v := Function.update_self _ _ _
  have hd : ((fs.setInode ip v).itable ip).d = (fs.itable ip).d := by rw [hself, hv]
  have hinum : ((fs.setInode ip v).itable ip).inum = (fs.itable ip).inum := by rw [hself, hv]
  have hlock : fs.acquiresleep pid ip = .ok (fs.setInode ip v) := by
    unfold acquiresleep
    rw [hfree, if_neg Bool.false_ne_true, hv]
    rfl
  have hlogs : Logs (fs.setInode ip v) L := h.congr rfl
  have hl' : Freeable (fs.setInode ip v) ((fs.setInode ip v).slots ((fs.setInode ip v).itable ip).d) := by
    rw [hd]
    exact ⟨hl.used, hl.distinct⟩
  have hL' : (fs.setInode ip v).footprint ((fs.setInode ip v).itable ip).inum ((fs.setInode ip v).itable ip).d ⊆ L := by
    rw [hd, hinum]
    exact hL
  have hapart' : (fs.setInode ip v).Apart ((fs.setInode ip v).itable ip).d := by
    rw [hd]
    exact hapart
  obtain ⟨m, hm, hlogs'⟩ := itrunc_ok hlogs hl' hapart' hL'
  have hi : fs.iblock (fs.itable ip).inum ∈ L := hL (Finset.mem_insert_self _ _)
  have hcur : (((fs.setInode ip v).truncated ip).logged m).itable =
      Function.update fs.itable ip { v with d := cleared (fs.itable ip).d } := by
    change Function.update (Function.update fs.itable ip v) ip _ = _
    rw [hself, Function.update_idem, hv]
  have hentry : (((fs.setInode ip v).truncated ip).logged m).itable ip = { v with d := cleared (fs.itable ip).d } := by
    rw [hcur, Function.update_self]
  -- the second `iupdate` writes the type back
  obtain ⟨fs₁, hfs₁⟩ : ∃ fs₁ : Fs, fs₁ = { fs.drop (fs.slots (fs.itable ip).d) with
      log := { fs.log with block := m }
      itable := Function.update fs.itable ip { v with d := emptied (fs.itable ip).d }
      dinode := Function.update fs.dinode (fs.itable ip).inum (emptied (fs.itable ip).d) } := ⟨_, rfl⟩
  have hlogs₁ : Logs fs₁ L := by
    rw [hfs₁]
    exact hlogs'.congr rfl
  obtain ⟨m', hm', hlogs'', -⟩ := hlogs₁.logWrite (b := fs.iblock (fs.itable ip).inum) hi
  have hupdate : ((((fs.setInode ip v).truncated ip).logged m).setInode ip
      { v with d := { cleared (fs.itable ip).d with type := 0 } }).iupdate ip =
        ((((fs.setInode ip v).truncated ip).logged m).setInode ip
          { v with d := { cleared (fs.itable ip).d with type := 0 } }).bread []
            (fs.iblock (fs.itable ip).inum) >>= fun _ =>
          fs₁.logWrite (fs.iblock (fs.itable ip).inum) := by
    have hinum' : v.inum = (fs.itable ip).inum := by rw [hv]
    have hnew : ((((fs.setInode ip v).truncated ip).logged m).setInode ip
        { v with d := { cleared (fs.itable ip).d with type := 0 } }).itable =
          Function.update fs.itable ip { v with d := emptied (fs.itable ip).d } := by
      change Function.update (((fs.setInode ip v).truncated ip).logged m).itable ip _ = _
      rw [hcur, Function.update_idem]
      rfl
    have hdinode : (((fs.setInode ip v).truncated ip).logged m).dinode =
        Function.update fs.dinode (fs.itable ip).inum (cleared (fs.itable ip).d) := by
      change Function.update fs.dinode _ _ = _
      rw [hself, hv]
    have hsame : { ((((fs.setInode ip v).truncated ip).logged m).setInode ip
        { v with d := { cleared (fs.itable ip).d with type := 0 } }) with
        dinode := Function.update (((fs.setInode ip v).truncated ip).logged m).dinode v.inum
          (emptied (fs.itable ip).d) } = fs₁ := by
      rw [hfs₁]
      refine Fs.ext_of rfl ?_ ?_ rfl hnew rfl
      · change Function.update (((fs.setInode ip v).truncated ip).logged m).dinode v.inum _ = _
        rw [hdinode, hinum', Function.update_idem]
      · change ((fs.setInode ip v).drop
          ((fs.setInode ip v).slots ((fs.setInode ip v).itable ip).d)).bitmap = _
        rw [hd]
        rfl
    have hself' : ((((fs.setInode ip v).truncated ip).logged m).setInode ip
        { v with d := { cleared (fs.itable ip).d with type := 0 } }).itable ip =
          { v with d := emptied (fs.itable ip).d } := by rw [hnew, Function.update_self]
    rw [← hsame, ← hinum']
    unfold iupdate
    rw [hself']
    rfl
  refine ⟨m', ?_, ?_⟩
  · unfold iputLast
    rw [hlock, ok_bind]
    refine hm.bind (Finset.Subset.refl L) ?_
    dsimp only
    rw [hentry, hupdate]
    have hopened : Logs ((((fs.setInode ip v).truncated ip).logged m).setInode ip
        { v with d := { cleared (fs.itable ip).d with type := 0 } }) L := hlogs'.congr rfl
    rw [bind_assoc]
    refine (hopened.bread_nil _).bind (Finset.Subset.refl L)
      (hm'.bind (Finset.Subset.refl L) (Gives.ok L ?_))
    refine congrArg Except.ok (Fs.ext_of ?_ ?_ ?_ ?_ ?_ ?_)
    · rw [hfs₁]
      rfl
    · rw [hfs₁]
      rfl
    · rw [hfs₁]
      rfl
    · rw [hfs₁]
      rfl
    · rw [hfs₁]
      simp [releasesleep, setInode, freed, hv]
    · rw [hfs₁]
      rfl
  · rw [hfs₁] at hlogs''
    exact hlogs''.congr rfl

/-- The inode `i` gives all its blocks back. -/
lemma Owned.give_back (h : Owned fs D) (ht : (D i).type ≠ 0) (hsb : fs'.sb = fs.sb) (hblock : fs'.block = fs.block)
    (hbits : fs'.bitmap = (fs.drop (fs.slots (D i))).bitmap) (hnone : d.type = 0 ∨ ∀ k, fs'.slot d k = 0) :
    Owned fs' (Function.update D i d) ∧ ∀ s : Nat × Nat, s.1 ≠ i → fs'.loc (Function.update D i d) s = fs.loc D s := by
  have hdata : fs'.IsData = fs.IsData := by
    unfold IsData dataStart
    rw [hsb]
  have hother : ∀ s : Nat × Nat, s.1 ≠ i → fs'.loc (Function.update D i d) s = fs.loc D s := by
    intro s hs
    unfold loc
    rw [Function.update_of_ne hs]
    split
    · rfl
    · exact slot_congr (fun _ _ => rfl) fun _ => by rw [hblock]
  have hself : ∀ s : Nat × Nat, s.1 = i → fs'.loc (Function.update D i d) s = 0 := by
    intro s hs
    unfold loc
    rw [hs, Function.update_self]
    split
    · rfl
    · next hne => exact (hnone.resolve_left hne) s.2
  have hslot : ∀ {b}, b ≠ 0 → (b ∈ fs.slots (D i) ↔ ∃ s : Nat × Nat, s.1 = i ∧ fs.loc D s = b) := by
    intro b hb
    rw [mem_slots hb]
    constructor
    · rintro ⟨k, hk⟩
      exact ⟨(i, k), rfl, (loc_of_type ht k).trans hk⟩
    · rintro ⟨⟨j, k⟩, hj, hk⟩
      dsimp only at hj
      subst hj
      exact ⟨k, (loc_of_type ht k).symm.trans hk⟩
  refine ⟨⟨?_, fun b hb hlt => ?_, hsb ▸ h.size⟩, hother⟩
  · rw [hdata]
    refine h.placed.clear (T := {s | s.1 = i}) fs.not_isData_zero hself (fun s hs => hother s hs) fun b hb => ?_
    have hb0 : b ≠ 0 := by
      rintro rfl
      exact fs.not_isData_zero hb
    rw [hbits, drop_bitmap]
    by_cases hmem : b ∈ fs.slots (D i)
    · rw [if_pos ⟨hb0, hmem⟩]
      obtain ⟨s, hs, hloc⟩ := (hslot hb0).mp hmem
      exact ⟨fun hfalse => (by cases hfalse), fun ⟨_, hall⟩ => absurd hloc (hall s hs)⟩
    · rw [if_neg fun hin => hmem hin.2]
      exact ⟨fun hused => ⟨hused, fun s hs heq => hmem ((hslot hb0).mpr ⟨s, hs, heq⟩)⟩, fun hused => hused.1⟩
  · unfold dataStart at hb
    rw [hsb] at hb hlt
    rw [hbits, drop_bitmap, if_neg]
    · exact h.metadata b hb hlt
    · rintro ⟨hb0, hmem⟩
      obtain ⟨s, hs, hloc⟩ := (hslot hb0).mp hmem
      have hin := h.placed.mem s (by rwa [hloc])
      rw [hloc] at hin
      exact absurd hin.1 (not_le.mpr hb)

end Fs

end FogOS.Kernel
