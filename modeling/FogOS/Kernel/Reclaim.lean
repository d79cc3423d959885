import FogOS.Kernel.Chunks
import FogOS.Kernel.Truncate

/-!
# Orphaned inodes

At boot `ireclaim` of `kernel/fs.c` frees the inodes that are in use but have no links: files that were
still open when the machine stopped.
-/

namespace FogOS.Kernel

open ByteMem Placement

namespace Fs

variable {fs fs' fs'' : Fs} {ip : Fin ninode} {i j n : Nat}

/-- An inode that is in use and has no links. -/
def Orphan (fs : Fs) (i : Nat) : Prop := (fs.dinode i).type ≠ 0 ∧ (fs.dinode i).nlink = 0

instance (fs : Fs) (i : Nat) : Decidable (fs.Orphan i) := inferInstanceAs (Decidable (_ ∧ _))

/-- What `ireclaim` does with an orphaned inode. -/
def ireclaimInode (fs : Fs) (pid : Int) (dev inum : Nat) : Except Stop Fs := do
  let (ip, fs) ← fs.iget dev inum
  let fs ← fs.beginOp
  let fs ← fs.ilock pid ip
  let fs ← fs.iunlock pid ip
  let fs ← fs.iput pid ip
  fs.endOp

/-- The loop of `ireclaim`, from `inum` on. -/
def ireclaimLoop (pid : Int) (dev : Nat) : Nat → Fs → Nat → Except Stop Fs
  | 0, fs, _ => pure fs
  | n + 1, fs, inum => do
    let fs ← if fs.Orphan inum then fs.ireclaimInode pid dev inum else pure fs
    ireclaimLoop pid dev n fs (inum + 1)

/-- Free the orphaned inodes of a disk with `ninodes` inodes. -/
def ireclaim (fs : Fs) (pid : Int) (dev ninodes : Nat) : Except Stop Fs :=
  ireclaimLoop pid dev (ninodes - 1) fs 1

/-! ### One inode -/

/-- Nobody uses the inode table, and no transaction is open. -/
structure Quiescent (fs : Fs) : Prop where
  idle : Idle fs
  ref : ∀ ip, (fs.itable ip).ref = 0
  locked : ∀ ip, (fs.itable ip).locked = false

/-- The inode `i` has been freed with its blocks. -/
structure Freed (fs : Fs) (i : Nat) (fs' : Fs) : Prop where
  sb : fs'.sb = fs.sb
  block : fs'.block = fs.block
  bitmap : fs'.bitmap = (fs.drop (fs.slots (fs.dinode i))).bitmap
  dinode : fs'.dinode = Function.update fs.dinode i (emptied (fs.dinode i))

/-- The in-memory copy of an inode that nobody uses is made in a free entry. -/
lemma iget_free (href : ∀ ip, (fs.itable ip).ref = 0) (dev inum : Nat) :
    ∃ ip, fs.iget dev inum = .ok (ip, fs.setInode ip { fs.itable ip with dev := dev, inum := inum, ref := 1, valid := false }) := by
  have hnone : ((List.finRange ninode).find? fun i =>
      0 < (fs.itable i).ref ∧ (fs.itable i).dev = dev ∧ (fs.itable i).inum = inum) = none := by
    rw [List.find?_eq_none]
    intro ip _
    simp [href ip]
  have hsome : ((List.finRange ninode).find? fun i => (fs.itable i).ref = 0).isSome = true := by
    rw [List.find?_isSome]
    exact ⟨⟨0, by decide⟩, List.mem_finRange _, by simp [href]⟩
  obtain ⟨ip, hip⟩ := Option.isSome_iff_exists.mp hsome
  refine ⟨ip, ?_⟩
  unfold iget
  rw [hnone, hip]
  rfl

lemma ireclaimInode_ok (pid : Int) (dev : Nat) (h : Owned fs fs.dinode) (hq : Quiescent fs) (horphan : fs.Orphan i)
    (hfit : (fs.footprint i (fs.dinode i)).card < logblocks) :
    ∃ fs', fs.ireclaimInode pid dev i = .ok fs' ∧ Quiescent fs' ∧ Freed fs i fs' := by
  obtain ⟨ht, hl⟩ := horphan
  obtain ⟨ip, hget⟩ := iget_free hq.ref dev i
  obtain ⟨v, hv⟩ : ∃ v : Inode, v = { fs.itable ip with dev := dev, inum := i, ref := 1, valid := false } := ⟨_, rfl⟩
  rw [← hv] at hget
  have hfree : v.locked = false := by
    rw [hv]
    exact hq.locked ip
  have hidle : Idle (fs.setInode ip v) := ⟨hq.idle.outstanding, hq.idle.committing, hq.idle.block⟩
  -- inside the transaction, the inode has been read and is unlocked again
  obtain ⟨u, hu⟩ : ∃ u : Inode, u = { v with d := fs.dinode i, valid := true, locked := false, lockPid := 0 } := ⟨_, rfl⟩
  obtain ⟨fs₁, hfs₁⟩ : ∃ fs₁ : Fs, fs₁ = { fs with itable := Function.update fs.itable ip u, log := ⟨1, false, []⟩ } := ⟨_, rfl⟩
  have hbegin : (fs.setInode ip v).beginOp = .ok { fs.setInode ip v with log := ⟨1, false, []⟩ } := hidle.beginOp
  have hlock : ({ fs.setInode ip v with log := ⟨1, false, []⟩ } : Fs).ilock pid ip =
      .ok { fs with
        itable := Function.update fs.itable ip { v with d := fs.dinode i, valid := true, locked := true, lockPid := pid }
        log := ⟨1, false, []⟩ } := by
    unfold ilock acquiresleep
    simp [setInode, hv, hq.locked ip, ht]
    rfl
  have hunlock : ({ fs with
      itable := Function.update fs.itable ip { v with d := fs.dinode i, valid := true, locked := true, lockPid := pid }
      log := ⟨1, false, []⟩ } : Fs).iunlock pid ip = .ok fs₁ := by
    unfold iunlock holdingsleep
    simp [releasesleep, setInode, hv, hfs₁, hu]
    rfl
  have hentry : fs₁.itable ip = u := by
    rw [hfs₁]
    exact Function.update_self ip u fs.itable
  have hd : (fs₁.itable ip).d = fs.dinode i := by rw [hentry, hu]
  have hinum : (fs₁.itable ip).inum = i := by rw [hentry, hu, hv]
  have hslots : fs₁.slots (fs.dinode i) = fs.slots (fs.dinode i) := by
    rw [hfs₁]
    rfl
  have hfoot : fs₁.footprint i (fs.dinode i) = fs.footprint i (fs.dinode i) := by
    unfold footprint
    rw [hslots, hfs₁]
    rfl
  have hlogs : Logs fs₁ (fs.footprint i (fs.dinode i)) := by
    rw [hfs₁]
    exact ⟨le_rfl, List.nodup_nil, Finset.empty_subset _⟩
  have hfreeable : Freeable fs₁ (fs₁.slots (fs₁.itable ip).d) := by
    have hall := h.freeable ht
    rw [hd, hslots, hfs₁]
    exact ⟨hall.used, hall.distinct⟩
  have hapart : fs₁.Apart (fs₁.itable ip).d := by
    have hall := h.apart ht
    unfold Apart at hall ⊢
    rw [hd, hslots, hfs₁]
    exact hall
  obtain ⟨m, hm, -⟩ := iputLast_ok pid hlogs hfreeable hapart (by rw [hd, hinum, hfoot])
    (by rw [hentry, hu])
  have hlast := hm.eq_ok hfit
  have hput : fs₁.iput pid ip = .ok (((fs₁.freed ip).logged m).idrop ip) := by
    have hcond : (fs₁.itable ip).ref = 1 ∧ (fs₁.itable ip).valid ∧ (fs₁.itable ip).d.nlink = 0 := by
      rw [hentry, hu, hv]
      exact ⟨rfl, rfl, hl⟩
    unfold iput
    rw [if_pos hcond, hlast]
    rfl
  have hout : (((fs₁.freed ip).logged m).idrop ip).log.outstanding = 1 := by
    rw [hfs₁]
    rfl
  have hend := endOp_last hout (by rw [hfs₁]; rfl)
  have htable : (((fs₁.freed ip).logged m).idrop ip).itable = Function.update fs.itable ip
      { u with d := emptied (fs.dinode i), valid := false, locked := false, lockPid := 0, ref := 0 } := by
    unfold idrop setInode
    rw [logged_itable]
    unfold freed
    dsimp only
    rw [Function.update_self, hentry, Function.update_idem, hfs₁, Function.update_idem, hu, hv]
    rfl
  refine ⟨{ ((fs₁.freed ip).logged m).idrop ip with log := ⟨0, false, []⟩ }, ?_, ⟨⟨rfl, rfl, rfl⟩, fun jp => ?_, fun jp => ?_⟩,
    ⟨?_, ?_, ?_, ?_⟩⟩
  · unfold ireclaimInode
    rw [hget, ok_bind]
    dsimp only
    rw [hbegin, ok_bind, hlock, ok_bind, hunlock, ok_bind, hput, ok_bind, hend]
  · change ((((fs₁.freed ip).logged m).idrop ip).itable jp).ref = 0
    rw [htable]
    by_cases hjp : jp = ip
    · rw [hjp, Function.update_self]
    · rw [Function.update_of_ne hjp]
      exact hq.ref jp
  · change ((((fs₁.freed ip).logged m).idrop ip).itable jp).locked = false
    rw [htable]
    by_cases hjp : jp = ip
    · rw [hjp, Function.update_self]
    · rw [Function.update_of_ne hjp]
      exact hq.locked jp
  · rw [hfs₁]
    rfl
  · rw [hfs₁]
    rfl
  · change (fs₁.drop (fs₁.slots (fs₁.itable ip).d)).bitmap = _
    rw [hd, hslots, hfs₁]
    rfl
  · change Function.update fs₁.dinode (fs₁.itable ip).inum (emptied (fs₁.itable ip).d) = _
    rw [hd, hinum, hfs₁]

/-! ### The scan -/

lemma slots_congr (hblock : fs'.block = fs.block) (d : Dinode) : fs'.slots d = fs.slots d := by
  unfold slots indirect
  rw [hblock]

lemma footprint_congr (hsb : fs'.sb = fs.sb) (hblock : fs'.block = fs.block) (i : Nat) (d : Dinode) :
    fs'.footprint i d = fs.footprint i d := by
  unfold footprint iblock bblock
  rw [slots_congr hblock, hsb]

/-- The orphans among `n` inodes from `lo` on have been freed. -/
structure Reclaimed (fs : Fs) (lo n : Nat) (fs' : Fs) : Prop where
  owned : Owned fs' fs'.dinode
  quiet : Quiescent fs'
  block : fs'.block = fs.block
  gone : ∀ i, lo ≤ i → i < lo + n → fs.Orphan i → (fs'.dinode i).type = 0
  kept : ∀ i, ¬ (lo ≤ i ∧ i < lo + n ∧ fs.Orphan i) → fs'.dinode i = fs.dinode i
  bitmap : ∀ b, fs'.bitmap b = true ↔ fs.bitmap b = true ∧
    ∀ i, lo ≤ i → i < lo + n → fs.Orphan i → b ≠ 0 → b ∉ fs.slots (fs.dinode i)

lemma Reclaimed.refl (h : Owned fs fs.dinode) (hq : Quiescent fs) (lo : Nat) : Reclaimed fs lo 0 fs := by
  refine ⟨h, hq, rfl, fun i hlo hhi => ?_, fun _ _ => rfl, fun b => ⟨fun hb => ⟨hb, fun i hlo hhi => ?_⟩, fun hb => hb.1⟩⟩ <;>
  omega

/-- The first inode is no orphan. -/
lemma Reclaimed.skip {lo : Nat} (hno : ¬ fs.Orphan lo) (h : Reclaimed fs (lo + 1) n fs') : Reclaimed fs lo (n + 1) fs' := by
  have hrange : ∀ {i}, fs.Orphan i → (lo ≤ i ∧ i < lo + (n + 1) ↔ lo + 1 ≤ i ∧ i < lo + 1 + n) := by
    intro i hi
    have hne : i ≠ lo := by
      rintro rfl
      exact hno hi
    omega
  refine ⟨h.owned, h.quiet, h.block, fun i hlo hhi hi => ?_, fun i hi => h.kept i fun hin => hi ?_, fun b => ?_⟩
  · obtain ⟨hlo', hhi'⟩ := (hrange hi).mp ⟨hlo, hhi⟩
    exact h.gone i hlo' hhi' hi
  · obtain ⟨hlo, hhi⟩ := (hrange hin.2.2).mpr ⟨hin.1, hin.2.1⟩
    exact ⟨hlo, hhi, hin.2.2⟩
  · rw [h.bitmap b]
    refine and_congr_right fun _ => forall_congr' fun i => ⟨fun hall hlo hhi hi => ?_, fun hall hlo hhi hi => ?_⟩
    · obtain ⟨hlo', hhi'⟩ := (hrange hi).mp ⟨hlo, hhi⟩
      exact hall hlo' hhi' hi
    · obtain ⟨hlo', hhi'⟩ := (hrange hi).mpr ⟨hlo, hhi⟩
      exact hall hlo' hhi' hi

/-- The first inode is an orphan and is freed. -/
lemma Reclaimed.cons {lo : Nat} {fs₁ : Fs} (ho : fs.Orphan lo) (hfreed : Freed fs lo fs₁) (h : Reclaimed fs₁ (lo + 1) n fs') :
    Reclaimed fs lo (n + 1) fs' := by
  have hother : ∀ {i}, i ≠ lo → fs₁.dinode i = fs.dinode i := by
    intro i hi
    rw [hfreed.dinode, Function.update_of_ne hi]
  have horphan : ∀ {i}, i ≠ lo → (fs₁.Orphan i ↔ fs.Orphan i) := by
    intro i hi
    unfold Orphan
    rw [hother hi]
  have hself : fs'.dinode lo = emptied (fs.dinode lo) := by
    rw [h.kept lo (by omega), hfreed.dinode, Function.update_self]
  refine ⟨h.owned, h.quiet, h.block.trans hfreed.block, fun i hlo hhi hi => ?_, fun i hi => ?_, fun b => ?_⟩
  · by_cases heq : i = lo
    · rw [heq, hself]
      rfl
    · exact h.gone i (by omega) (by omega) ((horphan heq).mpr hi)
  · have heq : i ≠ lo := by
      rintro rfl
      exact hi ⟨le_rfl, by omega, ho⟩
    rw [h.kept i fun hin => hi ⟨by omega, by omega, (horphan heq).mp hin.2.2⟩, hother heq]
  · rw [h.bitmap b, hfreed.bitmap, drop_bitmap]
    constructor
    · rintro ⟨hused, hall⟩
      have hnot : ¬ (b ≠ 0 ∧ b ∈ fs.slots (fs.dinode lo)) := by
        intro hin
        rw [if_pos hin] at hused
        cases hused
      rw [if_neg hnot] at hused
      refine ⟨hused, fun i hlo hhi hi hb hmem => ?_⟩
      by_cases heq : i = lo
      · exact hnot ⟨hb, heq ▸ hmem⟩
      · refine hall i (by omega) (by omega) ((horphan heq).mpr hi) hb ?_
        rwa [hother heq, slots_congr hfreed.block]
    · rintro ⟨hused, hall⟩
      rw [if_neg fun hin => hall lo le_rfl (by omega) ho hin.1 hin.2]
      refine ⟨hused, fun i hlo hhi hi hb => ?_⟩
      have heq : i ≠ lo := by omega
      rw [hother heq, slots_congr hfreed.block]
      exact hall i (by omega) (by omega) ((horphan heq).mp hi) hb

lemma ireclaimLoop_ok (pid : Int) (dev : Nat) : ∀ (n lo : Nat) {fs : Fs}, Owned fs fs.dinode → Quiescent fs →
    (∀ i, lo ≤ i → i < lo + n → fs.Orphan i → (fs.footprint i (fs.dinode i)).card < logblocks) →
    ∃ fs', ireclaimLoop pid dev n fs lo = .ok fs' ∧ Reclaimed fs lo n fs' := by
  intro n
  induction n with
  | zero =>
    intro lo fs h hq _
    exact ⟨fs, rfl, .refl h hq lo⟩
  | succ n ih =>
    intro lo fs h hq hfit
    rw [ireclaimLoop]
    by_cases ho : fs.Orphan lo
    · obtain ⟨fs₁, hrun, hq₁, hfreed⟩ := ireclaimInode_ok pid dev h hq ho (hfit lo le_rfl (by omega) ho)
      have howned := (h.give_back (d := emptied (fs.dinode lo)) ho.1 hfreed.sb hfreed.block hfreed.bitmap (Or.inl rfl)).1
      rw [← hfreed.dinode] at howned
      have hfit₁ : ∀ i, lo + 1 ≤ i → i < lo + 1 + n → fs₁.Orphan i → (fs₁.footprint i (fs₁.dinode i)).card < logblocks := by
        intro i hlo hhi hi
        have hsame : fs₁.dinode i = fs.dinode i := by rw [hfreed.dinode, Function.update_of_ne (by omega)]
        rw [footprint_congr hfreed.sb hfreed.block, hsame]
        refine hfit i (by omega) (by omega) ?_
        unfold Orphan at hi ⊢
        rwa [hsame] at hi
      obtain ⟨fs', hrest, hall⟩ := ih (lo + 1) howned hq₁ hfit₁
      refine ⟨fs', ?_, hall.cons ho hfreed⟩
      rw [if_pos ho, hrun, ok_bind]
      exact hrest
    · obtain ⟨fs', hrest, hall⟩ := ih (lo + 1) h hq fun i hlo hhi => hfit i (by omega) (by omega)
      refine ⟨fs', ?_, hall.skip ho⟩
      rw [if_neg ho]
      exact hrest

/-- With an unused inode table, and if the blocks that are logged for each orphan fit in the log, `ireclaim`
leaves no orphan; the blocks that the orphans had are free, and all other inodes are as they were, with their
blocks and contents. The inode table is not in use afterwards. -/
theorem ireclaim_frees_orphans (pid : Int) (dev ninodes : Nat) (h : Owned fs fs.dinode) (hq : Quiescent fs)
    (hfit : ∀ i, 1 ≤ i → i < ninodes → fs.Orphan i → (fs.footprint i (fs.dinode i)).card < logblocks) :
    ∃ fs', fs.ireclaim pid dev ninodes = .ok fs' ∧
      (∀ i, 1 ≤ i → i < ninodes → ¬ fs'.Orphan i) ∧
      (∀ i k, 1 ≤ i → i < ninodes → fs.Orphan i → fs.slot (fs.dinode i) k ≠ 0 →
        fs'.bitmap (fs.slot (fs.dinode i) k) = false) ∧
      (∀ i, ¬ (1 ≤ i ∧ i < ninodes ∧ fs.Orphan i) → fs'.dinode i = fs.dinode i ∧
        fs'.content (fs.dinode i) = fs.content (fs.dinode i) ∧
        ∀ k, fs'.slot (fs.dinode i) k = fs.slot (fs.dinode i) k ∧
          ((fs.dinode i).type ≠ 0 → fs.slot (fs.dinode i) k ≠ 0 → fs'.bitmap (fs.slot (fs.dinode i) k) = true)) ∧
      Owned fs' fs'.dinode ∧ ∀ ip, (fs'.itable ip).ref = 0 := by
  obtain ⟨fs', hrun, hall⟩ := ireclaimLoop_ok pid dev (ninodes - 1) 1 h hq fun i hlo hhi => hfit i hlo (by omega)
  have hblock := hall.block
  have hslot : ∀ d k, fs'.slot d k = fs.slot d k := fun d k => slot_congr (fun _ _ => rfl) fun _ => by rw [hblock]
  refine ⟨fs', hrun, fun i hlo hhi ho => ?_, fun i k hlo hhi ho h0 => ?_, fun i hi => ⟨hall.kept i fun hin => hi ?_, ?_, fun k => ?_⟩,
    hall.owned, hall.quiet.ref⟩
  · by_cases hold : fs.Orphan i
    · exact ho.1 (hall.gone i hlo (by omega) hold)
    · have hsame := hall.kept i fun hin => hold hin.2.2
      unfold Orphan at ho hold
      rw [hsame] at ho
      exact hold ho
  · by_contra hused
    have hfree := (hall.bitmap _).mp (by simpa using hused)
    exact hfree.2 i hlo (by omega) ho h0 ((mem_slots h0).mpr ⟨k, rfl⟩)
  · exact ⟨hin.1, by omega, hin.2.2⟩
  · have hbyte : ∀ x, fs'.byteAt (fs.dinode i) x = fs.byteAt (fs.dinode i) x :=
      fun x => byteAt_congr (fun _ _ => rfl) hblock
    unfold Fs.content
    exact List.map_congr_left fun x _ => hbyte x
  · refine ⟨hslot _ k, fun ht h0 => (hall.bitmap _).mpr ⟨?_, fun j hlo hhi ho hne hmem => ?_⟩⟩
    · have hused := h.placed.used_of_loc (s := (i, k)) (by rwa [loc_of_type ht])
      rwa [loc_of_type ht] at hused
    · obtain ⟨k', hk'⟩ := (mem_slots hne).mp hmem
      have heq : fs.loc fs.dinode (i, k) = fs.loc fs.dinode (j, k') := by rw [loc_of_type ht, loc_of_type ho.1, hk']
      have hij := congrArg Prod.fst (h.placed.inj (i, k) (j, k') (by rwa [loc_of_type ht]) heq)
      dsimp only at hij
      subst hij
      exact hi ⟨hlo, by omega, ho⟩

/-- A disk of 64 blocks with an orphan, inode 2, that has one block. -/
def oneOrphan : Fs where
  sb := ⟨64, 2, 3⟩
  dinode := fun i => ⟨if i = 2 then 2 else 0, 0, 5, fun k => if k = 0 then 7 else 0⟩
  bitmap := fun b => decide (b < 4 ∨ b = 7)
  block := fun _ _ => 0
  itable := fun _ => ⟨0, 0, 0, false, 0, false, ⟨0, 0, 0, fun _ => 0⟩⟩
  log := ⟨0, false, []⟩

lemma loc_oneOrphan (s : Nat × Nat) : oneOrphan.loc oneOrphan.dinode s = if s = (2, 0) then 7 else 0 := by
  obtain ⟨i, k⟩ := s
  have haddr : ∀ k, (oneOrphan.dinode i).addrs k = if k = 0 then 7 else 0 := fun _ => rfl
  unfold loc slot
  rw [haddr, haddr]
  by_cases hi : i = 2
  · subst hi
    by_cases hk : k = 0
    · subst hk
      rfl
    · simp [oneOrphan, hk, ndirect]
  · simp [oneOrphan, hi]

/-- Its block is free afterwards. -/
theorem ireclaim_frees_orphans_one : ∃ fs', oneOrphan.ireclaim 1 1 16 = .ok fs' ∧ fs'.bitmap 7 = false ∧ ¬ fs'.Orphan 2 := by
  have howned : Owned oneOrphan oneOrphan.dinode := by
    refine ⟨⟨fun s hs => ?_, fun s t hs heq => ?_, fun b hb => ?_⟩, fun b hb _ => ?_, by decide⟩
    · rw [loc_oneOrphan] at hs ⊢
      by_cases hs2 : s = (2, 0)
      · rw [if_pos hs2]
        exact ⟨by decide, by decide⟩
      · rw [if_neg hs2] at hs
        exact absurd rfl hs
    · rw [loc_oneOrphan] at hs heq
      rw [loc_oneOrphan] at heq
      by_cases hs2 : s = (2, 0) <;> by_cases ht2 : t = (2, 0) <;> simp_all
    · have hdata : 4 ≤ b := hb.1
      constructor
      · intro hused
        have hseven : b = 7 := by
          simp only [oneOrphan, decide_eq_true_eq] at hused
          omega
        exact ⟨(2, 0), by rw [loc_oneOrphan, if_pos rfl, hseven]⟩
      · rintro ⟨s, hs⟩
        rw [loc_oneOrphan] at hs
        have hseven : b = 7 := by
          split at hs <;> omega
        rw [hseven]
        rfl
    · have hmeta : b < 4 := hb
      simp [oneOrphan, hmeta]
  have hfit : ∀ i, 1 ≤ i → i < 16 → oneOrphan.Orphan i → (oneOrphan.footprint i (oneOrphan.dinode i)).card < logblocks := by
    decide
  obtain ⟨fs', hrun, hgone, hfree, -⟩ := ireclaim_frees_orphans 1 1 16 howned ⟨⟨rfl, rfl, rfl⟩, fun _ => rfl, fun _ => rfl⟩ hfit
  exact ⟨fs', hrun, hfree 2 0 (by decide) (by decide) (by decide) (by decide), hgone 2 (by decide) (by decide)⟩

/-- A disk of 2^18 blocks with an orphan whose 29 blocks are marked in as many blocks of the bitmap. -/
def scattered : Fs where
  sb := ⟨2 ^ 18, 2, 3⟩
  dinode := fun i => ⟨if i = 1 then 2 else 0, 0, 0, fun k => if k ≤ ndirect then 8192 * (k + 1) else 0⟩
  bitmap := fun b => decide (b < 36 ∨ b % 8192 = 0 ∧ b ≤ 8192 * 29)
  block := fun _ x => if x < 4 * 16 then UInt8.ofNat (8192 * (14 + x / 4) / 256 ^ (x % 4)) else 0
  itable := fun _ => ⟨0, 0, 0, false, 0, false, ⟨0, 0, 0, fun _ => 0⟩⟩
  log := ⟨0, false, []⟩

lemma loc_scattered (s : Nat × Nat) :
    scattered.loc scattered.dinode s = if s.1 = 1 ∧ s.2 < 29 then 8192 * (s.2 + 1) else 0 := by
  obtain ⟨i, k⟩ := s
  have hentry : ∀ j : Fin nindirect,
      scattered.indirect (8192 * 13) j = if j.val < 16 then 8192 * (14 + j.val) else 0 := by
    decide +kernel
  have haddr : ∀ k ≤ ndirect, (scattered.dinode i).addrs k = 8192 * (k + 1) := fun k hk => if_pos hk
  have hind : (scattered.dinode i).addrs ndirect ≠ 0 := by
    rw [haddr ndirect le_rfl]
    decide
  by_cases hi : i = 1
  · have ht : (scattered.dinode i).type ≠ 0 := by
      rw [hi]
      decide
    rw [loc_of_type ht]
    dsimp only
    by_cases hk : k ≤ ndirect
    · have hlt : k < 29 := by
        unfold ndirect at hk
        omega
      rw [slot_direct hk, haddr k hk, if_pos ⟨hi, hlt⟩]
    · obtain ⟨j, rfl⟩ := Nat.exists_eq_add_of_lt (not_le.mp hk)
      have hnd : ndirect = 12 := rfl
      by_cases hj : j < nindirect
      · have hslot := @slot_indirect scattered _ _ hind hj
        rw [show ndirect + 1 + j = ndirect + j + 1 by omega, haddr ndirect le_rfl] at hslot
        have hj' := hentry ⟨j, hj⟩
        change scattered.indirect (8192 * 13) j = _ at hj'
        rw [hslot]
        change scattered.indirect (8192 * 13) j = _
        rw [hj']
        by_cases hlt : j < 16
        · rw [if_pos hlt, if_pos ⟨hi, by omega⟩]
          change 8192 * (14 + j) = 8192 * (ndirect + j + 1 + 1)
          omega
        · rw [if_neg hlt, if_neg (by omega)]
      · have hzero : scattered.slot (scattered.dinode i) (ndirect + j + 1) = 0 := by
          unfold slot
          rw [if_neg (by omega), if_neg (by unfold maxfile; omega)]
        rw [hzero, if_neg]
        unfold nindirect ndirect at *
        omega
  · rw [if_neg (by simp [hi])]
    unfold loc
    exact if_pos (if_neg hi)

/-- The transaction that frees the orphan of this disk is too big. -/
theorem ireclaim_too_big : ¬ ∀ (fs : Fs) (ninodes : Nat), Owned fs fs.dinode → Quiescent fs →
    ∃ fs', fs.ireclaim 1 1 ninodes = .ok fs' ∧ ∀ i, 1 ≤ i → i < ninodes → ¬ fs'.Orphan i := by
  intro hall
  have howned : Owned scattered scattered.dinode := by
    refine ⟨⟨fun s hs => ?_, fun s t hs heq => ?_, fun b hb => ?_⟩, fun b hb _ => ?_, by decide⟩
    · rw [loc_scattered] at hs ⊢
      by_cases hin : s.1 = 1 ∧ s.2 < 29
      · rw [if_pos hin]
        refine ⟨?_, ?_⟩
        · have hstart : scattered.dataStart = 36 := by decide
          omega
        · have hsize : scattered.sb.size = 262144 := by decide
          omega
      · rw [if_neg hin] at hs
        exact absurd rfl hs
    · rw [loc_scattered] at hs heq
      rw [loc_scattered] at heq
      by_cases hin : s.1 = 1 ∧ s.2 < 29
      · by_cases hin' : t.1 = 1 ∧ t.2 < 29
        · rw [if_pos hin, if_pos hin'] at heq
          exact Prod.ext (by omega) (by omega)
        · rw [if_pos hin, if_neg hin'] at heq
          omega
      · rw [if_neg hin] at hs
        exact absurd rfl hs
    · have hstart : scattered.dataStart = 36 := by decide
      have hlo : 36 ≤ b := hstart ▸ hb.1
      constructor
      · intro hused
        have hmult : b % 8192 = 0 ∧ b ≤ 8192 * 29 := by
          simp only [scattered, decide_eq_true_eq] at hused
          omega
        refine ⟨(1, b / 8192 - 1), ?_⟩
        rw [loc_scattered, if_pos ⟨rfl, by dsimp only; omega⟩]
        dsimp only
        omega
      · rintro ⟨s, hs⟩
        rw [loc_scattered] at hs
        simp only [scattered, decide_eq_true_eq]
        split at hs <;> omega
    · have hmeta : b < 36 := by
        have hstart : scattered.dataStart = 36 := by decide
        omega
      simp [scattered, hmeta]
  obtain ⟨fs', hrun, -⟩ := hall scattered 2 howned ⟨⟨rfl, rfl, rfl⟩, fun _ => rfl, fun _ => rfl⟩
  have hstop : stopped (scattered.ireclaim 1 1 2) = some (.panic .logTooBig) := by
    decide +kernel
  rw [hrun] at hstop
  cases hstop

end Fs

end FogOS.Kernel
