import FogOS.Kernel.Files

/-!
# Writes whose source cannot be read

`writei` of `kernel/fs.c` copies straight into the cached block. Where the copy stops in the middle of a
block, because the next page of the source is not mapped, the block is neither logged nor counted, but the
bytes before that place are in the cache until the block is evicted.
-/

namespace FogOS.Kernel

open ByteMem

namespace Fs

variable {fs fs' : Fs} {ip : Fin ninode} {b : Nat} {src : Nat → Option UInt8} {off n tot hi : Nat} {disk : Nat → Mem}
  {out : Nat → Bool}

/-! ### Eviction -/

/-- Blocks that are not in the log are the same in the cache and on the disk. -/
def Clean (fs : Fs) (disk : Nat → Mem) : Prop := ∀ b, b ∉ fs.log.block → fs.block b = disk b

/-- The blocks `out` have been evicted from the cache and read again. Those in the log are pinned by
`bpin` and stay. -/
def evicted (fs : Fs) (disk : Nat → Mem) (out : Nat → Bool) : Fs :=
  { fs with block := fun b => if out b ∧ b ∉ fs.log.block then disk b else fs.block b }

/-- Only what has been left in the cache without being logged can get lost. -/
lemma evicted_block (h : b ∉ fs.log.block → fs.block b = disk b) : (fs.evicted disk out).block b = fs.block b := by
  unfold evicted
  dsimp only
  by_cases hout : out b ∧ b ∉ fs.log.block
  · rw [if_pos hout, h hout.2]
  · rw [if_neg hout]

lemma evicted_none (fs : Fs) (disk : Nat → Mem) : fs.evicted disk (fun _ => false) = fs := by
  simp [evicted]

/-- The byte at `x` of the file is the same for a reader. -/
def SeesSame (fs fs' : Fs) (ip : Fin ninode) (x : Nat) : Prop :=
  ∃ bytes, fs.readi ip x 1 = .ok (bytes, fs) ∧ fs'.readi ip x 1 = .ok (bytes, fs')

lemma readi_byte (h : Dense fs (fs.itable ip).d) {x : Nat} (hx : x < (fs.itable ip).d.size) :
    fs.readi ip x 1 = .ok ([fs.byteAt (fs.itable ip).d x], fs) := by
  have hsize := h.size
  rw [readi_ok h (by unfold maxfile bsize ndirect nindirect at hsize; omega)]
  congr 2
  apply List.ext_getElem
  · simp
    omega
  · intro k hk hk'
    obtain rfl : k = 0 := by simpa using hk'
    simp [content]

lemma seesSame_iff (h : Dense fs (fs.itable ip).d) (h' : Dense fs' (fs'.itable ip).d) {x : Nat}
    (hx : x < (fs.itable ip).d.size) (hx' : x < (fs'.itable ip).d.size) :
    SeesSame fs fs' ip x ↔ fs'.byteAt (fs'.itable ip).d x = fs.byteAt (fs.itable ip).d x := by
  unfold SeesSame
  rw [readi_byte h hx, readi_byte h' hx']
  constructor
  · rintro ⟨bytes, hread, hread'⟩
    have hbytes := (Prod.mk.inj (Except.ok.inj hread)).1
    have hbytes' := (Prod.mk.inj (Except.ok.inj hread')).1
    exact (List.cons.inj (hbytes'.trans hbytes.symm)).1
  · intro hsame
    exact ⟨_, rfl, by rw [hsame]⟩

/-! ### What stays -/

/-- How many bytes of the source can be read before the first that cannot, up to `n`. -/
def readable (src : Nat → Option UInt8) (n : Nat) : Nat := ((List.range n).takeWhile fun j => (src j).isSome).length

lemma readable_le (src : Nat → Option UInt8) (n : Nat) : readable src n ≤ n := (length_takeWhile_range _ n).1

lemma isSome_of_lt_readable {j : Nat} (h : j < readable src n) : (src j).isSome := (length_takeWhile_range _ n).2.1 j h

lemma readable_eq {p : Nat} (hp : p < n) (hread : ∀ j < p, (src j).isSome) (hstop : src p = none) : readable src n = p := by
  apply le_antisymm
  · by_contra hlt
    have hsome := isSome_of_lt_readable (not_le.mp hlt)
    rw [hstop] at hsome
    cases hsome
  · by_contra hlt
    have hstop' := (length_takeWhile_range (fun j => (src j).isSome) n).2.2 ((not_le.mp hlt).trans hp)
    have hsome : (src (readable src n)).isSome := hread _ (not_le.mp hlt)
    unfold readable at hsome
    rw [hstop'] at hsome
    cases hsome

/-- The source can be read, or the bytes before the place where it cannot, as far as they are in the same
block and in the file, are those that the file has there already. -/
def Harmless (fs : Fs) (ip : Fin ninode) (src : Nat → Option UInt8) (off n : Nat) : Prop :=
  readable src n < n → ∀ x, off ≤ x → (off + readable src n) / bsize * bsize ≤ x → x < off + readable src n →
    x < (fs.itable ip).d.size → src (x - off) = some (fs.byteAt (fs.itable ip).d x)

/-- The block in which the copy stopped is the only one that may have changed without being logged. -/
lemma Wrote.evicted_block (h : Wrote fs ip off n src tot hi fs') (hclean : Clean fs disk)
    (hb : hi = off + tot ∨ b ≠ fs'.fileBlock (fs'.itable ip).d ((off + tot) / bsize)) :
    (fs'.evicted disk out).block b = fs'.block b := by
  refine Fs.evicted_block fun hlog => ?_
  rw [h.data b hlog hb, hclean b fun hmem => hlog (h.log hmem)]

lemma Wrote.evicted_slot (h : Wrote fs ip off n src tot hi fs') (hclean : Clean fs disk)
    (ht : (fs.itable ip).d.type ≠ 0) (out : Nat → Bool) (k : Nat) :
    (fs'.evicted disk out).slot (fs'.itable ip).d k = fs'.slot (fs'.itable ip).d k := by
  have ht' : (fs'.inode (fs'.itable ip).inum).type ≠ 0 := by rwa [h.live.inode, h.type]
  refine slot_congr (fun _ _ => rfl) fun hind => h.evicted_block hclean (Or.inr ?_)
  rw [← h.live.inode] at hind ⊢
  exact h.owned.indirect_ne_fileBlock ht' ht' hind _

/-- After the eviction every byte is what the call left in the cache, or what it was before. -/
lemma Wrote.evicted_byte (h : Wrote fs ip off n src tot hi fs') (hclean : Clean fs disk)
    (ht : (fs.itable ip).d.type ≠ 0) (out : Nat → Bool) (x : Nat) :
    (fs'.evicted disk out).byteAt (fs'.itable ip).d x = fs'.byteAt (fs'.itable ip).d x ∨
      (fs'.evicted disk out).byteAt (fs'.itable ip).d x = fs.byteAt (fs.itable ip).d x := by
  have ht' : (fs'.inode (fs'.itable ip).inum).type ≠ 0 := by rwa [h.live.inode, h.type]
  have hfile : (fs'.evicted disk out).fileBlock (fs'.itable ip).d (x / bsize) = fs'.fileBlock (fs'.itable ip).d (x / bsize) :=
    h.evicted_slot hclean ht out _
  by_cases hnone : fs'.fileBlock (fs'.itable ip).d (x / bsize) = 0
  · rw [byteAt_none hnone, byteAt_none (hfile.trans hnone)]
    exact Or.inl rfl
  rw [byteAt_some hnone, byteAt_some (by rwa [hfile]), hfile]
  by_cases hthis : fs'.fileBlock (fs'.itable ip).d (x / bsize) = fs'.fileBlock (fs'.itable ip).d ((off + tot) / bsize)
  · by_cases hlost : hi = off + tot ∨ fs'.fileBlock (fs'.itable ip).d (x / bsize) ∈ fs'.log.block
    · refine Or.inl (congrFun ?_ _)
      rcases hlost with hhi | hlog
      · exact h.evicted_block hclean (Or.inl hhi)
      · exact Fs.evicted_block fun hnot => absurd hlog hnot
    · -- the block was there before the call, and what is on the disk is what was in it
      have hle := h.le_hi
      have hhi : off + tot < hi := by omega
      have hdiv : x / bsize = (off + tot) / bsize := by
        rw [← h.live.inode] at hnone hthis
        exact (h.owned.fileBlock_inj ht' ht' hnone hthis).2
      have hold : fs.fileBlock (fs.itable ip).d (x / bsize) ≠ 0 := by
        intro hzero
        rw [hdiv] at hzero hlost
        exact hlost (Or.inr (h.last hhi hzero))
      have hkept := h.kept _ hold
      rw [byteAt_some hold, ← hkept]
      by_cases hout : out (fs'.fileBlock (fs'.itable ip).d (x / bsize)) ∧
          fs'.fileBlock (fs'.itable ip).d (x / bsize) ∉ fs'.log.block
      · refine Or.inr (congrFun ((if_pos hout).trans ?_) _)
        exact (hclean _ fun hmem => hout.2 (h.log hmem)).symm
      · exact Or.inl (congrFun (if_neg hout) _)
  · exact Or.inl (congrFun (h.evicted_block hclean (Or.inr hthis)) _)

/-- Where the copy stopped in the middle of a block that is in the file. -/
lemma Wrote.stopped_at (h : Wrote fs ip off n src tot hi fs') (hdense : Dense fs (fs.itable ip).d) :
    (hi = off + tot ∧ ∀ x, off ≤ x → (off + readable src n) / bsize * bsize ≤ x → x < off + readable src n →
      x < (fs.itable ip).d.size → readable src n = n) ∨
      (readable src n < n ∧ hi = off + readable src n ∧ off + tot = max off ((off + readable src n) / bsize * bsize)) := by
  have hle := h.le_hi
  have hhile := h.hi_le
  rcases h.ended with ⟨hhi, hend⟩ | ⟨hlt, hnone, hstart⟩
  · refine Or.inl ⟨hhi, fun x hx hblock hlt hsize => ?_⟩
    have hread : tot ≤ readable src n := by
      by_contra hshort
      have hsome := h.source (readable src n) (by omega)
      have hstop := (length_takeWhile_range (fun j => (src j).isSome) n).2.2 (by
        change readable src n < n
        omega)
      unfold readable at hsome
      rw [hstop] at hsome
      cases hsome
    have hreadle := readable_le src n
    rcases hend with rfl | hmissing
    · exact le_antisymm hreadle hread
    · -- a block is missing, so the file ends before
      have hbelow : (off + tot) / bsize * bsize ≤ x := by
        refine le_trans ?_ hblock
        exact Nat.mul_le_mul_right _ (Nat.div_le_div_right (by omega))
      have hthere := hdense.blocks ((off + tot) / bsize) (by omega)
      have hkept := h.kept _ hthere
      rw [hmissing] at hkept
      exact absurd hkept.symm hthere
  · have hreadable : readable src n = hi - off :=
      readable_eq (by omega) (fun j hj => h.source j (by omega)) hnone
    have hhi : off + readable src n = hi := by omega
    refine Or.inr ⟨by omega, hhi.symm, ?_⟩
    rwa [hhi]

/-- What a reader sees of the file when the blocks `out` have been evicted is as before the call, but for
what the call has reported. -/
def Reported (fs fs' : Fs) (ip : Fin ninode) (disk : Nat → Mem) (off r : Nat) : Prop :=
  ∀ out x, x < (fs.itable ip).d.size → ¬ (off ≤ x ∧ x < off + r) → SeesSame fs (fs'.evicted disk out) ip x

lemma Wrote.reported_iff (h : Wrote fs ip off n src tot hi fs') (hsound : Sound fs ip) (hclean : Clean fs disk)
    (hoff : off ≤ (fs.itable ip).d.size) (hmax : off + n ≤ maxfile * bsize) :
    Reported fs fs' ip disk off tot ↔ Harmless fs ip src off n := by
  have hdense' := h.dense hsound.dense hoff hmax
  have hsize := h.size
  have hsees : ∀ out x, x < (fs.itable ip).d.size → (SeesSame fs (fs'.evicted disk out) ip x ↔
      (fs'.evicted disk out).byteAt (fs'.itable ip).d x = fs.byteAt (fs.itable ip).d x) := by
    intro out x hx
    have hdense'' : Dense (fs'.evicted disk out) ((fs'.evicted disk out).itable ip).d := by
      refine ⟨hdense'.size, fun bn hbn hzero => hdense'.blocks bn hbn ?_⟩
      exact (h.evicted_slot hclean hsound.type out (slotOf bn)).symm.trans hzero
    refine seesSame_iff hsound.dense hdense'' hx ?_
    change x < (fs'.itable ip).d.size
    omega
  constructor
  · intro hsame hstop x hx hblock hlt hin
    rcases h.stopped_at hsound.dense with ⟨-, hall⟩ | ⟨-, hhi, hstart⟩
    · exact absurd (hall x hx hblock hlt hin) hstop.ne
    · have hnow := hsame (fun _ => false) x hin (by omega)
      rw [evicted_none, seesSame_iff hsound.dense hdense' hin (by omega), h.bytes, if_pos ⟨hx, by omega⟩] at hnow
      obtain ⟨v, hv⟩ := Option.isSome_iff_exists.mp (h.source (x - off) (by omega))
      rw [hv] at hnow ⊢
      rw [← hnow]
      rfl
  · intro hharmless out x hin hout
    rw [hsees out x hin]
    rcases h.evicted_byte hclean hsound.type out x with hleft | hleft
    · rw [hleft, h.bytes]
      by_cases hx : off ≤ x ∧ x < hi
      · rcases h.stopped_at hsound.dense with ⟨hhi, -⟩ | ⟨hstop, hhi, hstart⟩
        · exact absurd (hhi ▸ hx) hout
        · have hbelow : off + tot ≤ x := by omega
          rw [if_pos hx, hharmless hstop x hx.1 (by omega) (by omega) hin]
          rfl
      · rw [if_neg hx]
    · exact hleft

/-- A write is what it reports exactly when the part of the source that was copied in vain makes no
difference. -/
theorem writei_reports_iff (h : Sound fs ip) (hclean : Clean fs disk) (hoff : off < 2 ^ 32) (hn : n < 2 ^ 32) {r : Int}
    (hwrite : fs.writei ip src off n = .ok (r, fs')) (hr : 0 ≤ r) :
    Reported fs fs' ip disk off r.toNat ↔ Harmless fs ip src off n := by
  have hlimits : ¬ ((fs.itable ip).d.size < off ∨ maxfile * bsize < off + n) := by
    intro hout
    rw [writei_rejects hoff hn hout] at hwrite
    have hr' := (Prod.mk.inj (Except.ok.inj hwrite)).1
    omega
  rw [not_or, not_lt, not_lt] at hlimits
  obtain ⟨tot, hi, fs1, L, hgives, hwrote, -⟩ := writei_ok h.owned h.live h.type h.opened src hlimits.1 hlimits.2
    (marks_of_bitmapBlocks (Finset.Subset.refl _) _) le_rfl
  obtain ⟨rfl, rfl⟩ := Prod.mk.inj (hgives.unique hwrite)
  exact hwrote.reported_iff h hclean hlimits.1 hlimits.2

/-- A disk of 64 blocks with a file of four zeros, which is open. -/
def fourZeros : Fs :=
  { oneFile with
    dinode := fun i => ⟨if i = 2 then 2 else 0, 1, 4, fun k => if k = 0 then 10 else 0⟩
    bitmap := fun b => decide (b < 4 ∨ b = 10)
    itable := fun ip => ⟨1, 2, if ip.val = 0 then 1 else 0, false, 0, true, ⟨2, 1, 4, fun k => if k = 0 then 10 else 0⟩⟩ }

instance : Inhabited Fs := ⟨fourZeros⟩

lemma sound_fourZeros : Sound fourZeros ⟨0, by decide⟩ := by
  have haddr : ∀ j k, (fourZeros.inode j).addrs k = if k = 0 then 10 else 0 := by
    intro j k
    unfold Fs.inode
    split <;> rfl
  have htype : ∀ j, (fourZeros.inode j).type ≠ 0 ↔ j = 2 := by
    intro j
    unfold Fs.inode
    split
    · next jp hjp =>
      have hfound := List.find?_some hjp
      simp only [decide_eq_true_eq] at hfound
      exact iff_of_true (by simp [fourZeros]) hfound.2.2.symm
    · simp [fourZeros]
  have hloc : ∀ j k, fourZeros.loc fourZeros.inode (j, k) = if j = 2 ∧ k = 0 then 10 else 0 := by
    intro j k
    unfold loc slot
    dsimp only
    rw [haddr, haddr]
    by_cases hj : j = 2
    · rw [if_neg ((htype j).mpr hj)]
      by_cases hk : k = 0
      · simp [hj, hk]
      · simp [hk, ndirect]
    · rw [if_pos (by simpa using fun ht => hj ((htype j).mp ht)), if_neg fun hboth => hj hboth.1]
  refine ⟨⟨⟨?_, ?_, fun b hb => ?_⟩, fun b hb _ => ?_, by decide⟩, ⟨by decide, rfl, fun jp href _ => ?_⟩, by decide,
    ⟨by decide, fun bn hbn => ?_⟩, ⟨by decide, List.nodup_nil⟩⟩
  · rintro ⟨j, k⟩ hs
    rw [hloc] at hs ⊢
    by_cases hthis : j = 2 ∧ k = 0
    · rw [if_pos hthis]
      exact ⟨by decide, by decide⟩
    · exact absurd (if_neg hthis) hs
  · rintro ⟨j, k⟩ ⟨j', k'⟩ hs heq
    rw [hloc, hloc] at heq
    rw [hloc] at hs
    by_cases hthis : j = 2 ∧ k = 0
    · rw [if_pos hthis] at heq
      by_cases hthat : j' = 2 ∧ k' = 0
      · rw [hthis.1, hthis.2, hthat.1, hthat.2]
      · rw [if_neg hthat] at heq
        cases heq
    · exact absurd (if_neg hthis) hs
  · have hdata : 4 ≤ b := hb.1
    have hmark : fourZeros.bitmap b = true ↔ b = 10 := by
      simp [fourZeros]
      omega
    rw [hmark]
    constructor
    · rintro rfl
      exact ⟨(2, 0), by rw [hloc]; rfl⟩
    · rintro ⟨⟨j, k⟩, hs⟩
      rw [hloc] at hs
      by_cases hthis : j = 2 ∧ k = 0
      · rw [if_pos hthis] at hs
        exact hs.symm
      · rw [if_neg hthis] at hs
        omega
  · have hmeta : b < 4 := hb
    simp [fourZeros, hmeta]
  · by_contra hne
    have hzero : jp.val ≠ 0 := fun hv => hne (Fin.ext hv)
    simp [fourZeros, hzero] at href
  · have hbn' : bn * bsize < 4 := hbn
    obtain rfl : bn = 0 := by
      unfold bsize at hbn'
      omega
    decide

lemma clean_fourZeros : Clean fourZeros fourZeros.block := fun _ _ => rfl

/-- The copy stops after three bytes: two are those of the file, and the third lies behind its end. -/
theorem writei_reports_unread : ∃ fs,
    fourZeros.writei ⟨0, by decide⟩ (fun j => [0, 0, 9][j]?) 2 5 = .ok (0, fs) ∧
    Reported fourZeros fs ⟨0, by decide⟩ fourZeros.block 2 0 := by
  have hwrite : fourZeros.writei ⟨0, by decide⟩ (fun j => [0, 0, 9][j]?) 2 5 = .ok ((0 : Int), _) :=
    eq_ok_pair (a := 0) (by decide) (by decide +kernel)
  refine ⟨_, hwrite, ?_⟩
  have hiff := writei_reports_iff sound_fourZeros clean_fourZeros (by decide) (by decide) hwrite
    (by decide)
  refine hiff.mpr fun _ x hlow _ _ hin => ?_
  have hx : x = 2 ∨ x = 3 := by
    have hsize : x < 4 := hin
    omega
  rcases hx with rfl | rfl <;> decide

/-- The second byte cannot be read: the call returns 0, and the first byte has changed. -/
theorem writei_misreports : ¬ ∀ (fs fs' : Fs) (ip : Fin ninode) (disk : Nat → Mem) (src : Nat → Option UInt8)
    (off n : Nat) (r : Int), Sound fs ip → Clean fs disk → off < 2 ^ 32 → n < 2 ^ 32 →
    fs.writei ip src off n = .ok (r, fs') → 0 ≤ r → Reported fs fs' ip disk off r.toNat := by
  intro hall
  have hwrite : fourZeros.writei ⟨0, by decide⟩ (fun j => if j = 0 then some 7 else none) 0 2 = .ok ((0 : Int), _) :=
    eq_ok_pair (a := 0) (by decide) (by decide +kernel)
  obtain ⟨bytes, hbefore, hafter⟩ := hall _ _ _ _ _ _ _ _ sound_fourZeros clean_fourZeros (by decide) (by decide) hwrite
    le_rfl (fun _ => false) 0 (by decide) (by decide)
  rw [evicted_none] at hafter
  have hold : (returned (fourZeros.readi ⟨0, by decide⟩ 0 1)).1 = [0] := by decide +kernel
  have hnew : (returned ((returned (fourZeros.writei ⟨0, by decide⟩ (fun j => if j = 0 then some 7 else none) 0 2)).2.readi
      ⟨0, by decide⟩ 0 1)).1 = [7] := by decide +kernel
  rw [hbefore] at hold
  rw [hafter] at hnew
  simp [returned] at hold hnew
  rw [hold] at hnew
  cases hnew

end Fs

end FogOS.Kernel
