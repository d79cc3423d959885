import FogOS.Umalloc.Repr

/-!
# The list operations on represented heaps

One specification for each of the small functions of the allocator: which blocks and which free
list the heap represents afterwards. All of them write only to headers and free-list nodes.
-/

namespace FogOS.Umalloc

open ByteMem Ring

/-- `s'` has the break and the algorithm of `s` and differs from it only at bytes in `own`. -/
structure Keeps (own : Nat → Prop) (s s' : State) : Prop where
  brk : s'.brk = s.brk
  fsm : s'.currentFsm = s.currentFsm
  frame : Mem.Frame own s.mem s'.mem

namespace Keeps

variable {own own' : Nat → Prop} {s s' s'' : State}

lemma refl (own : Nat → Prop) (s : State) : Keeps own s s := ⟨rfl, rfl, Mem.Frame.refl _ _⟩

lemma trans (h : Keeps own s s') (h' : Keeps own s' s'') : Keeps own s s'' :=
  ⟨h'.brk.trans h.brk, h'.fsm.trans h.fsm, h.frame.trans h'.frame⟩

lemma mono (h : Keeps own s s') (hsub : ∀ x, own x → own' x) : Keeps own' s s' :=
  ⟨h.brk, h.fsm, h.frame.mono hsub⟩

lemma store_header {as fs : List Nat} {f : Field} {a v : Nat} (ha : a ∈ 0 :: as)
    (hf : f.InHeader) : Keeps (Meta as fs) s (s.store f a v) :=
  ⟨State.store_brk, State.store_currentFsm, State.store_frame_header (List.mem_cons.mp ha) hf⟩

lemma store_node {as fs : List Nat} {f : Field} {a v : Nat} (ha : a ∈ 0 :: fs)
    (hf : ¬ f.InHeader) : Keeps (Meta as fs) s (s.store f a v) :=
  ⟨State.store_brk, State.store_currentFsm, State.store_frame_node (List.mem_cons.mp ha) hf⟩

end Keeps

/-- The addresses of a list of blocks. -/
def addrs (bs : List Block) : List Nat := bs.map Block.addr

@[simp] lemma addrs_nil : addrs [] = [] := rfl
@[simp] lemma addrs_cons (b : Block) (bs : List Block) : addrs (b :: bs) = b.addr :: addrs bs := rfl
@[simp] lemma addrs_append (bs cs : List Block) : addrs (bs ++ cs) = addrs bs ++ addrs cs :=
  List.map_append

lemma mem_addrs {b : Block} {bs : List Block} (h : b ∈ bs) : b.addr ∈ 0 :: addrs bs :=
  List.mem_cons_of_mem _ (List.mem_map_of_mem h)

variable {s : State} {bs l r : List Block} {fs fl fr : List Nat} {b c d : Block} {a p n : Nat}

/-! ### Size and free bit -/

lemma Block.fits_of_size_eq {b c : Block} (h : b.Fits) (hs : c.size = b.size) : c.Fits := by
  unfold Block.Fits at *
  rw [hs]
  exact h

lemma Rep.setFree (h : Rep s (l ++ c :: r) fs) :
    Rep (s.setFree c.addr) (l ++ { c with free := true } :: r) fs ∧
      Keeps (Meta (addrs (l ++ c :: r)) fs) s (s.setFree c.addr) := by
  have hc : c ∈ l ++ c :: r := by simp
  have heq : s.setFree c.addr = s.store .size c.addr (Block.word { c with free := true }) := by
    unfold State.setFree
    rw [State.putSize_eq (h.ne_zero hc), h.sizeField_eq hc, or_one_eq]
    have := (h.fits c hc).1
    have := c.free.toNat_le
    congr 1
    simp only [Block.word, Bool.toNat_true]
    omega
  rw [heq]
  exact ⟨h.store_size rfl (Block.fits_of_size_eq (h.fits c hc) rfl),
    Keeps.store_header (mem_addrs hc) (Or.inl rfl)⟩

lemma Rep.setUsed (h : Rep s (l ++ c :: r) fs) :
    Rep (s.setUsed c.addr) (l ++ { c with free := false } :: r) fs ∧
      Keeps (Meta (addrs (l ++ c :: r)) fs) s (s.setUsed c.addr) := by
  have hc : c ∈ l ++ c :: r := by simp
  have heq : s.setUsed c.addr = s.store .size c.addr (Block.word { c with free := false }) := by
    unfold State.setUsed
    rw [State.putSize_eq (h.ne_zero hc), h.sizeField_eq hc, and_mask_eq _ (h.fits c hc).word_lt]
    have := (h.fits c hc).1
    have := c.free.toNat_le
    congr 1
    simp only [Block.word, Bool.toNat_false]
    omega
  rw [heq]
  exact ⟨h.store_size rfl (Block.fits_of_size_eq (h.fits c hc) rfl),
    Keeps.store_header (mem_addrs hc) (Or.inl rfl)⟩

/-- `set_size` keeps the free bit. -/
lemma Rep.setSize {size : Nat} (h : Rep s (l ++ c :: r) fs)
    (hfit : Block.Fits { c with size := size }) :
    Rep (s.setSize c.addr size) (l ++ { c with size := size } :: r) fs ∧
      Keeps (Meta (addrs (l ++ c :: r)) fs) s (s.setSize c.addr size) := by
  have hc : c ∈ l ++ c :: r := by simp
  have hput : s.putSize c.addr size =
      s.store .size c.addr (Block.word { c with size := size, free := false }) := by
    rw [State.putSize_eq (h.ne_zero hc)]
    simp [Block.word]
  have h1 : Rep (s.store .size c.addr (Block.word { c with size := size, free := false }))
      (l ++ { c with size := size, free := false } :: r) fs := h.store_size rfl hfit
  have k1 : Keeps (Meta (addrs (l ++ c :: r)) fs) s (s.putSize c.addr size) := by
    rw [hput]
    exact Keeps.store_header (mem_addrs hc) (Or.inl rfl)
  rw [← hput] at h1
  unfold State.setSize
  rw [h.isFree_eq hc]
  cases hfree : c.free with
  | false =>
    refine ⟨?_, k1⟩
    simpa [hfree] using h1
  | true =>
    obtain ⟨h2, k2⟩ := h1.setFree
    refine ⟨?_, k1.trans ?_⟩
    · simpa [hfree] using h2
    · simpa using k2

/-! ### Free list -/

lemma State.freeListRemove_eq (ha : a ≠ 0) : s.freeListRemove a =
    (let s' := s.store .nextFree (s.field .prevFree a) (s.field .nextFree a)
     if s'.field .nextFree a ≠ 0 then
       s'.store .prevFree (s'.field .nextFree a) (s'.field .prevFree a)
     else s') := by
  have hset : (if s.prevFree a ≠ 0 then s.putNextFree (s.prevFree a) (s.nextFree a)
      else { s with freeHead := s.nextFree a }) =
      s.store .nextFree (s.field .prevFree a) (s.field .nextFree a) := by
    rw [State.prevFree_eq ha, State.nextFree_eq ha]
    by_cases hp : s.field .prevFree a = 0
    · simp [hp, State.store, State.setRoot]
    · simp [hp, State.putNextFree_eq]
  simp only [State.freeListRemove, hset]
  set s' := s.store .nextFree (s.field .prevFree a) (s.field .nextFree a)
  rw [State.nextFree_eq ha, State.prevFree_eq ha]
  by_cases hn : s'.field .nextFree a = 0
  · simp [hn]
  · simp [hn, State.putPrevFree_eq]

/-- `free_list_remove` makes the two neighbours of the node point at each other. The node itself
need not be on the list any more: only its own links are read. -/
lemma Rep.freeListRemove_fields (h : Rep s bs fs) (ha : a ∈ addrs bs)
    (hp : s.field .prevFree a = p) (hn : s.field .nextFree a = n)
    (hpm : p ∈ 0 :: fs) (hnm : n ∈ 0 :: fs) (hpa : p ≠ a) (hna : n ≠ a) :
    (∀ g, ∀ x ∈ 0 :: addrs bs, (s.freeListRemove a).field g x =
      if g = .nextFree ∧ x = p then n
      else if g = .prevFree ∧ x = n ∧ n ≠ 0 then p else s.field g x) ∧
    Keeps (Meta (addrs bs) fs) s (s.freeListRemove a) := by
  have ham : a ∈ 0 :: addrs bs := List.mem_cons_of_mem _ ha
  have ha0 : a ≠ 0 := by
    rintro rfl
    exact (List.nodup_cons.mp h.nodup_addr).1 ha
  have hpb := h.mem_addr hpm
  have hnb := h.mem_addr hnm
  have hf1 : ∀ g, ∀ x ∈ 0 :: addrs bs, (s.store .nextFree p n).field g x =
      if g = .nextFree ∧ x = p then n else s.field g x := fun g x hx =>
    h.field_store hpb hx (h.addr_lt hnb) (Or.inr (Or.inr (Or.inr rfl)))
  have hna1 : (s.store .nextFree p n).field .nextFree a = n := by
    rw [hf1 _ _ ham]
    simp [hpa.symm, hn]
  have hpa1 : (s.store .nextFree p n).field .prevFree a = p := by
    rw [hf1 _ _ ham]
    simp [hp]
  have k1 : Keeps (Meta (addrs bs) fs) s (s.store .nextFree p n) :=
    Keeps.store_node hpm (by simp [Field.InHeader])
  rw [State.freeListRemove_eq ha0, hp, hn]
  simp only [hna1, hpa1]
  by_cases hn0 : n = 0
  · simp only [hn0, ne_eq, not_true_eq_false, if_false] at hf1 k1 ⊢
    refine ⟨fun g x hx => ?_, k1⟩
    rw [hf1 g x hx]
    simp
  · rw [if_pos hn0]
    refine ⟨fun g x hx => ?_, k1.trans (Keeps.store_node hnm (by simp [Field.InHeader]))⟩
    rw [State.field_store (h.apart hnb hx) (h.addr_lt hpb) (Or.inl hn0), hf1 g x hx]
    by_cases hg : g = .prevFree
    · subst hg
      simp [hn0]
    · simp [hg]

/-- A change of free-list links that touches neither the block list nor any size. -/
lemma Rep.of_free_links {s' : State} {fs' : List Nat} (h : Rep s bs fs)
    (hf : ∀ g, g.InHeader → ∀ x ∈ 0 :: addrs bs, s'.field g x = s.field g x)
    (hring : IsRing (s'.field .nextFree) (s'.freePrev fs') 0 fs') (hnd : fs'.Nodup)
    (hsub : ∀ a ∈ fs', a ∈ addrs bs) : Rep s' bs fs' where
  ring := h.ring.congr (hf _ (Or.inr (Or.inl rfl))) (hf _ (Or.inr (Or.inr rfl)))
  freeRing := hring
  header b hb := by rw [hf _ (Or.inl rfl) _ (mem_addrs hb), h.header b hb]
  fits := h.fits
  spaced := h.spaced
  addr := h.addr
  nodup := hnd
  sub := hsub

lemma mem_append_insert {α : Type*} {x : α} {k m : List α} (h : x ∈ k ++ m) (a : α) :
    x ∈ k ++ a :: m :=
  (List.Sublist.append_left (List.sublist_cons_self a m) k).subset h

lemma mem_cons_append_left {α : Type*} {x y : α} {k m : List α} (h : x ∈ y :: (k ++ m)) (a : α) :
    x ∈ y :: (k ++ a :: m) :=
  @mem_append_insert _ _ (y :: k) m h a

lemma getLastD_mem (k : List Nat) : k.getLastD 0 ∈ 0 :: k := by
  rcases List.eq_nil_or_concat k with rfl | ⟨k, x, rfl⟩ <;> simp

lemma headD_mem (k : List Nat) : k.headD 0 ∈ 0 :: k := by
  cases k <;> simp

lemma getLastD_mem_append (k m : List Nat) : k.getLastD 0 ∈ 0 :: (k ++ m) :=
  ((List.sublist_append_left k m).cons_cons 0).subset (getLastD_mem k)

lemma headD_mem_append (k m : List Nat) : m.headD 0 ∈ 0 :: (k ++ m) :=
  ((List.sublist_append_right k m).cons_cons 0).subset (headD_mem m)

/-- Removing a node from the free list. Its own links stay as they were. -/
lemma Rep.freeListRemove (h : Rep s bs (fl ++ a :: fr)) :
    Rep (s.freeListRemove a) bs (fl ++ fr) ∧
      Keeps (Meta (addrs bs) (fl ++ a :: fr)) s (s.freeListRemove a) ∧
      (s.freeListRemove a).field .prevFree a = fl.getLastD 0 ∧
      (s.freeListRemove a).field .nextFree a = fr.headD 0 := by
  have ha0 := h.ne_zero_of_free (a := a) (by simp)
  have ham : a ∈ addrs bs := h.sub a (by simp)
  have hnd := h.nodup_free
  have hnd' : (a :: (fl ++ fr)).Nodup := List.nodup_middle.mp h.nodup
  have hn : s.field .nextFree a = fr.headD 0 := h.freeRing.nx_eq
  have hp : s.field .prevFree a = fl.getLastD 0 := by
    have h1 := h.freeRing.pv_eq
    rwa [State.freePrev, if_neg ha0] at h1
  have hnot : a ∉ 0 :: (fl ++ fr) := by
    simp only [List.mem_cons, not_or]
    exact ⟨ha0, (List.nodup_cons.mp hnd').1⟩
  have hpm : fl.getLastD 0 ∈ 0 :: (fl ++ fr) := getLastD_mem_append fl fr
  have hnm : fr.headD 0 ∈ 0 :: (fl ++ fr) := headD_mem_append fl fr
  -- the ghost tail changes exactly when the removed node was the last one
  have htail : (fl ++ fr).getLastD 0 =
      if 0 = fr.headD 0 then fl.getLastD 0 else (fl ++ a :: fr).getLastD 0 := by
    cases fr with
    | nil => simp
    | cons y fr =>
      have hy0 : 0 ≠ y := fun h0 => by simp [← h0] at hnd
      simp [hy0, List.getLastD_eq_getLast?]
  generalize fl.getLastD 0 = p at *
  generalize fr.headD 0 = n at *
  have hpa : p ≠ a := fun heq => hnot (heq ▸ hpm)
  have hna : n ≠ a := fun heq => hnot (heq ▸ hnm)
  obtain ⟨hf, hk⟩ := h.freeListRemove_fields ham hp hn (mem_cons_append_left hpm a)
    (mem_cons_append_left hnm a) hpa hna
  refine ⟨h.of_free_links ?_ ?_ (List.nodup_cons.mp hnd').2 fun x hx => ?_, hk, ?_, ?_⟩
  · intro g hg x hx
    rw [hf g x hx]
    rcases hg with rfl | rfl | rfl <;> simp
  · refine h.freeRing.unlink hnd (fun x hx => ?_) fun x hx => ?_
    · rw [hf _ x (h.mem_addr (mem_cons_append_left hx a)), Function.update_apply]
      simp [State.freePrev, ha0, hp, hn]
    · rw [State.freePrev, hf _ x (h.mem_addr (mem_cons_append_left hx a)), Function.update_apply]
      simp only [State.freePrev, if_neg ha0, hp, hn, htail]
      by_cases hx0 : x = 0
      · simp [hx0]
      · by_cases hxn : x = n
        · subst hxn
          simp [hx0]
        · simp [hx0, hxn]
  · exact h.sub x (mem_append_insert hx a)
  · rw [hf _ _ (List.mem_cons_of_mem _ ham)]
    simp [hp, hna.symm]
  · rw [hf _ _ (List.mem_cons_of_mem _ ham)]
    simp [hn, hpa.symm]

/-- Removing a node a second time: its stale links still name its old neighbours, which already
point at each other. -/
lemma Rep.freeListRemove_stale (h : Rep s bs (fl ++ fr)) (ha : a ∈ addrs bs)
    (hnot : a ∉ fl ++ fr) (hp : s.field .prevFree a = fl.getLastD 0)
    (hn : s.field .nextFree a = fr.headD 0) :
    Rep (s.freeListRemove a) bs (fl ++ fr) ∧
      Keeps (Meta (addrs bs) (fl ++ fr)) s (s.freeListRemove a) := by
  have ha0 : a ≠ 0 := by
    rintro rfl
    exact (List.nodup_cons.mp h.nodup_addr).1 ha
  have hpm : fl.getLastD 0 ∈ 0 :: (fl ++ fr) := getLastD_mem_append fl fr
  have hnm : fr.headD 0 ∈ 0 :: (fl ++ fr) := headD_mem_append fl fr
  have hnot' : a ∉ 0 :: (fl ++ fr) := by
    simp only [List.mem_cons, not_or]
    exact ⟨ha0, hnot⟩
  obtain ⟨hf, hk⟩ := h.freeListRemove_fields ha hp hn hpm hnm (fun heq => hnot' (heq ▸ hpm))
    (fun heq => hnot' (heq ▸ hnm))
  -- the links that are written already have these values
  have hseam : s.field .nextFree (fl.getLastD 0) = fr.headD 0 ∧
      (fr.headD 0 ≠ 0 → s.field .prevFree (fr.headD 0) = fl.getLastD 0) := by
    constructor
    · rcases List.eq_nil_or_concat fl with rfl | ⟨k, y, rfl⟩
      · simpa using h.freeRing.nx_nil
      · rw [List.concat_eq_append, List.append_assoc] at h
        simpa using h.freeRing.nx_eq
    · intro hne
      cases fr with
      | nil => simp at hne
      | cons y fr =>
        have hy0 : y ≠ 0 := hne
        have h1 := h.freeRing.pv_eq
        rw [State.freePrev, if_neg hy0] at h1
        exact h1
  refine ⟨h.congr fun g x hx => ?_, hk⟩
  rw [hf g x hx]
  split
  · next hc => rw [hc.1, hc.2, hseam.1]
  · split
    · next hc => rw [hc.1, hc.2.1, hseam.2 hc.2.2]
    · rfl

/-- Writing the free-list links of a block that is not on the free list. -/
lemma Rep.store_node {f : Field} {v : Nat} (h : Rep s bs fs) (ha : a ∈ addrs bs) (hnot : a ∉ fs)
    (hf : ¬ f.InHeader) (hv : v < 2 ^ 64) : Rep (s.store f a v) bs fs := by
  have ha0 : a ≠ 0 := by
    rintro rfl
    exact (List.nodup_cons.mp h.nodup_addr).1 ha
  have hfs : ∀ g, ∀ x ∈ 0 :: addrs bs, (s.store f a v).field g x =
      if g = f ∧ x = a then v else s.field g x := fun g x hx =>
    h.field_store (List.mem_cons_of_mem _ ha) hx hv (Or.inl ha0)
  have hne : ∀ x ∈ 0 :: fs, x ≠ a := by
    rintro x hx rfl
    rcases List.mem_cons.mp hx with hx | hx
    · exact ha0 hx
    · exact hnot hx
  refine h.of_free_links (fun g hg x hx => ?_) ?_ h.nodup h.sub
  · rw [hfs g x hx, if_neg]
    rintro ⟨rfl, -⟩
    exact hf hg
  · refine h.freeRing.congr (fun x hx => ?_) fun x hx => ?_
    · rw [hfs _ x (h.mem_addr hx), if_neg fun hc => hne x hx hc.2]
    · simp only [State.freePrev, hfs _ x (h.mem_addr hx), hne x hx, and_false, if_false]

/-- The list of nodes is shorter than the fuel of a walk over it. -/
lemma Rep.length_lt (h : Rep s bs fs) (hnd : fl.Nodup) (hsub : ∀ a ∈ fl, a ∈ addrs bs) :
    fl.length < addresses := by
  have hlt : ∀ x ∈ fl, x < 2 ^ 63 := by
    intro x hx
    obtain ⟨b, hb, rfl⟩ := List.mem_map.mp (hsub x hx)
    exact (h.addr b hb).2
  have hcard : fl.toFinset ⊆ Finset.range (2 ^ 63) := by
    intro x hx
    rw [Finset.mem_range]
    exact hlt x (List.mem_toFinset.mp hx)
  have hle := Finset.card_le_card hcard
  rw [List.toFinset_card_of_nodup hnd, Finset.card_range] at hle
  unfold addresses
  omega

lemma Rep.freeListLast_eq (h : Rep s bs (fl ++ a :: fr)) {k : Nat} (hk : fr.length < k) :
    s.freeListLast k a = some (fr.getLastD a) := by
  induction k generalizing fl a fr with
  | zero => simp at hk
  | succ k ih =>
    unfold State.freeListLast
    rw [h.nextFree_eq]
    cases fr with
    | nil => simp
    | cons y fr =>
      have hy0 : y ≠ 0 := h.ne_zero_of_free (by simp)
      simp only [List.headD_cons, ne_eq, hy0, not_false_eq_true, if_true, List.getLastD_cons]
      rw [List.append_cons] at h
      exact ih h (by simpa using hk)

/-- Appending a block to the free list. -/
lemma Rep.freeListAdd (h : Rep s bs fs) (ha : a ∈ addrs bs) (hnot : a ∉ fs) :
    ∃ s', s.freeListAdd a = some s' ∧ Rep s' bs (fs ++ [a]) ∧
      Keeps (Meta (addrs bs) (fs ++ [a])) s s' := by
  have ham : a ∈ 0 :: addrs bs := List.mem_cons_of_mem _ ha
  have ha0 : a ≠ 0 := by
    rintro rfl
    exact (List.nodup_cons.mp h.nodup_addr).1 ha
  have halt := h.addr_lt ham
  have haf : a ∈ 0 :: (fs ++ [a]) := by simp
  set s₁ := (s.store .nextFree a 0).store .prevFree a 0 with hs₁
  have hput : (s.putNextFree a 0).putPrevFree a 0 = s₁ := by
    rw [State.putNextFree_eq ha0, State.putPrevFree_eq ha0]
  have h₁ : Rep s₁ bs fs :=
    (h.store_node ha hnot (by simp [Field.InHeader]) (by norm_num)).store_node ha hnot
      (by simp [Field.InHeader]) (by norm_num)
  have k₁ : Keeps (Meta (addrs bs) (fs ++ [a])) s s₁ :=
    (Keeps.store_node haf (by simp [Field.InHeader])).trans
      (Keeps.store_node haf (by simp [Field.InHeader]))
  have hnext₁ : s₁.field .nextFree a = 0 := by
    rw [hs₁, State.field_store (by simp [Apart]) (by norm_num) (Or.inl ha0)]
    simp only [reduceCtorEq, false_and, if_false]
    exact State.field_store_same (by norm_num) (Or.inl ha0)
  have hlast : fs.getLastD 0 ∈ 0 :: (fs ++ [a]) := getLastD_mem_append fs [a]
  have hlast' : fs.getLastD 0 ∈ 0 :: addrs bs := h.mem_addr (getLastD_mem fs)
  -- the same two stores in both branches: the second is a repetition when the list is empty
  set s₂ := (s₁.store .nextFree (fs.getLastD 0) a).store .prevFree a (fs.getLastD 0) with hs₂
  have hf₂ : ∀ g, ∀ x ∈ 0 :: addrs bs, s₂.field g x =
      if g = .prevFree ∧ x = a then fs.getLastD 0
      else if g = .nextFree ∧ x = fs.getLastD 0 then a else s₁.field g x := by
    intro g x hx
    rw [hs₂, State.field_store (h.apart ham hx) (h.addr_lt hlast') (Or.inl ha0),
      h₁.field_store hlast' hx halt (Or.inr (Or.inr (Or.inr rfl)))]
  have hres : ∃ s', s.freeListAdd a = some s' ∧ Keeps (Meta (addrs bs) (fs ++ [a])) s s' ∧
      ∀ g, ∀ x ∈ 0 :: addrs bs, s'.field g x = s₂.field g x := by
    have k₂ : Keeps (Meta (addrs bs) (fs ++ [a])) s₁ s₂ :=
      (Keeps.store_node hlast (by simp [Field.InHeader])).trans
        (Keeps.store_node haf (by simp [Field.InHeader]))
    unfold State.freeListAdd
    simp only [hput, h₁.freeHead_eq]
    rcases List.eq_nil_or_concat fs with rfl | ⟨k, y, rfl⟩
    · refine ⟨_, rfl, ⟨k₁.brk, k₁.fsm, k₁.frame⟩, fun g x hx => ?_⟩
      have hst : ({ s₁ with freeHead := a } : State) = s₁.store .nextFree 0 a := rfl
      rw [hst, hf₂ g x hx, h₁.field_store (by simp) hx halt (Or.inr (Or.inr (Or.inr rfl)))]
      by_cases hgx : g = .prevFree ∧ x = a
      · obtain ⟨rfl, rfl⟩ := hgx
        simp only [reduceCtorEq, false_and, if_false, and_self, if_true, List.getLastD_nil]
        exact State.field_store_same (by norm_num) (Or.inl ha0)
      · simp [hgx]
    · rw [List.concat_eq_append] at *
      have hy0 : y ≠ 0 := h.ne_zero_of_free (by simp)
      have hh0 : (k ++ [y]).headD 0 ≠ 0 := by
        apply h.ne_zero_of_free
        cases k <;> simp
      have hwalk : s₁.freeListLast addresses ((k ++ [y]).headD 0) = some y := by
        cases k with
        | nil =>
          have h2 : Rep s₁ bs ([] ++ y :: []) := h₁
          simpa using h2.freeListLast_eq (k := addresses) (by unfold addresses; simp)
        | cons z k =>
          have h2 : Rep s₁ bs ([] ++ z :: (k ++ [y])) := h₁
          have hlen := h.length_lt h.nodup h.sub
          simpa using h2.freeListLast_eq (k := addresses) (by
            simp only [List.cons_append, List.length_cons] at hlen; omega)
      have hst : (s₁.putNextFree y a).putPrevFree a y = s₂ := by
        rw [State.putNextFree_eq hy0, State.putPrevFree_eq ha0, hs₂]
        simp
      rw [if_neg hh0, hwalk]
      exact ⟨_, rfl, hst ▸ k₁.trans k₂, fun g x hx => by rw [hst]⟩
  obtain ⟨s', heq, hk, hf⟩ := hres
  refine ⟨s', heq, h₁.of_free_links (fun g hg x hx => ?_) ?_ ?_ fun x hx => ?_, hk⟩
  · rw [hf g x hx, hf₂ g x hx]
    rcases hg with rfl | rfl | rfl <;> simp
  · have hnd : (0 :: (fs ++ a :: [])).Nodup := by
      have h1 := h.nodup_free
      rw [List.nodup_cons] at h1 ⊢
      refine ⟨by simp [h1.1, ha0.symm], ?_⟩
      exact List.nodup_append.mpr ⟨h1.2, by simp, by
        intro x hx y hy hxy
        rw [List.mem_singleton] at hy
        exact hnot (hy ▸ hxy ▸ hx)⟩
    have hring : IsRing (s₁.field .nextFree) (s₁.freePrev fs) 0 (fs ++ []) := by
      simpa using h₁.freeRing
    have hne : ∀ x ∈ 0 :: fs, x ≠ a := by
      rintro x hx rfl
      rcases List.mem_cons.mp hx with hx | hx
      · exact ha0 hx
      · exact hnot hx
    refine hring.link hnd ?_ ?_ (fun x hx => ?_) fun x hx => ?_
    · rw [hf _ _ ham, hf₂ _ _ ham]
      have hla : a ≠ fs.getLastD 0 := fun heq => hne _ (getLastD_mem fs) heq.symm
      simp only [reduceCtorEq, false_and, if_false, true_and, if_neg hla, hnext₁, List.headD_nil]
    · simp only [State.freePrev, if_neg ha0, hf _ _ ham, hf₂ _ _ ham, and_self, if_true]
    · rw [List.append_nil] at hx
      have hxm := h.mem_addr hx
      rw [hf _ _ hxm, hf₂ _ _ hxm, Function.update_apply]
      simp only [reduceCtorEq, false_and, if_false, true_and]
    · rw [List.append_nil] at hx
      have hxm := h.mem_addr hx
      simp only [State.freePrev, hf _ _ hxm, hf₂ _ _ hxm, Function.update_apply, List.headD_nil,
        hne x hx, and_false, if_false, reduceCtorEq, false_and]
      by_cases hx0 : x = 0
      · simp [hx0]
      · simp [hx0]
  · exact List.nodup_append.mpr ⟨h.nodup, by simp, by
      intro x hx y hy hxy
      rw [List.mem_singleton] at hy
      exact hnot (hy ▸ hxy ▸ hx)⟩
  · rcases List.mem_append.mp hx with hx | hx
    · exact h.sub x hx
    · rw [List.mem_singleton.mp hx]
      exact ha

/-! ### Block list -/

/-- A change of headers that touches no free-list node. -/
lemma Rep.of_block_links {s' : State} {bs' : List Block} (h : Rep s bs fs)
    (hf : ∀ g, ¬ g.InHeader → ∀ x ∈ fs, s'.field g x = s.field g x)
    (hhead : s'.freeHead = s.freeHead)
    (hring : IsRing (s'.field .next) (s'.field .prev) 0 (addrs bs'))
    (hheader : ∀ b ∈ bs', s'.field .size b.addr = b.word ∧ b.Fits)
    (hspaced : bs'.Pairwise fun b c => b.addr + 48 ≤ c.addr)
    (haddr : ∀ b ∈ bs', 0 < b.addr ∧ b.addr < 2 ^ 63)
    (hsub : ∀ a ∈ fs, a ∈ addrs bs') : Rep s' bs' fs where
  ring := hring
  freeRing := by
    have hnext : ∀ x ∈ 0 :: fs, s'.field .nextFree x = s.field .nextFree x := by
      intro x hx
      rcases List.mem_cons.mp hx with rfl | hx
      · exact hhead
      · exact hf _ (by simp [Field.InHeader]) x hx
    refine h.freeRing.congr hnext fun x hx => ?_
    unfold State.freePrev
    rcases List.mem_cons.mp hx with rfl | hx
    · simp
    · rw [hf _ (by simp [Field.InHeader]) x hx]
  header b hb := (hheader b hb).1
  fits b hb := (hheader b hb).2
  spaced := hspaced
  addr := haddr
  nodup := h.nodup
  sub := hsub

lemma State.store_freeHead {f : Field} {v : Nat} (hf : f.InHeader) :
    (s.store f a v).freeHead = s.freeHead := by
  unfold State.store State.setRoot State.put
  split
  · rcases hf with rfl | rfl | rfl <;> rfl
  · rfl

lemma State.blockListRemove_eq (ha : a ≠ 0) : s.blockListRemove a =
    (let s' := s.store .next (s.field .prev a) (s.field .next a)
     s'.store .prev (s'.field .next a) (s'.field .prev a)) := by
  have hset : (if s.prevBlock a ≠ 0 then s.putNextBlock (s.prevBlock a) (s.nextBlock a)
      else { s with head := s.nextBlock a }) =
      s.store .next (s.field .prev a) (s.field .next a) := by
    rw [State.prevBlock_eq ha, State.nextBlock_eq ha]
    by_cases hp : s.field .prev a = 0
    · simp [hp, State.store, State.setRoot]
    · simp [hp, State.putNextBlock_eq]
  simp only [State.blockListRemove, hset]
  set s' := s.store .next (s.field .prev a) (s.field .next a)
  rw [State.nextBlock_eq ha, State.prevBlock_eq ha]
  by_cases hn : s'.field .next a = 0
  · simp [hn, State.store, State.setRoot]
  · simp [hn, State.putPrevBlock_eq]

/-- Taking a block that is not on the free list out of the block list. -/
lemma Rep.blockListRemove (h : Rep s (l ++ c :: r) fs) (hnot : c.addr ∉ fs) :
    Rep (s.blockListRemove c.addr) (l ++ r) fs ∧
      Keeps (Meta (addrs (l ++ c :: r)) fs) s (s.blockListRemove c.addr) := by
  have hc : c ∈ l ++ c :: r := by simp
  have hcm := mem_addrs hc
  have hc0 := h.ne_zero hc
  have hring : IsRing (s.field .next) (s.field .prev) 0 (addrs l ++ c.addr :: addrs r) := by
    simpa [addrs] using h.ring
  have hnd : (0 :: (addrs l ++ c.addr :: addrs r)).Nodup := by
    simpa [addrs] using h.nodup_addr
  have hp := hring.pv_eq
  have hn := hring.nx_eq
  have hpm : (addrs l).getLastD 0 ∈ 0 :: (addrs l ++ addrs r) :=
    getLastD_mem_append (addrs l) (addrs r)
  have hnm : (addrs r).headD 0 ∈ 0 :: (addrs l ++ addrs r) := headD_mem_append (addrs l) (addrs r)
  have hnot' : c.addr ∉ 0 :: (addrs l ++ addrs r) := by
    have h1 := (List.nodup_cons.mp (List.nodup_middle.mp (List.nodup_cons.mp hnd).2)).1
    simp only [List.mem_cons, not_or]
    exact ⟨hc0, h1⟩
  have hin : ∀ x ∈ 0 :: (addrs l ++ addrs r), x ∈ 0 :: addrs (l ++ c :: r) := by
    intro x hx
    simpa using mem_cons_append_left hx c.addr
  generalize (addrs l).getLastD 0 = p at *
  generalize (addrs r).headD 0 = n at *
  have hpc : p ≠ c.addr := fun heq => hnot' (heq ▸ hpm)
  have hnc : n ≠ c.addr := fun heq => hnot' (heq ▸ hnm)
  have hf1 : ∀ g, ∀ x ∈ 0 :: addrs (l ++ c :: r), (s.store .next p n).field g x =
      if g = .next ∧ x = p then n else s.field g x := fun g x hx =>
    h.field_store (hin _ hpm) hx (h.addr_lt (hin _ hnm)) (Or.inr (Or.inl rfl))
  have hn1 : (s.store .next p n).field .next c.addr = n := by
    rw [hf1 _ _ hcm]
    simp [hpc.symm, hn]
  have hp1 : (s.store .next p n).field .prev c.addr = p := by
    rw [hf1 _ _ hcm]
    simp [hp]
  rw [State.blockListRemove_eq hc0, hp, hn]
  simp only [hn1, hp1]
  have hf : ∀ g, ∀ x ∈ 0 :: addrs (l ++ c :: r),
      ((s.store .next p n).store .prev n p).field g x =
        if g = .prev ∧ x = n then p else if g = .next ∧ x = p then n else s.field g x := by
    intro g x hx
    rw [State.field_store (h.apart (hin _ hnm) hx) (h.addr_lt (hin _ hpm))
      (Or.inr (Or.inr (Or.inl rfl))), hf1 g x hx]
  have hsubl : (l ++ r).Sublist (l ++ c :: r) := List.Sublist.append_left (by simp) l
  refine ⟨h.of_block_links (fun g hg x hx => ?_) ?_ ?_ (fun b hb => ?_)
    (h.spaced.sublist hsubl) (fun b hb => h.addr b (hsubl.subset hb)) (fun x hx => ?_), ?_⟩
  · rw [hf g x (List.mem_cons_of_mem _ (h.sub x hx))]
    cases g <;> simp_all [Field.InHeader]
  · rw [State.store_freeHead (Or.inr (Or.inr rfl)), State.store_freeHead (Or.inr (Or.inl rfl))]
  · rw [addrs_append]
    refine hring.unlink hnd (fun x hx => ?_) fun x hx => ?_
    · rw [hf _ x (hin x hx), Function.update_apply]
      simp [hp, hn]
    · rw [hf _ x (hin x hx), Function.update_apply]
      simp [hp, hn]
  · have hb' := hsubl.subset hb
    rw [hf _ _ (mem_addrs hb')]
    simp [h.header b hb', h.fits b hb']
  · have := h.sub x hx
    simp only [addrs_append, List.mem_append, List.map_append, List.map_cons, List.mem_cons]
      at this ⊢
    rcases this with hx' | rfl | hx'
    · exact Or.inl hx'
    · exact absurd hx hnot
    · exact Or.inr hx'
  · have hpm' := hin _ hpm
    have hnm' := hin _ hnm
    exact (Keeps.store_header hpm' (Or.inr (Or.inl rfl))).trans
      (Keeps.store_header hnm' (Or.inr (Or.inr rfl)))

/-- Linking a new block in between two neighbours. -/
lemma Rep.insert {s' : State} (h : Rep s (l ++ r) fs)
    (hsp : (l ++ d :: r).Pairwise fun b c => b.addr + 48 ≤ c.addr)
    (hd : 0 < d.addr ∧ d.addr < 2 ^ 63) (hfit : d.Fits)
    (hsize : s'.field .size d.addr = d.word)
    (hnext : s'.field .next d.addr = (addrs r).headD 0)
    (hprev : s'.field .prev d.addr = (addrs l).getLastD 0)
    (hf : ∀ g, ∀ x ∈ 0 :: addrs (l ++ r), s'.field g x =
      if g = .next ∧ x = (addrs l).getLastD 0 then d.addr
      else if g = .prev ∧ x = (addrs r).headD 0 then d.addr else s.field g x) :
    Rep s' (l ++ d :: r) fs := by
  have h0 : ∀ b ∈ l ++ d :: r, 0 < b.addr ∧ b.addr < 2 ^ 63 := by
    intro b hb
    simp only [List.mem_append, List.mem_cons] at hb
    rcases hb with hb | rfl | hb
    · exact h.addr b (by simp [hb])
    · exact hd
    · exact h.addr b (by simp [hb])
  have hnd : (0 :: (addrs l ++ d.addr :: addrs r)).Nodup := by
    simpa [addrs] using Rep.nodup_of_spaced hsp fun b hb => (h0 b hb).1
  have hring : IsRing (s.field .next) (s.field .prev) 0 (addrs l ++ addrs r) := by
    simpa [addrs] using h.ring
  rw [addrs_append] at hf
  refine h.of_block_links (fun g hg x hx => ?_) ?_ ?_ (fun b hb => ?_) hsp h0 fun x hx => ?_
  · have hxm : x ∈ 0 :: (addrs l ++ addrs r) := by
      simpa [addrs] using List.mem_cons_of_mem 0 (h.sub x hx)
    rw [hf g x hxm]
    cases g <;> simp_all [Field.InHeader]
  · have := hf .nextFree 0 (by simp)
    simpa [State.field, State.root] using this
  · rw [addrs_append, addrs_cons]
    refine hring.link hnd hnext hprev (fun x hx => ?_) fun x hx => ?_
    · rw [hf _ x hx, Function.update_apply]
      simp
    · rw [hf _ x hx, Function.update_apply]
      simp
  · simp only [List.mem_append, List.mem_cons] at hb
    rcases hb with hb | rfl | hb
    · have hb' : b ∈ l ++ r := by simp [hb]
      have hbm := mem_addrs hb'
      rw [addrs_append] at hbm
      rw [hf _ _ hbm]
      simp [h.header b hb', h.fits b hb']
    · exact ⟨hsize, hfit⟩
    · have hb' : b ∈ l ++ r := by simp [hb]
      have hbm := mem_addrs hb'
      rw [addrs_append] at hbm
      rw [hf _ _ hbm]
      simp [h.header b hb', h.fits b hb']
  · have hin := h.sub x hx
    rw [List.map_append] at hin
    rw [addrs_append]
    exact mem_append_insert hin d.addr

lemma Rep.blockListFind_eq {k : Nat} (h : Rep s (l ++ c :: r) fs)
    (hlt : ∀ b ∈ r, b.addr < a) (hk : r.length < k) :
    s.blockListFind a k c.addr = some ((addrs r).getLastD c.addr) := by
  induction k generalizing l c r with
  | zero => simp at hk
  | succ k ih =>
    unfold State.blockListFind
    rw [h.nextBlock_eq]
    cases r with
    | nil => simp
    | cons d r =>
      have hd0 : d.addr ≠ 0 := h.ne_zero (by simp)
      have hda : d.addr < a := hlt d (by simp)
      simp only [List.map_cons, List.headD_cons, ne_eq, hd0, not_false_eq_true, hda, and_self,
        if_true, addrs_cons, List.getLastD_cons]
      rw [List.append_cons] at h
      exact ih h (fun b hb => hlt b (by simp [hb])) (by simpa using hk)

/-- Adding a block above all others: it becomes the tail. -/
lemma Rep.blockListAdd (h : Rep s bs fs) (hab : ∀ b ∈ bs, b.addr + 48 ≤ d.addr)
    (hd : 0 < d.addr ∧ d.addr < 2 ^ 63) (hfit : d.Fits) (hsize : s.field .size d.addr = d.word) :
    ∃ s', s.blockListAdd d.addr = some s' ∧ Rep s' (bs ++ [d]) fs ∧
      Keeps (Meta (addrs (bs ++ [d])) fs) s s' := by
  have hd0 : d.addr ≠ 0 := by omega
  have hdlt : d.addr < 2 ^ 64 := by omega
  have hsp : (bs ++ [d]).Pairwise fun b c => b.addr + 48 ≤ c.addr := by
    rw [List.pairwise_append]
    exact ⟨h.spaced, by simp, fun b hb c hc => by rw [List.mem_singleton.mp hc]; exact hab b hb⟩
  have hap : ∀ x ∈ 0 :: addrs (bs ++ [d]), ∀ y ∈ 0 :: addrs (bs ++ [d]), Apart x y :=
    fun x hx y hy => Rep.apart_of_spaced hsp hx hy
  have hdm : d.addr ∈ 0 :: addrs (bs ++ [d]) := mem_addrs (by simp)
  have h0m : (0 : Nat) ∈ 0 :: addrs (bs ++ [d]) := by simp
  have hin : ∀ x ∈ 0 :: addrs bs, x ∈ 0 :: addrs (bs ++ [d]) := by
    intro x hx
    rw [addrs_append]
    exact ((List.sublist_append_left _ _).cons_cons 0).subset hx
  have hnot : ∀ x ∈ 0 :: addrs bs, x ≠ d.addr := by
    rintro x hx rfl
    rcases List.mem_cons.mp hx with hx | hx
    · exact hd0 hx
    · obtain ⟨b, hb, hbd⟩ := List.mem_map.mp hx
      have := hab b hb
      omega
  have hlm : (addrs bs).getLastD 0 ∈ 0 :: addrs bs := getLastD_mem _
  have hllt := h.addr_lt hlm
  have hnx : s.field .next ((addrs bs).getLastD 0) = 0 := by
    rcases List.eq_nil_or_concat bs with rfl | ⟨k, y, rfl⟩
    · exact h.ring.nx_nil
    · rw [List.concat_eq_append] at *
      have h1 := h.nextBlock_eq
      rw [State.nextBlock_eq (h.ne_zero (c := y) (by simp))] at h1
      simpa using h1
  -- the four stores, in an order that does not depend on the branch
  set p := (addrs bs).getLastD 0 with hp
  have hres : ∃ s', s.blockListAdd d.addr = some s' ∧
      Keeps (Meta (addrs (bs ++ [d])) fs) s s' ∧
      ∀ g, ∀ x ∈ 0 :: addrs (bs ++ [d]), s'.field g x =
        if g = .next ∧ x = p then d.addr else if g = .prev ∧ x = 0 then d.addr
        else if g = .prev ∧ x = d.addr then p else if g = .next ∧ x = d.addr then 0
        else s.field g x := by
    have hh : s.head = (addrs bs).headD 0 := h.head_eq
    unfold State.blockListAdd
    cases hbs : bs with
    | nil =>
      have hp0 : p = 0 := by rw [hp, hbs]; rfl
      rw [hbs] at hh
      have hst : (({ s with head := d.addr, tail := d.addr }.putNextBlock d.addr 0).putPrevBlock
          d.addr 0) = (((s.store .next 0 d.addr).store .prev 0 d.addr).store .next d.addr 0).store
          .prev d.addr 0 := by
        rw [State.putNextBlock_eq hd0, State.putPrevBlock_eq hd0]
        rfl
      rw [if_pos (by simpa using hh), hst]
      rw [hbs] at hdm h0m hap
      refine ⟨_, rfl, ?_, fun g x hx => ?_⟩
      · exact (((Keeps.store_header h0m (Or.inr (Or.inl rfl))).trans
          (Keeps.store_header h0m (Or.inr (Or.inr rfl)))).trans
          (Keeps.store_header hdm (Or.inr (Or.inl rfl)))).trans
          (Keeps.store_header hdm (Or.inr (Or.inr rfl)))
      · rw [State.field_store (hap _ hdm x hx) (by norm_num) (Or.inl hd0),
          State.field_store (hap _ hdm x hx) (by norm_num) (Or.inl hd0),
          State.field_store (hap _ h0m x hx) hdlt (Or.inr (Or.inr (Or.inl rfl))),
          State.field_store (hap _ h0m x hx) hdlt (Or.inr (Or.inl rfl)), hp0]
        have hd0' : ¬ (0 = d.addr) := fun h => hd0 h.symm
        by_cases hx0 : x = 0
        · subst hx0; cases g <;> simp [hd0']
        · cases g <;> simp [hx0]
    | cons c bs' =>
      rw [← hbs]
      have hc0 : c.addr ≠ 0 := h.ne_zero (by simp [hbs])
      have hhc : s.head = c.addr := by rw [hh, hbs]; rfl
      have hcd : ¬ d.addr < c.addr := by
        have := hab c (by simp [hbs])
        omega
      have hp0 : p ≠ 0 := by
        intro hp0
        have hmem : p ∈ addrs bs := by
          rw [hp, hbs]
          simp only [addrs_cons, List.getLastD_cons]
          rcases List.mem_cons.mp (getLastD_mem (addrs bs')) with h1 | h1
          · rcases List.eq_nil_or_concat (addrs bs') with h2 | ⟨k, y, h2⟩ <;> simp [h2]
          · rcases List.eq_nil_or_concat (addrs bs') with h2 | ⟨k, y, h2⟩ <;> simp [h2]
        rw [hp0] at hmem
        exact (List.nodup_cons.mp h.nodup_addr).1 hmem
      have hlen : bs'.length < addresses := by
        have h1 := h.length_lt (List.nodup_cons.mp h.nodup_addr).2 fun a ha => ha
        rw [hbs] at h1
        simp at h1
        omega
      have hwalk : s.blockListFind d.addr addresses c.addr = some p := by
        have h1 : Rep s ([] ++ c :: bs') fs := by simpa [hbs] using h
        have h2 : ∀ b ∈ bs', b.addr < d.addr := fun b hb => by
          have := hab b (by simp [hbs, hb])
          omega
        rw [h1.blockListFind_eq h2 hlen, hp, hbs, addrs_cons, List.getLastD_cons]
      rw [hhc, if_neg hc0, if_neg hcd, hwalk]
      simp only [Option.bind_eq_bind, Option.bind_some]
      have hpm := hin _ hlm
      have hnx0 : s.nextBlock p = 0 := by rw [State.nextBlock_eq hp0, hnx]
      rw [hnx0, State.putNextBlock_eq hd0, State.putPrevBlock_eq hd0]
      have hnx1 : ((s.store .next d.addr 0).store .prev d.addr p).nextBlock p = 0 := by
        rw [State.nextBlock_eq hp0, State.field_store (hap _ hdm p hpm) hllt (Or.inl hd0),
          State.field_store (hap _ hdm p hpm) (by norm_num) (Or.inl hd0)]
        simp [hnx, hnot p hlm]
      rw [hnx1]
      simp only [ne_eq, not_true_eq_false, if_false]
      have hst : ({ ((s.store .next d.addr 0).store .prev d.addr p) with tail := d.addr } : State) =
          ((s.store .next d.addr 0).store .prev d.addr p).store .prev 0 d.addr := rfl
      rw [hst, State.putNextBlock_eq hp0]
      refine ⟨_, rfl, ?_, fun g x hx => ?_⟩
      · exact (((Keeps.store_header hdm (Or.inr (Or.inl rfl))).trans
          (Keeps.store_header hdm (Or.inr (Or.inr rfl)))).trans
          (Keeps.store_header h0m (Or.inr (Or.inr rfl)))).trans
          (Keeps.store_header hpm (Or.inr (Or.inl rfl)))
      · rw [State.field_store (hap _ hpm x hx) hdlt (Or.inl hp0),
          State.field_store (hap _ h0m x hx) hdlt (Or.inr (Or.inr (Or.inl rfl))),
          State.field_store (hap _ hdm x hx) hllt (Or.inl hd0),
          State.field_store (hap _ hdm x hx) (by norm_num) (Or.inl hd0)]
  obtain ⟨s', heq, hk, hf⟩ := hres
  have hrep : Rep s (bs ++ []) fs := by simpa using h
  have hpd : d.addr ≠ p := fun heq => hnot p hlm heq.symm
  refine ⟨s', heq, hrep.insert hsp hd hfit ?_ ?_ ?_ fun g x hx => ?_, hk⟩
  · rw [hf _ _ hdm]
    simpa using hsize
  · rw [hf _ _ hdm]
    simp [hpd]
  · rw [hf _ _ hdm, ← hp]
    simp [hd0]
  · rw [List.append_nil] at hx
    rw [hf _ _ (hin x hx), ← hp]
    simp [hnot x hx]

end FogOS.Umalloc
