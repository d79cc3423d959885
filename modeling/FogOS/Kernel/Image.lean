import FogOS.Kernel.Calls
import FogOS.Kernel.Exec

/-!
# Building and committing to an image

What `kexec` does to the allocator and to the process. Until it commits it only builds a page
table of its own, which it gives up when it fails.
-/

namespace FogOS.Kernel

open ByteMem Ledger

variable {V : Arena} {held : Multiset Nat} {floor tramp tf : Nat} {s t : State} {i : Fin nproc}
  {k k' : Kmem} {pt pt' : Pagetable} {fs fs' : Fs} {ip : Fin ninode} {b : Bool} {sz sz' : Nat}

/-! ### The image -/

/-- The pages of an image of `sz` bytes are mapped, and no other user page. -/
structure Built (tramp tf sz : Nat) (pt : Pagetable) : Prop where
  top : Top tramp tf pt.leaf
  size : pages sz ≤ tfPage
  user : ∀ m, m < tfPage → (pt.leaf m ≠ none ↔ m < pages sz)

lemma Blank.built (h : Blank tramp tf pt.leaf) : Built tramp tf 0 pt := by
  have hzero : pages 0 = 0 := rfl
  refine ⟨h.top, by omega, fun m hm => ?_⟩
  rw [h.user m hm]
  simp [hzero]

namespace Built

lemma congr (h : Built tramp tf sz pt) (hleaf : pt'.leaf = pt.leaf) : Built tramp tf sz pt' := by
  refine ⟨?_, h.size, ?_⟩
  · rw [hleaf]
    exact h.top
  · rw [hleaf]
    exact h.user

/-- The image grows, or it stays as it is. -/
lemma alloc {newsz r : Nat} {xperm : Perm} (h : Built tramp tf sz pt)
    (hr : uvmalloc k pt sz newsz xperm = .ok (r, k', pt')) :
    k.Trades V k' pt.refs pt'.refs ∧ (r = 0 → Built tramp tf sz pt') ∧ (r ≠ 0 → Built tramp tf r pt') := by
  by_cases hlt : newsz < sz
  · rw [uvmalloc, if_pos hlt] at hr
    cases hr
    exact ⟨Trade.refl _ _ _, fun _ => h, fun _ => h⟩
  · obtain ⟨htr, ⟨rfl, hsz, hgrown⟩ | ⟨rfl, hleaf⟩⟩ := uvmalloc_ok (V := V) (by omega) h.size h.top hr
    · have hmono := pages_mono (show sz ≤ r by omega)
      have hnew : Built tramp tf r pt' := by
        refine ⟨hgrown.top (by omega) h.top, hsz, fun m hm => ?_⟩
        by_cases hin : pages sz ≤ m ∧ m < pages r
        · obtain ⟨pa, hpa⟩ := hgrown.mapped m hin.1 (by omega)
          simp [hpa, hin.2]
        · rw [hgrown.same m (by omega), h.user m hm]
          omega
      refine ⟨htr, fun hzero => ?_, fun _ => hnew⟩
      obtain rfl : r = sz := by omega
      exact hnew
    · exact ⟨htr, fun _ => h.congr hleaf, fun hne => absurd rfl hne⟩

end Built

/-! ### Loading -/

/-- A page that `walkaddr` finds is one of the page table's user pages. -/
lemma walkaddr_mem {va pa : Nat} (ht : Top tramp tf pt.leaf) (hva : va % pgsize = 0)
    (h : walkaddr k pt va = .ok pa) (hpa : pa ≠ 0) : pa ∈ pt.refs := by
  obtain ⟨n, rfl⟩ : ∃ n, va = n * pgsize := ⟨va / pgsize, (Nat.div_mul_cancel (Nat.dvd_of_mod_eq_zero hva)).symm⟩
  by_cases hmax : maxva ≤ n * pgsize
  · rw [walkaddr, if_pos hmax] at h
    exact absurd (pure_ok h) hpa
  · have hn := page_lt_of_maxva (not_le.mp hmax)
    rw [walkaddr_page k pt hn] at h
    cases hq : pt.leaf n with
    | none =>
      rw [hq] at h
      exact absurd (Except.ok.inj h).symm hpa
    | some q =>
      rw [hq, Option.elim_some] at h
      have hfound := Except.ok.inj h
      split at hfound
      · next hu =>
        rw [← hfound]
        exact mem_refs (ht.lt_of_user hq hu) hq
      · exact absurd hfound.symm hpa

lemma loadsegLoop_trades {va off size c j : Nat} (ht : Top tramp tf pt.leaf) (hva : va % pgsize = 0)
    (hj : j % pgsize = 0) (h : loadsegLoop pt va ip off size c k fs j = .ok (b, k', fs')) :
    k.Trades V k' pt.refs pt.refs := by
  induction c generalizing k fs j with
  | zero =>
    cases h
    exact Trade.refl _ _ _
  | succ c ih =>
    rw [loadsegLoop] at h
    obtain ⟨pa, hwalk, h⟩ := bind_ok h
    split at h
    · cases h
    · next hpa =>
      have halign : u64 (va + j) % pgsize = 0 := by
        simp only [u64, pgsize] at *
        omega
      have hmem := walkaddr_mem ht halign hwalk hpa
      dsimp only at h
      generalize (if size - j < pgsize then size - j else pgsize) = m at h
      obtain ⟨⟨bytes, fs₁⟩, -, h⟩ := bind_ok h
      have hwrite : k.Trades V (k.setPage pa (blit (k.page pa) 0 bytes)) pt.refs pt.refs :=
        Kmem.trades_setPage _ hmem
      dsimp only at h
      split at h
      · cases h
        exact hwrite
      · refine hwrite.trans (ih ?_ h)
        simp only [pgsize] at *
        omega

/-- The segments loaded so far make up an image. -/
lemma loadSegments_built {n off : Nat} (hb : Built tramp tf sz pt)
    (h : loadSegments ip n k fs pt sz off = .ok (b, sz', k', fs', pt')) :
    k.Trades V k' pt.refs pt'.refs ∧ Built tramp tf sz' pt' := by
  induction n generalizing k fs pt sz off with
  | zero =>
    cases h
    exact ⟨Trade.refl _ _ _, hb⟩
  | succ n ih =>
    rw [loadSegments] at h
    obtain ⟨⟨ph, fs₁⟩, -, h⟩ := bind_ok h
    dsimp only at h
    split at h
    · cases h
      exact ⟨Trade.refl _ _ _, hb⟩
    · split at h
      · exact ih hb h
      · split at h
        · cases h
          exact ⟨Trade.refl _ _ _, hb⟩
        · split at h
          · cases h
            exact ⟨Trade.refl _ _ _, hb⟩
          · split at h
            · cases h
              exact ⟨Trade.refl _ _ _, hb⟩
            · next halign =>
              obtain ⟨⟨sz₁, k₁, pt₁⟩, halloc, h⟩ := bind_ok h
              obtain ⟨htr, hkept, hnew⟩ := hb.alloc (V := V) halloc
              dsimp only at h
              split at h
              · next hzero =>
                cases h
                exact ⟨htr, hkept hzero⟩
              · next hpos =>
                have hb₁ := hnew hpos
                obtain ⟨⟨loaded, k₂, fs₂⟩, hload, h⟩ := bind_ok h
                have hseg : k₁.Trades V k₂ pt₁.refs pt₁.refs :=
                  loadsegLoop_trades hb₁.top (not_not.mp halign) rfl hload
                dsimp only at h
                split at h
                · cases h
                  exact ⟨htr.trans hseg, hb₁⟩
                · obtain ⟨htr', hb'⟩ := ih hb₁ h
                  exact ⟨(htr.trans hseg).trans htr', hb'⟩

/-- What finding and loading the image leads to: the processes are as before. -/
inductive Loads (V : Arena) (s : State) (tf : Nat) : Option Image → State → Prop
  | failed {k : Kmem} {fs : Fs} (htr : s.kmem.Trades V k 0 0) :
      Loads V s tf none { s with kmem := k, fs := fs }
  | done {img : Image} {k : Kmem} {fs : Fs} (htr : s.kmem.Trades V k 0 img.pagetable.refs)
      (hb : Built s.trampoline tf img.sz img.pagetable) :
      Loads V s tf (some img) { s with kmem := k, fs := fs }

lemma loadBad_ok {r : Option Image} (h : loadBad s i ip = .ok (r, t)) :
    r = none ∧ ∃ fs, t = { s with fs := fs } := by
  unfold loadBad at h
  obtain ⟨fs₁, -, h⟩ := bind_ok h
  obtain ⟨fs₂, -, h⟩ := bind_ok h
  obtain ⟨rfl, rfl⟩ := Prod.mk.inj (pure_ok h)
  exact ⟨rfl, fs₂, rfl⟩

lemma loadElf_loads {path : CStr} {argv : List CStr} {r : Option Image}
    (htf : (s.proc i).trapframe = some tf) (h : loadElf s i ip path argv = .ok (r, t)) :
    Loads V s tf r t := by
  have htf26 := tfPage_eq
  have hsame : s.kmem.Trades V s.kmem 0 0 := Trade.refl _ _ _
  unfold loadElf at h
  obtain ⟨⟨hdr, fs₁⟩, -, h⟩ := bind_ok h
  dsimp only at h
  split at h
  · obtain ⟨rfl, fs₂, rfl⟩ := loadBad_ok h
    exact .failed hsame
  · split at h
    · obtain ⟨rfl, fs₂, rfl⟩ := loadBad_ok h
      exact .failed hsame
    · obtain ⟨tf', htf', h⟩ := bind_ok h
      obtain rfl : tf = tf' := Option.some.inj (htf.symm.trans (deref_ok htf'))
      obtain ⟨⟨found, k₁⟩, hpt, h⟩ := bind_ok h
      have hblank := procPagetable_ok (V := V) hpt
      cases found with
      | none =>
        obtain ⟨rfl, fs₂, rfl⟩ := loadBad_ok h
        exact .failed hblank
      | some pt₀ =>
        obtain ⟨htr, hblank⟩ := hblank
        obtain ⟨⟨loaded, sz, k₂, fs₂, pt⟩, hload, h⟩ := bind_ok h
        obtain ⟨htr', hb⟩ := loadSegments_built (V := V) hblank.built hload
        have hsize := hb.size
        dsimp only at h
        split at h
        · obtain ⟨k₃, hfree, h⟩ := bind_ok h
          obtain ⟨rfl, fs₃, rfl⟩ := loadBad_ok h
          exact .failed ((htr.trans htr').trans (trades_procFreepagetable hb.top (by omega) hfree))
        · obtain ⟨fs₃, -, h⟩ := bind_ok h
          obtain ⟨fs₄, -, h⟩ := bind_ok h
          obtain ⟨rfl, rfl⟩ := Prod.mk.inj (pure_ok h)
          exact .done (htr.trans htr') hb

/-- The files that the `#!` lines lead through do not matter. -/
lemma Loads.of_fs {fs₀ : Fs} {r : Option Image} (h : Loads V { s with fs := fs₀ } tf r t) :
    Loads V s tf r t := by
  cases h with
  | failed htr => exact .failed htr
  | done htr hb => exact .done htr hb

lemma loadImage_loads {fuel : Nat} {path : CStr} {argv : List CStr} {r : Option Image}
    (htf : (s.proc i).trapframe = some tf) (h : loadImage fuel s i path argv = .ok (r, t)) :
    Loads V s tf r t := by
  induction fuel generalizing s path argv with
  | zero => cases h
  | succ fuel ih =>
    have hsame : s.kmem.Trades V s.kmem 0 0 := Trade.refl _ _ _
    rw [loadImage] at h
    obtain ⟨fs₁, -, h⟩ := bind_ok h
    obtain ⟨⟨found, fs₂⟩, -, h⟩ := bind_ok h
    cases found with
    | none =>
      obtain ⟨fs₃, -, h⟩ := bind_ok h
      obtain ⟨rfl, rfl⟩ := Prod.mk.inj (pure_ok h)
      exact .failed hsame
    | some ip =>
      obtain ⟨fs₃, -, h⟩ := bind_ok h
      obtain ⟨⟨first, fs₄⟩, -, h⟩ := bind_ok h
      dsimp only at h
      split at h
      · obtain ⟨rfl, fs₅, rfl⟩ := loadBad_ok h
        exact .failed hsame
      · split at h
        · obtain ⟨⟨line, fs₅⟩, -, h⟩ := bind_ok h
          have hrest := ih (s := { s with fs := fs₅ }) htf h
          exact hrest.of_fs
        · have helf : Loads V { s with fs := fs₄ } tf r t := loadElf_loads htf h
          exact helf.of_fs

/-! ### The stack -/

/-- The page of the stack. User code may write to it. -/
structure StackPage (pt : Pagetable) (n : Nat) (q : Pte) : Prop where
  pos : 0 < n
  bound : n < tfPage
  leaf : pt.leaf n = some q
  user : q.perm.u = true
  write : q.perm.w = true
  page : q.pa ≠ 0

/-- The stack pointer is in the page of the stack, or at its end. -/
def OnStack (n sp : Nat) : Prop := n * pgsize ≤ sp ∧ sp ≤ (n + 1) * pgsize

/-- Where the stack pointer goes when `len` bytes are pushed. -/
lemma OnStack.push {n sp len : Nat} (h : OnStack n sp) (hn : 0 < n ∧ n < tfPage) (hlen : len ≤ pgsize)
    (hle : n * pgsize ≤ sub64 sp len - sub64 sp len % 16) :
    ∃ off, sub64 sp len - sub64 sp len % 16 = n * pgsize + off ∧ off + len ≤ pgsize := by
  have htf := tfPage_eq
  obtain ⟨hlow, hhigh⟩ := h
  refine ⟨sub64 sp len - sub64 sp len % 16 - n * pgsize, ?_, ?_⟩
  · omega
  · simp only [sub64, pgsize] at *
    omega

/-- Bytes are pushed: they are copied to the page of the stack. -/
lemma copyout_stack {n sp : Nat} {q : Pte} {src : List UInt8} (k : Kmem) (psz : Nat)
    (ppt : Pagetable) (hs : StackPage pt n q) (h : OnStack n sp) (hsrc : src ≠ []) (hlen : src.length ≤ pgsize)
    (hle : n * pgsize ≤ sub64 sp src.length - sub64 sp src.length % 16) :
    (∃ m, copyout k psz ppt (some pt) (sub64 sp src.length - sub64 sp src.length % 16) src =
      .ok (true, k.setPage q.pa m, ppt)) ∧
      OnStack n (sub64 sp src.length - sub64 sp src.length % 16) := by
  have htf := tfPage_eq
  have hbound := hs.bound
  obtain ⟨off, heq, hoff⟩ := h.push ⟨hs.pos, hs.bound⟩ hlen hle
  rw [heq]
  refine ⟨⟨_, copyout_page (by omega) hs.leaf hs.user hs.write hs.page hoff hsrc⟩, ?_, ?_⟩
  · omega
  · rw [Nat.succ_mul]
    omega

lemma pushArgs_ok {psz n : Nat} {ppt ppt' : Pagetable} {q : Pte} {argv : List CStr} {st : Pushed}
    {r : Option Pushed} (hs : StackPage pt n q) (hsp : OnStack n st.sp) (hlen : st.ustack.length ≤ maxarg)
    (h : pushArgs psz pt (n * pgsize) argv k ppt st = .ok (r, k', ppt')) :
    ppt' = ppt ∧ k.Trades V k' pt.refs pt.refs ∧
      ∀ st', r = some st' → OnStack n st'.sp ∧ st'.ustack.length ≤ maxarg := by
  induction argv generalizing k st with
  | nil =>
    cases h
    refine ⟨rfl, Trade.refl _ _ _, ?_⟩
    rintro st' ⟨⟩
    exact ⟨hsp, hlen⟩
  | cons a argv ih =>
    have hfail : ∀ st' : Pushed, none = some st' → OnStack n st'.sp ∧ st'.ustack.length ≤ maxarg := by
      rintro st' ⟨⟩
    rw [pushArgs] at h
    split at h
    · cases h
      exact ⟨rfl, Trade.refl _ _ _, hfail⟩
    · next hmax =>
      dsimp only at h
      split at h
      · cases h
        exact ⟨rfl, Trade.refl _ _ _, hfail⟩
      · next hbase =>
        have hbytes : (a.bytes ++ [0]).length = a.bytes.length + 1 := by simp
        rw [← hbytes] at h hbase
        have hshort : (a.bytes ++ [0]).length ≤ pgsize := by
          have := a.short
          omega
        obtain ⟨⟨m, hcopy⟩, hon⟩ := copyout_stack k psz ppt hs hsp (by simp) hshort (by omega)
        rw [hcopy, ok_bind] at h
        dsimp only at h
        rw [if_neg (by simp)] at h
        have hwrite : k.Trades V (k.setPage q.pa m) pt.refs pt.refs :=
          Kmem.trades_setPage _ (mem_refs hs.bound hs.leaf)
        have hlen' : (st.ustack ++ [sub64 st.sp (a.bytes ++ [0]).length - sub64 st.sp (a.bytes ++ [0]).length % 16]).length ≤ maxarg := by
          rw [List.length_append, List.length_singleton]
          omega
        obtain ⟨hppt, htr, hst⟩ := ih hon hlen' h
        exact ⟨hppt, hwrite.trans htr, hst⟩

lemma length_wordBytes (l : List Nat) : (wordBytes l).length = l.length * 8 := by
  unfold wordBytes
  rw [List.length_flatMap]
  simp

lemma pushUstack_ok {psz n : Nat} {ppt ppt' : Pagetable} {q : Pte} {st : Pushed} {r : Option Nat}
    (hs : StackPage pt n q) (hsp : OnStack n st.sp) (hlen : st.ustack.length ≤ maxarg)
    (h : pushUstack psz pt (n * pgsize) k ppt st = .ok (r, k', ppt')) :
    ppt' = ppt ∧ k.Trades V k' pt.refs pt.refs := by
  unfold pushUstack at h
  dsimp only at h
  split at h
  · cases h
    exact ⟨rfl, Trade.refl _ _ _⟩
  · next hbase =>
    have hbytes : (wordBytes (st.ustack ++ [0])).length = (st.ustack.length + 1) * 8 := by
      rw [length_wordBytes, List.length_append, List.length_singleton]
    rw [← hbytes] at h hbase
    have hne : wordBytes (st.ustack ++ [0]) ≠ [] := by
      rw [← List.length_pos_iff, hbytes]
      omega
    have hshort : (wordBytes (st.ustack ++ [0])).length ≤ pgsize := by
      rw [hbytes]
      simp only [maxarg, pgsize] at *
      omega
    obtain ⟨⟨m, hcopy⟩, -⟩ := copyout_stack k psz ppt hs hsp hne hshort (by omega)
    rw [hcopy, ok_bind] at h
    cases h
    exact ⟨rfl, Kmem.trades_setPage _ (mem_refs hs.bound hs.leaf)⟩

/-- The process with its mmap region reset to be placed below `va`. -/
def Proc.reset (p : Proc) (va : Nat) : Proc := { p with mmap := va, hasMmap := false }

/-- What `kexec` has done before it commits. -/
inductive Prepares (V : Arena) (s : State) (i : Fin nproc) (tf : Nat) : Option Ready → State → Prop
  | missed {k : Kmem} {fs : Fs} (htr : s.kmem.Trades V k 0 0) :
      Prepares V s i tf none { s with kmem := k, fs := fs }
  | undone {k : Kmem} {fs : Fs} (htr : s.kmem.Trades V k 0 0) :
      Prepares V s i tf none { s.setProc i ((s.proc i).reset (trapframeVa - pgsize)) with kmem := k, fs := fs }
  | ready {r : Ready} {k : Kmem} {fs : Fs} (htr : s.kmem.Trades V k 0 r.image.pagetable.refs)
      (hb : Built s.trampoline tf r.sz r.image.pagetable) (hpos : 0 < pages r.sz)
      (hold : r.oldsz = (s.proc i).sz) :
      Prepares V s i tf (some r) { s.setProc i ((s.proc i).reset (trapframeVa - pgsize)) with kmem := k, fs := fs }

/-- The guard page stays mapped. -/
lemma Built.clear {n : Nat} (h : Built tramp tf sz pt) (hn : n < tfPage)
    (hc : uvmclear k pt (n * pgsize) = .ok pt') : pt'.refs = pt.refs ∧ Built tramp tf sz pt' := by
  obtain ⟨hrefs, hother, hsome, hnone⟩ := uvmclear_ok hc
  refine ⟨hrefs, h.top.congr fun m hm => hother m (by omega), h.size, fun m hm => ?_⟩
  rw [← h.user m hm]
  by_cases hmn : m = n
  · subst hmn
    cases hq : pt.leaf m with
    | none => simp [hnone hq]
    | some q => simp [hsome q hq]
  · rw [hother m hmn]

lemma Proc.reset_pagetable (p : Proc) (va : Nat) : (p.reset va).pagetable = p.pagetable := rfl

lemma State.setProc_eq (s : State) (i : Fin nproc) : s.setProc i (s.proc i) = s := by
  unfold State.setProc
  rw [Function.update_eq_self]

/-- The page table of the process is stored back. -/
lemma Proc.with_pagetable {p : Proc} (h : p.pagetable = some pt) : { p with pagetable := some pt } = p := by
  rw [← h]

/-- Where the guard page and the stack are. -/
lemma stack_layout {p : Nat} (h : p + 1 < tfPage) :
    sub64 ((p + 2) * pgsize) ((userstack + 1) * pgsize) = p * pgsize ∧
      sub64 ((p + 2) * pgsize) (userstack * pgsize) = (p + 1) * pgsize := by
  have htf := tfPage_eq
  simp only [sub64, userstack, pgsize]
  omega

/-- The new image gets a stack. -/
lemma Built.stack {p sz₁ : Nat} {R : Multiset Nat} (h : Built tramp tf (p * pgsize) pt)
    (hB : k.Books V (R + pt.refs))
    (hr : uvmalloc k pt (p * pgsize) (u64 (p * pgsize + (userstack + 1) * pgsize)) .W = .ok (sz₁, k', pt'))
    (hpos : sz₁ ≠ 0) :
    sz₁ = (p + 2) * pgsize ∧ Built tramp tf sz₁ pt' ∧ ∃ q, StackPage pt' (p + 1) q := by
  have htf := tfPage_eq
  have hsize := h.size
  rw [pages_page] at hsize
  have hnew : u64 (p * pgsize + (userstack + 1) * pgsize) = (p + 2) * pgsize := by
    simp only [u64, userstack, pgsize] at *
    omega
  obtain ⟨-, -, hbuilt⟩ := h.alloc (V := V) hr
  have hB' := (h.alloc (V := V) hr).1.accounts hB
  rw [hnew] at hr
  have hle : p * pgsize ≤ (p + 2) * pgsize := Nat.mul_le_mul_right _ (by omega)
  obtain ⟨-, ⟨hsz, htop, hgrown⟩ | ⟨hzero, -⟩⟩ := uvmalloc_ok (V := V) hle h.size h.top hr
  · rw [pages_page] at htop
    rw [pages_page, pages_page] at hgrown
    obtain ⟨pa, hpa⟩ := hgrown.mapped (p + 1) (by omega) (by omega)
    refine ⟨hsz, hbuilt hpos, _, by omega, by omega, hpa, rfl, rfl, ?_⟩
    exact (pageAddr_of_leaf hB' (by omega) hpa).ne_zero
  · exact absurd hzero hpos

/-- `setupStack` resets the mmap region of the process and finishes the image or gives it up. -/
lemma setupStack_ok {ppt : Pagetable} {img : Image} {R : Multiset Nat} {r : Option Ready}
    (hB : s.kmem.Books V (R + img.pagetable.refs)) (hb : Built s.trampoline tf img.sz img.pagetable)
    (hpt : (s.proc i).pagetable = some ppt) (h : setupStack s i img = .ok (r, t)) :
    ∃ k, t = { s.setProc i ((s.proc i).reset (trapframeVa - pgsize)) with kmem := k } ∧
      match r with
      | none => s.kmem.Trades V k img.pagetable.refs 0
      | some r => s.kmem.Trades V k img.pagetable.refs r.image.pagetable.refs ∧
          Built s.trampoline tf r.sz r.image.pagetable ∧ 0 < pages r.sz ∧ r.oldsz = (s.proc i).sz := by
  have htf := tfPage_eq
  have hsize := hb.size
  have hround : pgRoundUp img.sz = pages img.sz * pgsize := pgRoundUp_eq (by omega)
  have hb₀ : Built s.trampoline tf (pages img.sz * pgsize) img.pagetable := by
    refine ⟨hb.top, ?_, ?_⟩
    · rw [pages_page]
      exact hb.size
    · rw [pages_page]
      exact hb.user
  unfold setupStack at h
  -- the kernel must not compute the address
  obtain ⟨va, hva⟩ : ∃ va, va = trapframeVa - pgsize := ⟨_, rfl⟩
  rw [← hva] at h ⊢
  have hkeep : (s.setProc i ((s.proc i).reset va)).setProc i { (s.proc i).reset va with pagetable := some ppt } =
      s.setProc i ((s.proc i).reset va) := by
    have hstored := (s.setProc i ((s.proc i).reset va)).setProc_eq i
    rw [State.setProc_self] at hstored
    rw [Proc.with_pagetable ((Proc.reset_pagetable _ _).trans hpt)]
    exact hstored
  -- giving up, with the page table as it is by then
  have hbad : ∀ {k : Kmem} {pt : Pagetable} {sz : Nat} {r : Option Ready},
      s.kmem.Trades V k img.pagetable.refs pt.refs → Built s.trampoline tf sz pt →
      stackBad (s.setProc i ((s.proc i).reset va)) i ppt k pt sz = .ok (r, t) →
      r = none ∧ ∃ k, t = { s.setProc i ((s.proc i).reset va) with kmem := k } ∧
        s.kmem.Trades V k img.pagetable.refs 0 := by
    intro k pt sz r htr hbuilt hbad
    have hle := hbuilt.size
    unfold stackBad at hbad
    obtain ⟨k₁, hfree, hbad⟩ := bind_ok hbad
    obtain ⟨rfl, rfl⟩ := Prod.mk.inj (pure_ok hbad)
    refine ⟨rfl, k₁, ?_, htr.trans (trades_procFreepagetable hbuilt.top (by omega) hfree)⟩
    rw [State.setProc_self, hkeep]
  obtain ⟨ppt₀, hppt, h⟩ := bind_ok h
  obtain rfl : ppt = ppt₀ := Option.some.inj (hpt.symm.trans (deref_ok hppt))
  dsimp only at h
  rw [hround] at h
  obtain ⟨⟨sz₁, k₁, pt₁⟩, halloc, h⟩ := bind_ok h
  change uvmalloc s.kmem img.pagetable _ _ _ = _ at halloc
  obtain ⟨htr₁, hkept, -⟩ := hb₀.alloc (V := V) halloc
  dsimp only at h
  split at h
  · next hzero =>
    obtain ⟨rfl, k, heq, htr⟩ := hbad htr₁ (hkept hzero) h
    exact ⟨k, heq, htr⟩
  · next hpos =>
    obtain ⟨rfl, hb₁, q, hstack⟩ := hb₀.stack hB halloc hpos
    have hbound := hstack.bound
    obtain ⟨hguard, hbase⟩ := stack_layout hbound
    rw [hguard, hbase] at h
    obtain ⟨pt₂, hclear, h⟩ := bind_ok h
    obtain ⟨hrefs, hb₂⟩ := hb₁.clear (by omega) hclear
    have hstack₂ : StackPage pt₂ (pages img.sz + 1) q := by
      obtain ⟨-, hother, -⟩ := uvmclear_ok hclear
      exact ⟨hstack.pos, hstack.bound, (hother _ (by omega)).trans hstack.leaf, hstack.user, hstack.write, hstack.page⟩
    have htr₂ : s.kmem.Trades V k₁ img.pagetable.refs pt₂.refs := by
      rw [hrefs]
      exact htr₁
    have htop : OnStack (pages img.sz + 1) ((pages img.sz + 2) * pgsize) := by
      simp only [OnStack, pgsize]
      omega
    obtain ⟨⟨pushed, k₂, ppt₁⟩, hargs, h⟩ := bind_ok h
    obtain ⟨rfl, htr₃, hst⟩ := pushArgs_ok (V := V) hstack₂ htop (Nat.zero_le _) hargs
    cases pushed with
    | none =>
      obtain ⟨rfl, k, heq, htr⟩ := hbad (htr₂.trans htr₃) hb₂ h
      exact ⟨k, heq, htr⟩
    | some st =>
      obtain ⟨hsp, hlen⟩ := hst st rfl
      obtain ⟨⟨found, k₃, ppt₂⟩, hustack, h⟩ := bind_ok h
      obtain ⟨rfl, htr₄⟩ := pushUstack_ok (V := V) hstack₂ hsp hlen hustack
      cases found with
      | none =>
        obtain ⟨rfl, k, heq, htr⟩ := hbad ((htr₂.trans htr₃).trans htr₄) hb₂ h
        exact ⟨k, heq, htr⟩
      | some sp =>
        obtain ⟨rfl, rfl⟩ := Prod.mk.inj (pure_ok h)
        refine ⟨k₃, ?_, (htr₂.trans htr₃).trans htr₄, hb₂, ?_, rfl⟩
        · exact congrArg (fun s' : State => { s' with kmem := k₃ }) hkeep
        · rw [pages_page]
          omega

/-- `kexec` up to the point where it commits. -/
lemma kexecPrepare_ok {R : Multiset Nat} {ppt : Pagetable} {path : CStr} {argv : List CStr} {r : Option Ready}
    (hB : s.kmem.Books V R) (hpt : (s.proc i).pagetable = some ppt)
    (htf : (s.proc i).trapframe = some tf) (h : kexecPrepare s i path argv = .ok (r, t)) :
    Prepares V s i tf r t := by
  unfold kexecPrepare at h
  obtain ⟨⟨img, u⟩, hload, h⟩ := bind_ok h
  cases loadImage_loads (V := V) htf hload with
  | failed htr =>
    obtain ⟨rfl, rfl⟩ := Prod.mk.inj (pure_ok h)
    exact .missed htr
  | @done img k fs htr hb =>
    have hB' := htr.accounts ((add_zero R).symm ▸ hB)
    change setupStack { s with kmem := k, fs := fs } i img = .ok (r, t) at h
    obtain ⟨k', rfl, hspec⟩ := setupStack_ok (s := { s with kmem := k, fs := fs }) hB' hb hpt h
    cases r with
    | none => exact .undone (htr.trans hspec)
    | some r =>
      obtain ⟨htr', hb', hpos, hold⟩ := hspec
      exact .ready (htr.trans htr') hb' hpos hold

/-! ### Committing -/

/-- An image makes an address space. -/
lemma Built.space {p : Proc} (h : Built tramp tf p.sz pt) (hpt : p.pagetable = some pt)
    (htf : p.trapframe = some tf) (hmmap : p.mmap = trapframeVa - pgsize) (hhas : p.hasMmap = false) :
    Space floor tramp p pt tf := by
  have hnone : ¬ p.hasMmap = true := by simp [hhas]
  have hsize := h.size
  refine ⟨hpt, htf, h.top, h.size, fun m _ hm => (h.user m (by omega)).mpr hm, ?_, fun hyes => absurd hyes hnone,
    fun hyes => absurd hyes hnone, fun m hm hne => Or.inl ((h.user m hm).mp hne), fun _ => Or.inr hmmap⟩
  have hlow := low_of_top hmmap
  obtain ⟨n, hn⟩ : ∃ n, tfPage = n + 1 := ⟨p.low, hlow.symm⟩
  rw [hmmap, trapframeVa_eq, hn, prev_page]
  congr 1
  omega

/-- The process that has committed to the image. -/
def Proc.execd (p : Proc) (r : Ready) : Proc :=
  { p with name := (lastName r.image.path.bytes).take 15, pagetable := some r.image.pagetable, sz := r.sz }

/-- Committing comes down to freeing the old address space. -/
lemma commitImage_ok {r : Ready} {old : Pagetable} (hpt : (s.proc i).pagetable = some old)
    (htf : (s.proc i).trapframe = some tf) :
    ∃ m, commitImage s i r = procFreepagetable (s.kmem.setPage tf m) old r.oldsz >>= fun k =>
      pure { s.setProc i ((s.proc i).execd r) with kmem := k } := by
  refine ⟨(((s.kmem.page tf).store64 tfA1 r.sp).store64 tfEpc r.image.entry).store64 tfSp r.sp, ?_⟩
  have hregs : deref (s.proc i).trapframe = .ok tf := by rw [htf]; rfl
  have hold : deref (s.proc i).pagetable = .ok old := by rw [hpt]; rfl
  unfold commitImage
  dsimp only
  rw [hregs, ok_bind, hold, ok_bind]
  rfl

/-- What a committed `kexec` has traded. -/
lemma commitImage_trades {r : Ready} {old : Pagetable} (hpt : (s.proc i).pagetable = some old)
    (htf : (s.proc i).trapframe = some tf) (htop : Top tramp tf old.leaf) (hold : pages r.oldsz ≤ tfPage)
    (h : commitImage s i r = .ok t) :
    ∃ k, t = { s.setProc i ((s.proc i).execd r) with kmem := k } ∧
      s.kmem.Trades V k ({tf} + old.refs) {tf} := by
  have htf26 := tfPage_eq
  obtain ⟨m, heq⟩ := commitImage_ok (r := r) hpt htf
  rw [heq] at h
  obtain ⟨k, hfree, h⟩ := bind_ok h
  obtain rfl := pure_ok h
  have hregs : s.kmem.Trades V (s.kmem.setPage tf m) ({tf} + old.refs) ({tf} + old.refs) :=
    Kmem.trades_setPage _ (by simp)
  have hgone := (trades_procFreepagetable (V := V) htop (by omega) hfree).frame_left {tf}
  rw [add_zero] at hgone
  exact ⟨k, rfl, hregs.trans hgone⟩

/-- The mmap region of a process without mmap pages is placed below the trapframe. -/
lemma Good.reset {va : Nat} (h : Good floor V held s) (hi : (s.proc i).state ≠ .UNUSED)
    (hhas : (s.proc i).hasMmap = false) (hva : va = trapframeVa - pgsize) :
    Good floor V held (s.setProc i { s.proc i with mmap := va }) := by
  obtain ⟨pt, tf, hsp⟩ := h.used i hi
  refine h.replace rfl rfl (Trade.refl _ _ _) (fun n x hs => ?_) (fun hu => absurd hu hi) fun _ => ⟨pt, tf, ?_⟩
  · rw [Proc.Shares, hhas] at hs
    exact absurd hs.1 (by simp)
  · refine ⟨hsp.pagetable, hsp.trapframe, hsp.top, hsp.size, hsp.heap, ?_, fun hhas' => ?_, fun hhas' => ?_,
      fun m hm hne => (hsp.user m hm hne).imp_right fun hin => ?_, fun _ => Or.inr hva⟩
    · have htf := tfPage_eq
      obtain ⟨n, hn⟩ : ∃ n, tfPage = n + 1 := ⟨tfPage - 1, by omega⟩
      change va = va / pgsize * pgsize
      rw [hva, trapframeVa_eq, hn, prev_page, Nat.mul_div_cancel _ (by decide)]
    · exact absurd (hhas.symm.trans hhas') (by simp)
    · exact absurd (hhas.symm.trans hhas') (by simp)
    · exact absurd (hhas.symm.trans hin.1) (by simp)

/-- A failed `kexec` of a process without mmap pages. -/
lemma Prepares.good_of_none (h : Good floor V held s) (hi : (s.proc i).state ≠ .UNUSED)
    (hhas : (s.proc i).hasMmap = false) (hp : Prepares V s i tf none t) :
    Good floor V held t ∧ t.trampoline = s.trampoline := by
  have hframe : ∀ {k : Kmem}, s.kmem.Trades V k 0 0 → s.kmem.Trades V k (s.proc i).refs (s.proc i).refs := by
    intro k htr
    have hrefs := htr.frame (s.proc i).refs
    rwa [zero_add] at hrefs
  obtain ⟨pt, tf', hsp⟩ := h.used i hi
  cases hp with
  | missed htr =>
    refine ⟨h.replace (p := s.proc i) ?_ rfl (hframe htr) (fun n x hs _ => hs) (fun hu => absurd hu hi)
      fun _ => ⟨pt, tf', hsp⟩, rfl⟩
    exact (Function.update_eq_self i s.proc).symm
  | undone htr =>
    obtain ⟨va, hva⟩ : ∃ va, va = trapframeVa - pgsize := ⟨_, rfl⟩
    rw [← hva]
    have hsame : Good floor V held (s.setProc i ((s.proc i).reset va)) := by
      have heq : (s.proc i).reset va = { s.proc i with mmap := va } := by
        unfold Proc.reset
        rw [← hhas]
      rw [heq]
      exact h.reset hi hhas hva
    obtain ⟨pt', tf'', hsp'⟩ := hsame.used i (by rw [State.setProc_self]; exact hi)
    rw [State.setProc_self] at hsp'
    refine ⟨h.replace rfl rfl (hframe htr) (fun n x hs _ => ?_) (fun hu => absurd hu hi) fun _ => ⟨pt', tf'', hsp'⟩, rfl⟩
    rw [Proc.Shares, hhas] at hs
    exact absurd hs.1 (by simp)

/-- A `kexec` of a process without mmap pages that has committed. -/
lemma Prepares.good_of_some {u : State} {r : Ready} (h : Good floor V held s) (hi : (s.proc i).state ≠ .UNUSED)
    (hhas : (s.proc i).hasMmap = false) {old : Pagetable} (hsp : Space floor s.trampoline (s.proc i) old tf)
    (hp : Prepares V s i tf (some r) u) (hc : commitImage u i r = .ok t) :
    Good floor V held t ∧ t.trampoline = s.trampoline ∧
      ∃ k fs, t = { s.setProc i (((s.proc i).reset (trapframeVa - pgsize)).execd r) with kmem := k, fs := fs } := by
  cases hp with
  | @ready _ k fs htr hb hpos hold =>
    obtain ⟨va, hva⟩ : ∃ va, va = trapframeVa - pgsize := ⟨_, rfl⟩
    rw [← hva] at hc ⊢
    have hself : ({ s.setProc i ((s.proc i).reset va) with kmem := k, fs := fs } : State).proc i =
        (s.proc i).reset va := s.setProc_self i _
    have hpt : (({ s.setProc i ((s.proc i).reset va) with kmem := k, fs := fs } : State).proc i).pagetable =
        some old := by
      rw [hself]
      exact hsp.pagetable
    have htf : (({ s.setProc i ((s.proc i).reset va) with kmem := k, fs := fs } : State).proc i).trapframe =
        some tf := by
      rw [hself]
      exact hsp.trapframe
    obtain ⟨k', rfl, hcommit⟩ := commitImage_trades (V := V) hpt htf hsp.top (hold ▸ hsp.size) hc
    rw [hself]
    have hset : ∀ p q : Proc, (s.setProc i p).setProc i q = s.setProc i q := by
      intro p q
      unfold State.setProc
      simp
    have hnew : Space floor s.trampoline (((s.proc i).reset va).execd r) r.image.pagetable tf :=
      hb.space rfl hsp.trapframe hva rfl
    have hall := htr.frame_left ({tf} + old.refs)
    rw [add_zero] at hall
    refine ⟨h.replace (i := i) (p := ((s.proc i).reset va).execd r) ?_ rfl ?_ (fun n x hs _ => ?_) (fun hu => absurd hu hi) fun _ =>
      ⟨_, tf, hnew⟩, rfl, k', fs, ?_⟩
    · change Function.update (Function.update s.proc i _) i _ = _
      simp
    · rw [hsp.refs, hnew.refs]
      exact hall.trans (hcommit.frame _)
    · rw [Proc.Shares, hhas] at hs
      exact absurd hs.1 (by simp)
    · exact congrArg (fun s' : State => { s' with kmem := k', fs := fs }) (hset _ _)

/-- `kexec` of a process without mmap pages keeps the invariant. -/
lemma kexec_good {path : CStr} {argv : List CStr} {r : Int} (h : Good floor V held s)
    (hi : (s.proc i).state ≠ .UNUSED) (hhas : (s.proc i).hasMmap = false)
    (hx : kexec s i path argv = .ok (r, t)) :
    Good floor V held t ∧ t.trampoline = s.trampoline := by
  obtain ⟨pt, tf, hsp⟩ := h.used i hi
  unfold kexec at hx
  obtain ⟨⟨found, u⟩, hprep, hx⟩ := bind_ok hx
  have hspec := kexecPrepare_ok h.books hsp.pagetable hsp.trapframe hprep
  cases found with
  | none =>
    obtain ⟨-, rfl⟩ := Prod.mk.inj (pure_ok hx)
    exact hspec.good_of_none h hi hhas
  | some r =>
    obtain ⟨t', hcommit, hx⟩ := bind_ok hx
    obtain ⟨-, rfl⟩ := Prod.mk.inj (pure_ok hx)
    obtain ⟨hgood, htramp, -⟩ := hspec.good_of_some h hi hhas hsp hcommit
    exact ⟨hgood, htramp⟩

end FogOS.Kernel
