import FogOS.Kernel.ExecFile

/-!
# The exec system call

`sys_exec` of `kernel/sysfile.c` with `fetchaddr` and `fetchstr` of `kernel/syscall.c`: the arguments are
fetched from user memory into pages of the kernel, handed to `kexec`, and the pages are freed again.
-/

namespace FogOS.Kernel

open ByteMem Ledger Copy

/-- `MAXPATH`. -/
def maxpath : Nat := 128

lemma zero_notMem_str (l : List UInt8) : 0 ∉ (l.take (pgsize - 1)).takeWhile (· ≠ 0) := by
  intro h
  have hne := List.mem_takeWhile_imp h
  simp at hne

lemma length_str_lt (l : List UInt8) : ((l.take (pgsize - 1)).takeWhile (· ≠ 0)).length < pgsize := by
  have hle := (List.takeWhile_prefix (fun x : UInt8 => decide (x ≠ 0)) (l := l.take (pgsize - 1))).length_le
  have hlt := List.length_take_le (pgsize - 1) l
  simp only [pgsize] at *
  omega

/-- The string in a buffer of at most a page. -/
def strOf (l : List UInt8) : CStr where
  bytes := (l.take (pgsize - 1)).takeWhile (· ≠ 0)
  noNul := zero_notMem_str l
  short := length_str_lt l

/-- The string in a page of the kernel. -/
def pageStr (k : Kmem) (pa : Nat) : CStr := strOf ((List.range pgsize).map fun x => k.page pa x)

/-- Fetch the uint64 at `addr` from the process. -/
def fetchaddr (s : State) (i : Fin nproc) (addr : Nat) : Except Stop (Option Nat × State) := do
  let p := s.proc i
  if p.sz ≤ addr ∨ p.sz < u64 (addr + 8) then pure (none, s)
  else
    let ppt ← deref p.pagetable
    let (copied, ip, k, ppt) ← copyin s.kmem p.sz ppt none addr 8
    pure (if copied then some (Fs.leNat ip) else none, s.repaged i ppt k)

/-- Fetch the nul-terminated string at `addr` from the process into the page `buf`. -/
def fetchstr (s : State) (i : Fin nproc) (addr buf max : Nat) : Except Stop (Bool × State) := do
  let ppt ← deref (s.proc i).pagetable
  let (found, dst) ← copyinstr s.kmem ppt addr max
  pure (found, { s with kmem := s.kmem.setPage buf (blit (s.kmem.page buf) 0 dst) })

/-- The loop of `sys_exec` over the argument vector; `argv` are the pages fetched so far. -/
def fetchArgs (i : Fin nproc) (uargv : Nat) : Nat → State → List Nat → Except Stop (Bool × List Nat × State)
  | 0, s, argv => pure (false, argv, s)
  | n + 1, s, argv => do
    match ← fetchaddr s i (u64 (uargv + 8 * argv.length)) with
    | (none, s) => pure (false, argv, s)
    | (some uarg, s) =>
      if uarg = 0 then pure (true, argv, s)
      else match s.kmem.kalloc with
        | (none, k) => pure (false, argv, { s with kmem := k })
        | (some pa, k) =>
          let (fetched, s) ← fetchstr { s with kmem := k } i uarg pa pgsize
          if !fetched then pure (false, argv ++ [pa], s) else fetchArgs i uargv n s (argv ++ [pa])

/-- The pages of the arguments are freed. -/
def freeArgs (s : State) (argv : List Nat) : State := { s with kmem := argv.foldl Kmem.kfree s.kmem }

/-- `sys_exec`, with the path at `upath` and the argument vector at `uargv`. -/
def sysExec (s : State) (i : Fin nproc) (upath uargv : Nat) : Except Stop (Int × State) := do
  let ppt ← deref (s.proc i).pagetable
  let (found, path) ← copyinstr s.kmem ppt upath maxpath
  if !found then pure (-1, s)
  else
    let (built, argv, s) ← fetchArgs i uargv maxarg s []
    if !built then pure (-1, freeArgs s argv)
    else
      let (ret, s) ← kexec s i (strOf path) (argv.map (pageStr s.kmem))
      pure (ret, freeArgs s argv)

namespace Loader

variable {V : Arena} {R : Multiset Nat} {s t : State} {i : Fin nproc} {k k' : Kmem} {pt pt' : Pagetable} {tramp tf psz floor : Nat}
  {held X : Multiset Nat} {b : Bool}

/-! ### Strings -/

/-- What comes after the NUL does not matter. -/
lemma strOf_append (s : CStr) (rest : List UInt8) : strOf (s.bytes ++ 0 :: rest) = s := by
  have hall : ∀ x ∈ s.bytes, (decide (x ≠ 0)) = true := by
    intro x hx
    refine decide_eq_true ?_
    rintro rfl
    exact s.noNul hx
  have hshort := s.short
  have hbytes : (strOf (s.bytes ++ 0 :: rest)).bytes = s.bytes := by
    change ((s.bytes ++ 0 :: rest).take (pgsize - 1)).takeWhile _ = _
    rw [List.take_append, List.take_of_length_le (by omega), List.takeWhile_append_of_pos hall]
    cases hn : pgsize - 1 - s.bytes.length with
    | zero => simp
    | succ n => simp
  cases s
  unfold strOf at *
  simpa using hbytes

/-- A string that `copyinstr` has found is in user memory, and the buffer holds it. -/
lemma stringAt_of_copied {srcva max : Nat} {dst : List UInt8} (h : CopiedStr srcva max k pt true dst) (hmax : max ≤ pgsize) :
    dst = (strOf dst).bytes ++ [0] ∧ ∀ m : Nat → UInt8, (∀ j < dst.length, m (srcva + j) = byteAt k pt (srcva + j)) →
      StringAt m srcva (strOf dst) := by
  obtain ⟨j, hlen, hzero, hall⟩ := h.nul rfl
  have hle := h.length
  have hget : ∀ l < dst.length, dst.getD l 0 = byteAt k pt (srcva + l) := fun l hl => (h.bytes l hl).2
  have hlast : dst = dst.dropLast ++ [0] := by
    have hne : dst ≠ [] := by
      rintro rfl
      cases hlen
    have hend : dst.getLast hne = 0 := by
      rw [List.getLast_eq_getElem]
      have hj := hget j (by omega)
      rw [hzero, List.getD_eq_getElem _ _ (by omega)] at hj
      simpa [hlen] using hj
    rw [← hend, List.dropLast_append_getLast hne]
  have hnoNul : 0 ∉ dst.dropLast := by
    intro hmem
    obtain ⟨l, hl, heq⟩ := List.mem_iff_getElem.mp hmem
    rw [List.length_dropLast] at hl
    have hl' := hget l (by omega)
    rw [List.getD_eq_getElem _ _ (by omega)] at hl'
    rw [List.getElem_dropLast, hl'] at heq
    exact hall l (by omega) heq
  obtain ⟨c, hc⟩ : ∃ c : CStr, c.bytes = dst.dropLast := by
    refine ⟨⟨dst.dropLast, hnoNul, ?_⟩, rfl⟩
    rw [List.length_dropLast]
    omega
  rw [← hc] at hlast
  have hstr : strOf dst = c := by
    rw [hlast]
    exact strOf_append c []
  rw [hstr]
  refine ⟨hlast, fun m hm l hl => ?_⟩
  have hlen' : dst.length = c.bytes.length + 1 := by
    rw [hlast, List.length_append, List.length_singleton]
  rw [hm l (by omega), ← hget l (by omega), ← hlast]

/-- The page that it has been stored in holds it. -/
lemma pageStr_blit {dst : List UInt8} {pa : Nat} (k : Kmem) (m : Mem) (h : dst = (strOf dst).bytes ++ [0]) :
    pageStr (k.setPage pa (blit m 0 dst)) pa = strOf dst := by
  have hlen : dst.length ≤ pgsize := by
    rw [h, List.length_append, List.length_singleton]
    exact (strOf dst).short
  obtain ⟨l, hl⟩ : ∃ l, l = (List.range pgsize).map fun x => blit m 0 dst x := ⟨_, rfl⟩
  have hprefix : l.take dst.length = dst := by
    refine List.ext_getElem ?_ fun j hj hj' => ?_
    · rw [hl, List.length_take, List.length_map, List.length_range]
      omega
    · have hj0 : blit m 0 dst (0 + j) = dst.getD j 0 := blit_at hj'
      rw [Nat.zero_add, List.getD_eq_getElem _ _ hj'] at hj0
      simp only [hl, List.getElem_take, List.getElem_map, List.getElem_range, hj0]
  have hsplit : l = (strOf dst).bytes ++ 0 :: l.drop dst.length := by
    conv_lhs => rw [← List.take_append_drop dst.length l, hprefix]
    nth_rewrite 1 [h]
    rw [List.append_assoc]
    rfl
  change strOf ((List.range pgsize).map fun x => (k.setPage pa (blit m 0 dst)).page pa x) = _
  rw [setPage_self, ← hl, hsplit, strOf_append]

/-! ### The kernel's own pages -/

/-- The kernel exchanges pages that it holds itself. -/
lemma good_exchange {X' : Multiset Nat} (h : Good floor V (held + X) s) (htr : s.kmem.Trades V k X X') :
    Good floor V (held + X') { s with kmem := k } := by
  have hB : s.kmem.Books V (held + ∑ j, (s.proc j).refs + X) := by
    rw [add_right_comm]
    exact h.books
  refine ⟨?_, fun x hx j hj => ?_, h.nodup, h.apart, h.unused, h.used⟩
  · change k.Books V (held + X' + ∑ j, (s.proc j).refs)
    rw [add_right_comm]
    exact htr.accounts hB
  · have hout : x ∉ held + X := fun hmem => h.kernel x hmem j hj
    rw [Multiset.mem_add, not_or] at hout
    have hin : x ∈ held + ∑ j, (s.proc j).refs :=
      Multiset.mem_add.mpr (Or.inr (Multiset.mem_sum.mpr ⟨j, Finset.mem_univ j, hj⟩))
    exact (Multiset.mem_add.mp hx).elim hout.1 (htr.notMem hB hin hout.2)

/-- The user pages of a process are pages that the kernel does not hold, and no free ones. -/
lemma user_page {q : Pte} {m : Nat} (h : Good floor V held s) (hsp : Space floor s.trampoline (s.proc i) pt tf)
    (hm : m < tfPage) (hq : pt.leaf m = some q) : q.pa ∈ (s.proc i).refs ∧ q.pa ∉ held ∧ q.pa ∉ s.kmem.freelist := by
  have hmem : q.pa ∈ (s.proc i).refs := by
    rw [hsp.refs]
    exact Multiset.mem_add.mpr (Or.inr (mem_refs hm hq))
  refine ⟨hmem, fun hheld => h.kernel _ hheld i hmem, h.books.notMem_free ?_⟩
  exact Multiset.mem_add.mpr (Or.inr (Multiset.mem_sum.mpr ⟨i, Finset.mem_univ i, hmem⟩))

/-! ### User memory while the arguments are fetched -/

/-- The byte at `a` in the memory of the process; a page that is not there reads as zeros. -/
def userByte (s : State) (i : Fin nproc) (a : Nat) : UInt8 := (s.proc i).pagetable.elim 0 fun pt => byteAt s.kmem pt a

/-- The process and its memory are what they were, pages that have been faulted in apart. -/
structure Fetched (i : Fin nproc) (s t : State) : Prop where
  fs : t.fs = s.fs
  trampoline : t.trampoline = s.trampoline
  proc : ∃ pt, t.proc i = { s.proc i with pagetable := pt }
  user : ∀ a, a / pgsize < tfPage → userByte t i a = userByte s i a

lemma Fetched.refl (i : Fin nproc) (s : State) : Fetched i s s := ⟨rfl, rfl, ⟨_, rfl⟩, fun _ _ => rfl⟩

lemma Fetched.trans {u : State} (h : Fetched i s t) (h' : Fetched i t u) : Fetched i s u := by
  obtain ⟨pt, hpt⟩ := h.proc
  obtain ⟨pt', hpt'⟩ := h'.proc
  refine ⟨h'.fs.trans h.fs, h'.trampoline.trans h.trampoline, ⟨pt', ?_⟩, fun a ha => (h'.user a ha).trans (h.user a ha)⟩
  rw [hpt', hpt]

lemma Fetched.state (h : Fetched i s t) : (t.proc i).state = (s.proc i).state ∧ (t.proc i).sz = (s.proc i).sz ∧
    (t.proc i).hasMmap = (s.proc i).hasMmap ∧ (t.proc i).cwd = (s.proc i).cwd := by
  obtain ⟨pt, hpt⟩ := h.proc
  rw [hpt]
  exact ⟨rfl, rfl, rfl, rfl⟩

/-- The allocator has changed, but not the pages of the process. -/
lemma Fetched.of_kmem (h : Good floor V held s) (hi : (s.proc i).state ≠ .UNUSED)
    (hpage : ∀ x ∈ (s.proc i).refs, k.page x = s.kmem.page x) : Fetched i s { s with kmem := k } := by
  obtain ⟨pt, tf, hsp⟩ := h.used i hi
  refine ⟨rfl, rfl, ⟨_, rfl⟩, fun a ha => ?_⟩
  unfold userByte
  change (s.proc i).pagetable.elim 0 _ = _
  rw [hsp.pagetable, Option.elim_some, Option.elim_some]
  unfold byteAt
  cases hq : pt.leaf (a / pgsize) with
  | none => rfl
  | some q =>
    rw [Option.elim_some, Option.elim_some]
    exact congrFun (hpage _ (user_page h hsp ha hq).1) _

/-- Faulting pages in does not change what user memory reads as. -/
lemma byteAt_of_confined (h : Copy.Confined psz ∅ k pt k' pt') {a : Nat} (ha : a / pgsize < tfPage) :
    byteAt k' pt' a = byteAt k pt a := by
  have hmod : a % pgsize < pgsize := Nat.mod_lt _ (by decide)
  unfold byteAt
  cases hq : pt.leaf (a / pgsize) with
  | none =>
    cases hq' : pt'.leaf (a / pgsize) with
    | none => rfl
    | some q => exact h.zero _ q hq hq' _ hmod (Set.notMem_empty _)
  | some q =>
    rw [Copy.stay h.faulted hq]
    exact h.kept _ q ha hq _ hmod (Set.notMem_empty _)

/-- `copyin` may add pages to the page table of the process. -/
lemma copyinLoop_own {fuel srcva len : Nat} {acc dst : List UInt8} (hsz : pages psz ≤ tfPage) (ht : Top tramp tf pt.leaf)
    (h : copyinLoop psz none fuel k pt srcva len acc = .ok (b, dst, k', pt')) :
    k.Trades V k' pt.refs pt'.refs ∧ Faulted psz pt.leaf pt'.leaf := by
  induction fuel generalizing k pt srcva len acc with
  | zero =>
    cases h
    exact ⟨Trade.refl _ _ _, Faulted.refl _ _⟩
  | succ fuel ih =>
    rw [copyinLoop] at h
    split at h
    · cases h
      exact ⟨Trade.refl _ _ _, Faulted.refl _ _⟩
    dsimp only at h
    rw [pgRoundDown_eq, Option.getD_none] at h
    obtain ⟨⟨pa0, k₁, pt₁⟩, hfault, h⟩ := bind_ok h
    have hspec : k.Trades V k₁ pt.refs pt₁.refs ∧ Faulted psz pt.leaf pt₁.leaf := by
      by_cases hva : srcva / pgsize < 2 ^ 26
      · obtain ⟨htr, hf, -⟩ := faultIn_ok (V := V) hva hsz ht hfault
        exact ⟨htr, hf⟩
      · have hmax : maxva ≤ srcva / pgsize * pgsize := by
          unfold maxva
          unfold pgsize at *
          omega
        have hpages : psz ≤ srcva / pgsize * pgsize := by
          have htf := tfPage_eq
          unfold pages at hsz
          unfold pgsize at *
          omega
        rw [faultIn, walkaddr, if_pos hmax] at hfault
        change vmfault k psz pt pt (srcva / pgsize * pgsize) = _ at hfault
        rw [vmfault, if_pos hpages] at hfault
        cases hfault
        exact ⟨Trade.refl _ _ _, Faulted.refl _ _⟩
    dsimp only at h
    split at h
    · cases h
      exact hspec
    · obtain ⟨htr, hf⟩ := ih (hspec.2.top hsz ht) h
      exact ⟨hspec.1.trans htr, hspec.2.trans hf⟩

/-! ### Fetching -/

/-- Eight bytes make a word. -/
lemma leNat_eq_load64 {m : Nat → UInt8} {l : List UInt8} {a : Nat} (hlen : l.length = 8) (h : ∀ j < 8, l.getD j 0 = m (a + j)) :
    Fs.leNat l = Mem.load64 m a := by
  have heq : l = (List.range 8).map fun j => m (a + j) := by
    refine List.ext_getElem (by simp [hlen]) fun j hj hj' => ?_
    have hget := h j (by omega)
    rw [List.getD_eq_getElem _ _ hj] at hget
    rw [hget, List.getElem_map, List.getElem_range]
  rw [heq]
  change Fs.leNat [m (a + 0), m (a + 1), m (a + 2), m (a + 3), m (a + 4), m (a + 5), m (a + 6), m (a + 7)] = _
  simp only [Fs.leNat, Mem.load64, Nat.add_zero, Nat.mul_zero]

/-- `fetchaddr` returns; the value is the word in user memory. -/
lemma fetchaddr_total (h : Good floor V held s) (hi : (s.proc i).state ≠ .UNUSED)
    (htramp : s.trampoline / pgsize * pgsize ∉ V.pages) (addr : Nat) :
    ∃ r t, fetchaddr s i addr = .ok (r, t) ∧ Good floor V held t ∧ Fetched i s t ∧
      (∀ x ∈ held, t.kmem.page x = s.kmem.page x) ∧
      ∀ v, r = some v → addr + 8 ≤ (s.proc i).sz ∧ v = Mem.load64 (userByte s i) addr := by
  have htf26 := tfPage_eq
  unfold fetchaddr
  dsimp only
  by_cases hbounds : (s.proc i).sz ≤ addr ∨ (s.proc i).sz < u64 (addr + 8)
  · rw [if_pos hbounds]
    exact ⟨none, s, rfl, h, .refl i s, fun _ _ => rfl, fun v hv => (by cases hv)⟩
  rw [if_neg hbounds]
  obtain ⟨R, tf', pt', hpt', hsz, huser⟩ := Userland.of_good h hi htramp
  obtain ⟨pt, tf, hsp⟩ := h.used i hi
  obtain rfl : pt = pt' := Option.some.inj (hsp.pagetable.symm.trans hpt')
  obtain ⟨b, dst, k, pt', hrun, huser', hin⟩ := copyinLoop_total addr 8 [] huser hsz le_rfl
  obtain ⟨htr, hf⟩ := copyinLoop_own (V := V) hsp.size hsp.top hrun
  have hpt : deref (s.proc i).pagetable = .ok pt := by
    rw [hsp.pagetable]
    rfl
  rw [hpt, ok_bind, copyin, hrun, ok_bind]
  have hread : ∀ a, a / pgsize < tfPage → byteAt k pt' a = userByte s i a := by
    intro a ha
    rw [byteAt_of_confined hin.confined ha]
    unfold userByte
    rw [hsp.pagetable]
    rfl
  refine ⟨_, _, rfl, h.repaged hi hsp hf htr, ⟨rfl, rfl, ⟨some pt', s.repaged_self i pt' k⟩, fun a ha => ?_⟩, fun x hx => ?_, fun v hv => ?_⟩
  · rw [← hread a ha]
    unfold userByte
    rw [s.repaged_self]
    rfl
  · refine hin.confined.others x (h.books.notMem_free (Multiset.mem_add.mpr (Or.inl hx))) fun a ha => ?_
    cases ha
  · cases b with
    | false => cases hv
    | true =>
      cases hv
      refine ⟨?_, leNat_eq_load64 (hin.done rfl) fun j hj => ?_⟩
      · simp only [not_or, not_le, not_lt, u64, pages, pgsize] at *
        omega
      obtain ⟨⟨-, q, hq, hu, -⟩, hbyte⟩ := hin.bytes j (by rw [hin.done rfl]; exact hj)
      rw [List.nil_append, hbyte]
      exact hread _ (huser'.top.lt_of_user hq hu)

/-- `fetchstr` into a page of the kernel returns; the page then holds the string in user memory. -/
lemma fetchstr_total {pa : Nat} (h : Good floor V held s) (hi : (s.proc i).state ≠ .UNUSED)
    (htramp : s.trampoline / pgsize * pgsize ∉ V.pages) (hpa : pa ∈ held) (addr : Nat) :
    ∃ b t, fetchstr s i addr pa pgsize = .ok (b, t) ∧ Good floor V held t ∧ Fetched i s t ∧
      (∀ x, x ≠ pa → t.kmem.page x = s.kmem.page x) ∧ (b = true → ∀ m : Nat → UInt8,
        (∀ a, a / pgsize < tfPage → m a = userByte s i a) → StringAt m addr (pageStr t.kmem pa)) := by
  obtain ⟨R, tf, pt, hpt, hsz, huser⟩ := Userland.of_good h hi htramp
  obtain ⟨b, dst, hrun, hstr⟩ := copyinstrLoop_total addr pgsize [] huser le_rfl
  have hderef : deref (s.proc i).pagetable = .ok pt := by
    rw [hpt]
    rfl
  unfold fetchstr
  rw [hderef, ok_bind, copyinstr, hrun, ok_bind]
  have hheld : s.kmem.Trades V (s.kmem.setPage pa (blit (s.kmem.page pa) 0 dst)) held held := Kmem.trades_setPage _ hpa
  have hgood : Good floor V held { s with kmem := s.kmem.setPage pa (blit (s.kmem.page pa) 0 dst) } := by
    have h₀ : Good floor V (0 + held) s := by rwa [zero_add]
    have hall := good_exchange h₀ hheld
    rwa [zero_add] at hall
  refine ⟨_, _, rfl, hgood, .of_kmem h hi fun x hx => ?_, fun x hx => setPage_ne hx _ _, fun hb => ?_⟩
  · refine setPage_ne ?_ _ _
    rintro rfl
    exact h.kernel _ hpa i hx
  · cases hb
    obtain ⟨hdst, hat⟩ := stringAt_of_copied hstr le_rfl
    intro m hm
    change StringAt _ _ (pageStr (s.kmem.setPage pa (blit (s.kmem.page pa) 0 ([] ++ dst))) pa)
    rw [List.nil_append, pageStr_blit _ _ hdst]
    refine hat m fun j hj => ?_
    obtain ⟨⟨-, q, hq, hu, -⟩, -⟩ := hstr.bytes j hj
    rw [hm _ (huser.top.lt_of_user hq hu)]
    unfold userByte
    rw [hpt]
    rfl

/-- The argument vector at `uargv`: the pointers `ptrs`, none of which is 0, lead to the strings in the pages `argv`. -/
structure Collected (m : Nat → UInt8) (uargv : Nat) (k : Kmem) (argv ptrs : List Nat) : Prop where
  pointers : ∀ j < argv.length, Mem.load64 m (uargv + 8 * j) = ptrs.getD j 0
  nonzero : 0 ∉ ptrs
  strings : List.Forall₂ (fun p pa => StringAt m p (pageStr k pa)) ptrs argv

/-- Other pages may change. -/
lemma Collected.congr {m : Nat → UInt8} {uargv : Nat} {argv ptrs : List Nat} (h : Collected m uargv k argv ptrs)
    (hpage : ∀ x ∈ argv, k'.page x = k.page x) : Collected m uargv k' argv ptrs := by
  obtain ⟨hlen, hstr⟩ := List.forall₂_iff_zip.mp h.strings
  refine ⟨h.pointers, h.nonzero, List.forall₂_iff_zip.mpr ⟨hlen, fun {p pa} hmem => ?_⟩⟩
  have hsame : pageStr k' pa = pageStr k pa := by
    unfold pageStr
    rw [hpage pa (List.of_mem_zip hmem).2]
  rw [hsame]
  exact hstr hmem

/-- One more argument. -/
lemma Collected.snoc {m : Nat → UInt8} {uargv p pa : Nat} {argv ptrs : List Nat} (h : Collected m uargv k argv ptrs)
    (hp : Mem.load64 m (uargv + 8 * argv.length) = p) (hne : p ≠ 0) (hstr : StringAt m p (pageStr k pa)) :
    Collected m uargv k (argv ++ [pa]) (ptrs ++ [p]) := by
  have hlen : ptrs.length = argv.length := h.strings.length_eq
  refine ⟨fun j hj => ?_, ?_, List.rel_append h.strings (.cons hstr .nil)⟩
  · rw [List.length_append, List.length_singleton] at hj
    by_cases hlast : j = argv.length
    · rw [hlast, hp, ← hlen, List.getD_append_right _ _ _ _ le_rfl, Nat.sub_self]
      rfl
    · rw [List.getD_append _ _ _ _ (by omega)]
      exact h.pointers j (by omega)
  · rw [List.mem_append, not_or]
    exact ⟨h.nonzero, by simpa using Ne.symm hne⟩

/-- A round of the loop that finds no page for the argument. -/
lemma fetchArgs_full {uargv n v : Nat} {argv : List Nat} (hrun : fetchaddr s i (u64 (uargv + 8 * argv.length)) = .ok (some (v + 1), t))
    (hk : t.kmem.kalloc = (none, k)) : fetchArgs i uargv (n + 1) s argv = .ok (false, argv, { t with kmem := k }) := by
  rw [fetchArgs, hrun, ok_bind]
  dsimp only
  rw [if_neg (Nat.succ_ne_zero v), hk]
  rfl

/-- A round that fetches the argument. -/
lemma fetchArgs_next {u : State} {uargv n v pa : Nat} {argv : List Nat}
    (hrun : fetchaddr s i (u64 (uargv + 8 * argv.length)) = .ok (some (v + 1), t)) (hk : t.kmem.kalloc = (some pa, k))
    (hstr : fetchstr { t with kmem := k } i (v + 1) pa pgsize = .ok (b, u)) :
    fetchArgs i uargv (n + 1) s argv = if b then fetchArgs i uargv n u (argv ++ [pa]) else .ok (false, argv ++ [pa], u) := by
  rw [fetchArgs, hrun, ok_bind]
  dsimp only
  rw [if_neg (Nat.succ_ne_zero v), hk]
  dsimp only
  rw [hstr, ok_bind]
  cases b <;> rfl

/-- The loop of `sys_exec` returns: with the arguments, or with the pages that have been allocated. -/
lemma fetchArgs_total {s₀ : State} {uargv : Nat} (hi : (s₀.proc i).state ≠ .UNUSED) (hsz : pages (s₀.proc i).sz ≤ tfPage)
    (htramp : s₀.trampoline / pgsize * pgsize ∉ V.pages) (hu : uargv < 2 ^ 64) : ∀ (n : Nat) {s : State} {argv ptrs : List Nat},
      n + argv.length = maxarg → Good floor V (held + (argv : Multiset Nat)) s → Fetched i s₀ s →
      Collected (userByte s₀ i) uargv s.kmem argv ptrs → (argv = [] ∨ uargv < (s₀.proc i).sz) →
      ∃ b argv' t, fetchArgs i uargv n s argv = .ok (b, argv', t) ∧ Good floor V (held + (argv' : Multiset Nat)) t ∧ Fetched i s₀ t ∧
        (b = true → argv'.length < maxarg ∧ Mem.load64 (userByte s₀ i) (uargv + 8 * argv'.length) = 0 ∧
          ∃ ptrs, Collected (userByte s₀ i) uargv t.kmem argv' ptrs) := by
  have htf26 := tfPage_eq
  have hsmall : (s₀.proc i).sz < 2 ^ 39 := by
    unfold pages pgsize at hsz
    omega
  intro n
  induction n with
  | zero =>
    intro s argv ptrs _ h hs _ _
    exact ⟨false, argv, s, rfl, h, hs, fun hb => (by cases hb)⟩
  | succ n ih =>
    intro s argv ptrs hn h hs hc hlow
    obtain ⟨hstate, hszs, -⟩ := hs.state
    have haddr : u64 (uargv + 8 * argv.length) = uargv + 8 * argv.length := by
      refine Nat.mod_eq_of_lt ?_
      rcases hlow with rfl | hlow
      · simpa using hu
      · unfold maxarg at hn
        omega
    obtain ⟨r, s₁, hrun, h₁, hs₁, hpage₁, hval⟩ :=
      fetchaddr_total h (hstate ▸ hi) (hs.trampoline ▸ htramp) (uargv + 8 * argv.length)
    have hs₀₁ := hs.trans hs₁
    have hc₁ : Collected (userByte s₀ i) uargv s₁.kmem argv ptrs :=
      hc.congr fun x hx => hpage₁ x (Multiset.mem_add.mpr (Or.inr (Multiset.mem_coe.mpr hx)))
    rw [← haddr] at hrun
    cases r with
    | none =>
      refine ⟨false, argv, s₁, ?_, h₁, hs₀₁, fun hb => (by cases hb)⟩
      rw [fetchArgs, hrun]
      rfl
    | some v =>
      obtain ⟨hin, hv⟩ := hval v rfl
      rw [hszs] at hin
      have hword : Mem.load64 (userByte s₀ i) (uargv + 8 * argv.length) = v := by
        rw [hv]
        refine Mem.load64_congr fun x _ hx => (hs.user x ?_).symm
        unfold pages pgsize at hsz
        unfold pgsize
        omega
      cases v with
      | zero =>
        refine ⟨true, argv, s₁, ?_, h₁, hs₀₁, fun _ => ⟨by omega, hword, ptrs, hc₁⟩⟩
        rw [fetchArgs, hrun]
        rfl
      | succ v =>
        rcases hk : s₁.kmem.kalloc with ⟨_ | pa, k⟩
        · have hstay : ({ s₁ with kmem := k } : State) = s₁ := by rw [Kmem.kalloc_none hk]
          rw [fetchArgs_full hrun hk, hstay]
          exact ⟨false, argv, s₁, rfl, h₁, hs₀₁, fun hb => (by cases hb)⟩
        · obtain ⟨hfree, hpg, -⟩ := Kmem.kalloc_some hk
          have hfresh : pa ∈ s₁.kmem.freelist := by
            rw [hfree]
            exact List.mem_cons_self
          have hpage : ∀ x, x ≠ pa → k.page x = s₁.kmem.page x := by
            intro x hx
            exact (congrFun hpg x).trans (Function.update_of_ne hx _ _)
          have hnot : ∀ x ∈ held + (argv : Multiset Nat) + ∑ j, (s₁.proc j).refs, x ≠ pa := by
            rintro x hx rfl
            exact h₁.books.notMem_of_free hfresh hx
          have h₂ : Good floor V (held + ((argv ++ [pa] : List Nat) : Multiset Nat)) { s₁ with kmem := k } := by
            have hex := good_exchange (X := 0) (by rwa [add_zero]) (Kmem.trades_kalloc (V := V) hk)
            rwa [add_assoc, ← Multiset.coe_singleton, Multiset.coe_add] at hex
          have hs₂ : Fetched i s₁ { s₁ with kmem := k } := by
            refine .of_kmem h₁ ?_ fun x hx => hpage x (hnot x ?_)
            · rw [hs₀₁.state.1]
              exact hi
            · exact Multiset.mem_add.mpr (Or.inr (Multiset.mem_sum.mpr ⟨i, Finset.mem_univ i, hx⟩))
          have hs₀₂ := hs₀₁.trans hs₂
          obtain ⟨b, t, hstr, h₃, hs₃, hpage₃, hcopied⟩ := fetchstr_total h₂ (hs₀₂.state.1 ▸ hi) (hs₀₂.trampoline ▸ htramp)
            (show pa ∈ held + ((argv ++ [pa] : List Nat) : Multiset Nat) by simp) (v + 1)
          have hs₀₃ := hs₀₂.trans hs₃
          rw [fetchArgs_next hrun hk hstr]
          cases b with
          | false =>
            rw [if_neg (by simp)]
            exact ⟨false, argv ++ [pa], t, rfl, h₃, hs₀₃, fun hb => (by cases hb)⟩
          | true =>
            rw [if_pos rfl]
            have hc₃ : Collected (userByte s₀ i) uargv t.kmem argv ptrs := by
              refine hc₁.congr fun x hx => ?_
              have hne : x ≠ pa := hnot x (Multiset.mem_add.mpr (Or.inl (Multiset.mem_add.mpr (Or.inr (Multiset.mem_coe.mpr hx)))))
              exact (hpage₃ x hne).trans (hpage x hne)
            refine ih ?_ h₃ hs₀₃ (hc₃.snoc hword (by omega) (hcopied rfl _ fun a ha => (hs₀₂.user a ha).symm)) (Or.inr (by omega))
            rw [List.length_append, List.length_singleton]
            omega

/-! ### The system call -/

/-- Freeing a list of pages gives up one reference to each. -/
lemma trades_foldl (V : Arena) (argv : List Nat) (k : Kmem) : k.Trades V (argv.foldl Kmem.kfree k) (argv : Multiset Nat) 0 := by
  induction argv generalizing k with
  | nil => exact Trade.refl _ _ _
  | cons pa argv ih =>
    rw [List.foldl_cons, ← Multiset.cons_coe, ← Multiset.singleton_add]
    exact (Kmem.trades_drop V k pa _).trans (ih _)

/-- Freeing the arguments does not touch the pages of a process. -/
lemma freeArgs_good {argv : List Nat} (h : Good floor V (held + (argv : Multiset Nat)) s) : Good floor V held (freeArgs s argv) ∧
    ∀ x ∈ (s.proc i).refs, (freeArgs s argv).kmem.page x = s.kmem.page x := by
  have htr := trades_foldl V argv s.kmem
  have hgood := good_exchange h htr
  rw [add_zero] at hgood
  refine ⟨hgood, fun x hx => ?_⟩
  have hout : x ∉ (argv : Multiset Nat) := fun hmem => h.kernel x (Multiset.mem_add.mpr (Or.inr hmem)) i hx
  have hB : s.kmem.Books V (held + ∑ j, (s.proc j).refs + (argv : Multiset Nat)) := by
    rw [add_right_comm]
    exact h.books
  have hin : x ∈ held + ∑ j, (s.proc j).refs :=
    Multiset.mem_add.mpr (Or.inr (Multiset.mem_sum.mpr ⟨i, Finset.mem_univ i, hx⟩))
  exact htr.data_eq hB hin hout

/-- A program depends on nothing but the pages of its process. -/
lemma Installed.congr {c : List UInt8} {argv : List CStr} {p sp : Nat} (h : Installed c argv s i pt tf p sp)
    (hgood : Good floor V held s) (hpage : ∀ x ∈ (s.proc i).refs, k.page x = s.kmem.page x) :
    Installed c argv { s with kmem := k } i pt tf p sp := by
  have hi : (s.proc i).state ≠ .UNUSED := by
    intro hunused
    have hnone := (hgood.unused i hunused).pagetable
    rw [h.pagetable] at hnone
    cases hnone
  obtain ⟨pt', tf', hsp⟩ := hgood.used i hi
  obtain rfl : pt = pt' := Option.some.inj (h.pagetable.symm.trans hsp.pagetable)
  obtain rfl : tf = tf' := Option.some.inj (h.trapframe.symm.trans hsp.trapframe)
  have hbyte : ∀ a, a / pgsize < tfPage → byteAt k pt a = byteAt s.kmem pt a := by
    intro a ha
    unfold byteAt
    cases hq : pt.leaf (a / pgsize) with
    | none => rfl
    | some q =>
      rw [Option.elim_some, Option.elim_some]
      exact congrFun (hpage _ (user_page hgood hsp ha hq).1) _
  have husable : ∀ {a}, Usable false pt a → a / pgsize < tfPage := by
    rintro a ⟨-, q, hq, hu, -⟩
    exact hsp.top.lt_of_user hq hu
  have hsize := hsp.size
  rw [h.size, pages_page] at hsize
  refine ⟨h.pagetable, h.trapframe, h.size, fun pre ph post heq a hin hlast => ?_, fun a ha hnone => ?_, h.guard, h.stack, ?_, h.aligned,
    h.inside, ?_⟩
  · obtain ⟨hlt, hu, hb⟩ := h.covered pre ph post heq a hin hlast
    exact ⟨hlt, hu, (hbyte a (husable hu)).trans hb⟩
  · obtain ⟨hu, hb⟩ := h.rest a ha hnone
    exact ⟨hu, (hbyte a (husable hu)).trans hb⟩
  · have htf : tf ∈ (s.proc i).refs := by
      rw [hsp.refs]
      simp
    change (k.page tf).load64 tfSp = sp ∧ (k.page tf).load64 tfA1 = sp ∧ (k.page tf).load64 tfEpc = _
    rw [hpage tf htf]
    exact h.regs
  · obtain ⟨addrs, hpassed⟩ := h.passed
    refine ⟨addrs, hpassed.congr fun a ha => hbyte a ?_⟩
    rw [Nat.div_lt_iff_lt_mul (by decide)]
    exact ha.trans_le (Nat.mul_le_mul_right _ hsize)

/-- The strings `argv` are an argument vector at `uargv`, which ends in a null pointer. -/
def ArgsAt (m : Nat → UInt8) (uargv : Nat) (argv : List CStr) : Prop :=
  ∃ ptrs, List.Forall₂ (StringAt m) ptrs argv ∧ 0 ∉ ptrs ∧ ∀ j ≤ argv.length, Mem.load64 m (uargv + 8 * j) = (ptrs ++ [0]).getD j 0

lemma Collected.argsAt {m : Nat → UInt8} {uargv : Nat} {argv ptrs : List Nat} (h : Collected m uargv k argv ptrs)
    (hend : Mem.load64 m (uargv + 8 * argv.length) = 0) : ArgsAt m uargv (argv.map (pageStr k)) := by
  have hlen : ptrs.length = argv.length := h.strings.length_eq
  refine ⟨ptrs, List.forall₂_map_right_iff.mpr h.strings, h.nonzero, fun j hj => ?_⟩
  rw [List.length_map] at hj
  by_cases hlast : j = argv.length
  · rw [hlast, hend, List.getD_append_right _ _ _ _ hlen.le, hlen, Nat.sub_self]
    rfl
  · rw [List.getD_append _ _ _ _ (by omega)]
    exact h.pointers j (by omega)

/-- No file on the disk with one program begins with `#!`. -/
lemma plain_programFs (h : s.fs = programFs) {path : CStr} (hpath : path.bytes.head? = some Fs.slash) : Plain s i path := by
  have horder := inOrder_programFs (s.proc i).cwd hpath
  intro c hc
  rw [h] at hc
  obtain ⟨j, hj, rfl⟩ := Option.map_eq_some_iff.mp hc
  have horigin : programFs.origin (s.proc i).cwd path.bytes = 1 := if_pos hpath
  rw [horigin] at hj
  have htype := horder.graph.type_of_walk horder.graph.root hj
  rw [inode_programFs] at htype ⊢
  rcases programFs_of_type htype with rfl | rfl
  · decide
  · rw [programFs_facts.2]
    exact valid_programBytes.not_script

/-- A process with `/e` on its stack, and a vector of pointers to `/e` and `e`. -/
def asksExec : State :=
  let pa := ((firstProgram.proc 0).pagetable.bind fun pt => pt.leaf 2).elim 0 Pte.pa
  let strings := [47, 101, 0, 0, 0, 0, 0, 0] ++ [0, 32, 0, 0, 0, 0, 0, 0] ++ [1, 32, 0, 0, 0, 0, 0, 0]
  { firstProgram with
    fs := programFs, kmem := firstProgram.kmem.setPage pa (blit (fun _ => 0) 0 strings) }

lemma asksExec_ready : Good 0 (freshArena 24) 0 asksExec ∧ (asksExec.proc 0).state ≠ .UNUSED ∧ (asksExec.proc 0).hasMmap = false ∧
    asksExec.trampoline / pgsize * pgsize ∉ (freshArena 24).pages ∧ userByte asksExec 0 8192 = 47 := by
  obtain ⟨hstate, hhas, hrun⟩ := exec_program
  have hgood : Good 0 (freshArena 24) 0 firstProgram := (kexec_good boots_booted_24.good (by rw [hstate]; simp) hhas hrun).1
  have hfacts : asksExec.trampoline = kernbase + pgsize ∧ userByte asksExec 0 8192 = 47 := by decide +kernel
  have hproc : asksExec.proc 0 = firstProgram.proc 0 := rfl
  obtain ⟨hstate', -, -, hhas', -⟩ := firstProgram_proc
  refine ⟨⟨?_, hgood.kernel, hgood.nodup, hgood.apart, hgood.unused, hgood.used⟩, ?_, ?_, ?_, hfacts.2⟩
  · exact ⟨hgood.books.nodup, hgood.books.mem_free, hgood.books.subset, hgood.books.count_eq⟩
  · rw [hproc, hstate']
    simp
  · rw [hproc, hhas']
  · rw [hfacts.1]
    rintro ⟨hmem, -⟩
    obtain ⟨j, -, hj⟩ := List.mem_map.mp hmem
    simp only [kernbase, pgsize] at hj
    omega

/-- The system call returns for every two pointers, and keeps no page. It has failed, or the process runs the file at the path
that the first pointer leads to, with the strings of the vector that the second one leads to. -/
theorem sysExec_installs (upath uargv : Nat) (h : Good floor V held s) (hi : (s.proc i).state ≠ .UNUSED)
    (hhas : (s.proc i).hasMmap = false) (htramp : s.trampoline / pgsize * pgsize ∉ V.pages) (hu : uargv < 2 ^ 64)
    (ho : ∀ path, StringAt (userByte s i) upath path → s.fs.InOrder (s.proc i).cwd path.bytes ∧ Plain s i path) :
    ∃ r t, sysExec s i upath uargv = .ok (r, t) ∧ Good floor V held t ∧ (r = -1 ∨ ∃ path argv c pt tf p sp,
      StringAt (userByte s i) upath path ∧ ArgsAt (userByte s i) uargv argv ∧ r = (argv.length : Int) ∧
        s.fs.fileAt (s.proc i).cwd path.bytes = some c ∧ Installed c argv t i pt tf p sp) := by
  obtain ⟨R, tf, pt, hpt, hsz, huser⟩ := Userland.of_good h hi htramp
  obtain ⟨found, dst, hrun, hstr⟩ := copyinstrLoop_total upath maxpath [] huser le_rfl
  have hderef : deref (s.proc i).pagetable = .ok pt := by
    rw [hpt]
    rfl
  unfold sysExec
  rw [hderef, ok_bind, copyinstr, hrun, ok_bind, List.nil_append]
  dsimp only
  cases found with
  | false => exact ⟨-1, s, rfl, h, Or.inl rfl⟩
  | true =>
    have hpath : StringAt (userByte s i) upath (strOf dst) := by
      refine (stringAt_of_copied hstr (by decide)).2 _ fun j _ => ?_
      unfold userByte
      rw [hpt]
      rfl
    obtain ⟨horder, hplain⟩ := ho _ hpath
    have hstart : Collected (userByte s i) uargv s.kmem [] [] :=
      ⟨fun j hj => absurd hj (Nat.not_lt_zero j), List.not_mem_nil, .nil⟩
    obtain ⟨built, argv, s₁, hfetch, h₁, hs₁, hdone⟩ := fetchArgs_total hi hsz htramp hu maxarg (by rfl)
      (by rwa [Multiset.coe_nil, add_zero]) (.refl i s) hstart (Or.inl rfl)
    rw [if_neg (by simp), hfetch, ok_bind]
    dsimp only
    cases built with
    | false => exact ⟨-1, _, rfl, (freeArgs_good (i := i) h₁).1, Or.inl rfl⟩
    | true =>
      obtain ⟨hmax, hend, ptrs, hc⟩ := hdone rfl
      obtain ⟨hstate, -, hmmap, hcwd⟩ := hs₁.state
      have horder₁ : s₁.fs.InOrder (s₁.proc i).cwd (strOf dst).bytes := by
        rw [hs₁.fs, hcwd]
        exact horder
      have hplain₁ : Plain s₁ i (strOf dst) := by
        unfold Plain
        rw [hs₁.fs, hcwd]
        exact hplain
      obtain ⟨r, s₂, hx, h₂, hres⟩ := kexec_survives h₁ (hstate ▸ hi) (hmmap ▸ hhas) horder₁ hplain₁
        (show (argv.map (pageStr s₁.kmem)).length < maxarg by rwa [List.length_map])
      obtain ⟨hgood, hpage⟩ := freeArgs_good (i := i) h₂
      rw [if_neg (by simp), hx, ok_bind]
      refine ⟨r, _, rfl, hgood, hres.imp_right ?_⟩
      rintro ⟨hr, c, pt₂, tf₂, p, sp, hfile, hinst⟩
      refine ⟨_, _, c, pt₂, tf₂, p, sp, hpath, hc.argsAt hend, hr, ?_, hinst.congr h₂ hpage⟩
      rw [hs₁.fs, hcwd] at hfile
      exact hfile

/-- The program on the disk is executed again, with two arguments. -/
theorem sysExec_installs_program : ∃ t, sysExec asksExec 0 8192 8200 = .ok (2, t) ∧
    Good 0 (freshArena 24) 0 t ∧ ∃ argv c pt tf p sp, ArgsAt (userByte asksExec 0) 8200 argv ∧
      argv.length = 2 ∧ Installed c argv t 0 pt tf p sp := by
  obtain ⟨hgood, hi, hhas, htramp, hbyte⟩ := asksExec_ready
  obtain ⟨r, t, hrun, ht, hres⟩ :=
    sysExec_installs 8192 8200 hgood hi hhas htramp (by decide) fun path hat => by
    have hhead : path.bytes.head? = some Fs.slash := by
      have hfirst := hat 0 (Nat.zero_le _)
      rw [Nat.add_zero, hbyte] at hfirst
      cases hb : path.bytes with
      | nil =>
        rw [hb] at hfirst
        cases hfirst
      | cons x l =>
        rw [hb] at hfirst
        exact congrArg some hfirst.symm
    exact ⟨inOrder_programFs _ hhead, plain_programFs rfl hhead⟩
  have htwo : (sysExec asksExec 0 8192 8200).toOption.map Prod.fst = some 2 := by decide +kernel
  rw [hrun] at htwo
  obtain rfl : r = 2 := Option.some.inj htwo
  rcases hres with hneg | ⟨path, argv, c, pt, tf, p, sp, -, hargs, hlen, -, hinst⟩
  · cases hneg
  · exact ⟨t, hrun, ht, argv, c, pt, tf, p, sp, hargs, by omega, hinst⟩

end Loader

end FogOS.Kernel
