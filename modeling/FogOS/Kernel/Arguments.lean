import FogOS.Kernel.Loader

/-!
# The arguments on the stack

Where `kexec` puts the argument strings and the array of pointers to them, for which arguments there is
room in the page of the stack, and what user code finds there.
-/

namespace FogOS.Kernel

open ByteMem Ledger Copy

namespace Loader

variable {V : Arena} {R : Multiset Nat} {k k' : Kmem} {pt pt' ppt : Pagetable} {tramp tf sz n psz off : Nat} {q : Pte}
  {m : Mem} {argv : List CStr}

/-! ### Rounding -/

/-- `len` rounded up to a multiple of 16. -/
def round16 (len : Nat) : Nat := (len + 15) / 16 * 16

/-- What an argument takes up. -/
def room (a : CStr) : Nat := round16 (a.bytes.length + 1)

/-- What the arguments take up. -/
def stringsRoom (argv : List CStr) : Nat := (argv.map room).sum

/-- What the arguments and the array of pointers to them take up. -/
def stackRoom (argv : List CStr) : Nat := stringsRoom argv + round16 (8 * (argv.length + 1))

@[simp] lemma stringsRoom_nil : stringsRoom [] = 0 := rfl

@[simp] lemma stringsRoom_cons (a : CStr) (argv : List CStr) : stringsRoom (a :: argv) = room a + stringsRoom argv := by
  simp [stringsRoom]

lemma le_round16 (len : Nat) : len ≤ round16 len := by
  unfold round16
  omega

lemma round16_mod (len : Nat) : round16 len % 16 = 0 := Nat.mul_mod_left _ _

lemma room_mod (a : CStr) : room a % 16 = 0 := round16_mod _

lemma stringsRoom_mod (argv : List CStr) : stringsRoom argv % 16 = 0 := by
  induction argv with
  | nil => rfl
  | cons a argv ih =>
    rw [stringsRoom_cons, Nat.add_mod, room_mod, ih]

/-- The stack pointer moves down by a multiple of 16. -/
lemma down_eq {len : Nat} (hn : 0 < n ∧ n < tfPage) (hoff : off ≤ pgsize) (hmod : off % 16 = 0) (hlen : len ≤ pgsize) :
    sub64 (n * pgsize + off) len - sub64 (n * pgsize + off) len % 16 = n * pgsize + off - round16 len := by
  have htf := tfPage_eq
  simp only [sub64, round16, pgsize] at *
  omega

/-! ### The strings -/

/-- The page of the stack after the arguments have been stored below offset `off`. -/
def stored : Mem → Nat → List CStr → Mem
  | m, _, [] => m
  | m, off, a :: argv => stored (blit m (off - room a) (a.bytes ++ [0])) (off - room a) argv

/-- The offsets at which they have been stored. -/
def places : Nat → List CStr → List Nat
  | _, [] => []
  | off, a :: argv => (off - room a) :: places (off - room a) argv

/-- A copy of the string, with its NUL, is at `a`. -/
def StringAt (m : Nat → UInt8) (a : Nat) (s : CStr) : Prop :=
  ∀ j ≤ s.bytes.length, m (a + j) = (s.bytes ++ [0]).getD j 0

lemma length_places (off : Nat) (argv : List CStr) : (places off argv).length = argv.length := by
  induction argv generalizing off with
  | nil => rfl
  | cons a argv ih => simp [places, ih]

lemma blit_above {src : List UInt8} {x : Nat} (h : off + src.length ≤ x) : blit m off src x = m x := if_neg (by omega)

lemma blit_at {src : List UInt8} {j : Nat} (h : j < src.length) : blit m off src (off + j) = src.getD j 0 := by
  refine (if_pos ⟨Nat.le_add_right _ _, by omega⟩).trans ?_
  rw [Nat.add_sub_cancel_left]

/-- Nothing is stored from `off` on. -/
lemma stored_above {x : Nat} (hroom : stringsRoom argv ≤ off) (hx : off ≤ x) : stored m off argv x = m x := by
  induction argv generalizing m off with
  | nil => rfl
  | cons a argv ih =>
    rw [stringsRoom_cons] at hroom
    have hle := le_round16 (a.bytes.length + 1)
    change _ ≤ room a at hle
    rw [stored, ih (by omega) (by omega)]
    refine blit_above ?_
    rw [List.length_append, List.length_singleton]
    omega

/-- The strings are where they have been stored: what is stored later is below them. -/
lemma stored_strings (hroom : stringsRoom argv ≤ off) : List.Forall₂ (StringAt (stored m off argv)) (places off argv) argv := by
  induction argv generalizing m off with
  | nil => exact .nil
  | cons a argv ih =>
    rw [stringsRoom_cons] at hroom
    refine .cons ?_ (ih (by omega))
    intro j hj
    rw [stored, stored_above (by omega) (by omega)]
    refine blit_at ?_
    rw [List.length_append, List.length_singleton]
    omega

/-- Every string ends below the ones before it. -/
lemma places_apart (hroom : stringsRoom argv ≤ off) :
    (∀ x ∈ (places off argv).zip argv, off - stringsRoom argv ≤ x.1 ∧ x.1 + x.2.bytes.length + 1 ≤ off) ∧
    ((places off argv).zip argv).Pairwise fun x y => y.1 + y.2.bytes.length + 1 ≤ x.1 := by
  induction argv generalizing off with
  | nil => simp [places]
  | cons a argv ih =>
    rw [stringsRoom_cons] at hroom ⊢
    have hle := le_round16 (a.bytes.length + 1)
    change _ ≤ room a at hle
    obtain ⟨hin, hpair⟩ := @ih (off - room a) (by omega)
    rw [places, List.zip_cons_cons]
    constructor
    · intro x hx
      rcases List.mem_cons.mp hx with rfl | hx
      · dsimp only
        omega
      · have := hin x hx
        omega
    · refine List.pairwise_cons.mpr ⟨fun x hx => ?_, hpair⟩
      exact (hin x hx).2

/-- A page is written to twice. -/
lemma setPage_setPage (k : Kmem) (pa : Nat) (m m' : Mem) : (k.setPage pa m).setPage pa m' = k.setPage pa m' := by
  unfold Kmem.setPage
  rw [Function.update_idem]

lemma setPage_same (k : Kmem) (pa : Nat) : k.setPage pa (k.page pa) = k := by
  unfold Kmem.setPage
  rw [Function.update_eq_self]

/-- `pushArgs` stores the arguments if there is room for them. -/
lemma pushArgs_eq (hs : StackPage pt n q) (k : Kmem) (ppt : Pagetable) (ustack : List Nat) (hoff : off ≤ pgsize)
    (hmod : off % 16 = 0) (hmax : ustack.length + argv.length ≤ maxarg) :
    (stringsRoom argv ≤ off → pushArgs psz pt (n * pgsize) argv k ppt ⟨n * pgsize + off, ustack⟩ =
      .ok (some ⟨n * pgsize + (off - stringsRoom argv), ustack ++ (places off argv).map (n * pgsize + ·)⟩,
        k.setPage q.pa (stored (k.page q.pa) off argv), ppt)) ∧
    (off < stringsRoom argv → ∃ m, pushArgs psz pt (n * pgsize) argv k ppt ⟨n * pgsize + off, ustack⟩ =
      .ok (none, k.setPage q.pa m, ppt)) := by
  have hpos := hs.pos
  have hbound := hs.bound
  have htf := tfPage_eq
  induction argv generalizing k off ustack with
  | nil =>
    refine ⟨fun _ => ?_, fun hlt => absurd hlt (Nat.not_lt_zero _)⟩
    rw [pushArgs, stringsRoom_nil, places, stored, List.map_nil, List.append_nil, Nat.sub_zero]
    rw [setPage_same]
    rfl
  | cons a argv ih =>
    rw [List.length_cons] at hmax
    have hshort := a.short
    have hlen : (a.bytes ++ [0]).length = a.bytes.length + 1 := by simp
    have hle := le_round16 (a.bytes.length + 1)
    change _ ≤ room a at hle
    have hamod := room_mod a
    have hdown := down_eq ⟨hpos, hbound⟩ hoff hmod (show a.bytes.length + 1 ≤ pgsize by omega)
    change _ = n * pgsize + off - room a at hdown
    have hfew : ¬ maxarg ≤ ustack.length := by omega
    have hbase : 0 < n * pgsize := Nat.mul_pos hpos (by decide)
    rw [stringsRoom_cons, pushArgs, if_neg hfew]
    dsimp only
    rw [hdown]
    by_cases hfit : room a ≤ off
    · have hsp : n * pgsize + off - room a = n * pgsize + (off - room a) := by omega
      have hcopy := @copyout_page k pt n psz (off - room a) ppt (a.bytes ++ [0]) q (by omega) hs.leaf hs.user hs.write hs.page
        (by omega) (by simp)
      rw [hsp, if_neg (by omega), hcopy, ok_bind]
      dsimp only
      rw [if_neg (by simp)]
      obtain ⟨hdone, hfail⟩ := ih (k.setPage q.pa (blit (k.page q.pa) (off - room a) (a.bytes ++ [0])))
        (ustack ++ [n * pgsize + (off - room a)]) (show off - room a ≤ pgsize by omega) (by omega)
        (by rw [List.length_append, List.length_singleton]; omega)
      constructor
      · intro hroom
        rw [hdone (by omega), setPage_self, setPage_setPage, places, stored, List.map_cons, List.append_assoc, List.singleton_append,
          Nat.sub_sub]
      · intro hlt
        obtain ⟨m, hm⟩ := hfail (by omega)
        exact ⟨m, hm.trans (by rw [setPage_setPage])⟩
    · rw [if_pos (by omega)]
      refine ⟨fun hroom => absurd hroom (by omega), fun _ => ⟨k.page q.pa, ?_⟩⟩
      rw [setPage_same]
      rfl

/-! ### The array of pointers -/

/-- `pushUstack` stores the array if there is room for it. -/
lemma pushUstack_eq {ustack : List Nat} (hs : StackPage pt n q) (k : Kmem) (ppt : Pagetable) (hoff : off ≤ pgsize)
    (hmod : off % 16 = 0) (hmax : ustack.length ≤ maxarg) :
    (round16 (8 * (ustack.length + 1)) ≤ off → pushUstack psz pt (n * pgsize) k ppt ⟨n * pgsize + off, ustack⟩ =
      .ok (some (n * pgsize + (off - round16 (8 * (ustack.length + 1)))),
        k.setPage q.pa (blit (k.page q.pa) (off - round16 (8 * (ustack.length + 1))) (wordBytes (ustack ++ [0]))), ppt)) ∧
    (off < round16 (8 * (ustack.length + 1)) → pushUstack psz pt (n * pgsize) k ppt ⟨n * pgsize + off, ustack⟩ =
      .ok (none, k, ppt)) := by
  have hpos := hs.pos
  have hbound := hs.bound
  have htf := tfPage_eq
  have hbase : 0 < n * pgsize := Nat.mul_pos hpos (by decide)
  have hle := le_round16 (8 * (ustack.length + 1))
  have hlen : (wordBytes (ustack ++ [0])).length = 8 * (ustack.length + 1) := by
    rw [length_wordBytes, List.length_append, List.length_singleton, Nat.mul_comm]
  have hfew : 8 * (ustack.length + 1) ≤ pgsize := by
    unfold maxarg at hmax
    unfold pgsize
    omega
  unfold pushUstack
  dsimp only
  rw [Nat.mul_comm _ 8, down_eq ⟨hpos, hbound⟩ hoff hmod hfew]
  constructor
  · intro hroom
    have hsp : n * pgsize + off - round16 (8 * (ustack.length + 1)) = n * pgsize + (off - round16 (8 * (ustack.length + 1))) := by
      omega
    have hne : wordBytes (ustack ++ [0]) ≠ [] := by
      rw [← List.length_pos_iff, hlen]
      omega
    rw [hsp, if_neg (by omega), copyout_page (by omega) hs.leaf hs.user hs.write hs.page (by omega) hne]
    rfl
  · intro hlt
    rw [if_pos (by omega)]
    rfl

/-- A word of the array. -/
lemma load64_words {l : List Nat} {a j : Nat} (h : ∀ x < 8 * l.length, m (a + x) = (wordBytes l).getD x 0)
    (hl : ∀ w ∈ l, w < 2 ^ 64) (hj : j < l.length) : m.load64 (a + 8 * j) = l.getD j 0 := by
  induction l generalizing a j with
  | nil => cases hj
  | cons w l ih =>
    rw [List.length_cons] at h hj
    have hcons : wordBytes (w :: l) = (List.range 8).map (fun i => UInt8.ofNat (w / 256 ^ i)) ++ wordBytes l := rfl
    have hlen : ((List.range 8).map fun i => UInt8.ofNat (w / 256 ^ i)).length = 8 := by simp
    cases j with
    | zero =>
      have hword : m.load64 a = (Mem.store64 m a w).load64 a := by
        refine Mem.load64_congr fun x hlo hhi => ?_
        have hx := h (x - a) (by omega)
        rw [Nat.add_sub_cancel' hlo] at hx
        rw [hx, hcons, List.getD_append _ _ _ _ (by omega), Mem.store64, if_pos ⟨hlo, hhi⟩, List.getD_eq_getElem?_getD,
          List.getElem?_map, List.getElem?_range (by omega)]
        rfl
      rw [Nat.mul_zero, Nat.add_zero, hword, Mem.load64_store64_same _ _ _ (hl w List.mem_cons_self)]
      rfl
    | succ j =>
      have hrest := @ih (a + 8) j (fun x hx => ?_) (fun w hw => hl w (List.mem_cons_of_mem _ hw)) (by omega)
      · rw [show a + 8 * (j + 1) = a + 8 + 8 * j by omega, hrest]
        rfl
      · have hx' := h (8 + x) (by omega)
        rw [← Nat.add_assoc] at hx'
        rw [hx', hcons, List.getD_append_right _ _ _ _ (by omega), hlen, Nat.add_sub_cancel_left]

/-- The arguments are in memory from `sp` to `top`: an array of pointers that ends in 0, and above it the
strings that they lead to, of which none overlaps another. -/
structure Passed (m : Nat → UInt8) (argv : List CStr) (sp top : Nat) (addrs : List Nat) : Prop where
  strings : List.Forall₂ (StringAt m) addrs argv
  pointers : ∀ j ≤ argv.length, Mem.load64 m (sp + 8 * j) = (addrs ++ [0]).getD j 0
  array : sp + 8 * (argv.length + 1) ≤ top
  inside : ∀ x ∈ addrs.zip argv, sp + 8 * (argv.length + 1) ≤ x.1 ∧ x.1 + x.2.bytes.length + 1 ≤ top
  apart : (addrs.zip argv).Pairwise fun x y => y.1 + y.2.bytes.length + 1 ≤ x.1

lemma Passed.congr {u v : Nat → UInt8} {sp top : Nat} {addrs : List Nat} (h : Passed u argv sp top addrs)
    (hsame : ∀ a < top, v a = u a) : Passed v argv sp top addrs := by
  have harray := h.array
  obtain ⟨hlen, hstr⟩ := List.forall₂_iff_zip.mp h.strings
  refine ⟨List.forall₂_iff_zip.mpr ⟨hlen, fun {a s} hmem j hj => ?_⟩, fun j hj => ?_, h.array, h.inside, h.apart⟩
  · have hin := (h.inside _ hmem).2
    dsimp only at hin
    rw [hsame _ (by omega)]
    exact hstr hmem j hj
  · rw [← h.pointers j hj]
    exact Mem.load64_congr fun x _ hx => hsame x (by omega)

/-- When all has been stored in page `n`. -/
lemma passed_of_stored {u : Nat → UInt8} {o : Nat} (hn : n < tfPage) (hroom : stackRoom argv ≤ pgsize)
    (ho : o = pgsize - stringsRoom argv - round16 (8 * (argv.length + 1)))
    (hu : ∀ x < pgsize, u (n * pgsize + x) =
      blit (stored m pgsize argv) o (wordBytes ((places pgsize argv).map (n * pgsize + ·) ++ [0])) x) :
    Passed u argv (n * pgsize + o) ((n + 1) * pgsize) ((places pgsize argv).map (n * pgsize + ·)) := by
  have htf := tfPage_eq
  have hle := le_round16 (8 * (argv.length + 1))
  unfold stackRoom at hroom
  obtain ⟨hin, hpair⟩ := places_apart (show stringsRoom argv ≤ pgsize by omega)
  obtain ⟨hlen, hstr⟩ := List.forall₂_iff_zip.mp (stored_strings (m := m) (show stringsRoom argv ≤ pgsize by omega))
  have hwords : (wordBytes ((places pgsize argv).map (n * pgsize + ·) ++ [0])).length = 8 * (argv.length + 1) := by
    rw [length_wordBytes, List.length_append, List.length_map, length_places, List.length_singleton, Nat.mul_comm]
  have hnext : (n + 1) * pgsize = n * pgsize + pgsize := Nat.succ_mul n pgsize
  refine ⟨?_, fun j hj => ?_, by omega, ?_, ?_⟩
  · rw [List.forall₂_map_left_iff, List.forall₂_iff_zip]
    refine ⟨hlen, fun {p a} hmem j hj => ?_⟩
    obtain ⟨hlow, hhigh⟩ := hin _ hmem
    dsimp only at hlow hhigh
    rw [Nat.add_assoc, hu _ (by omega), blit_above (by omega)]
    exact hstr hmem j hj
  · refine load64_words (l := (places pgsize argv).map (n * pgsize + ·) ++ [0]) (fun x hx => ?_) (fun w hw => ?_) ?_
    · rw [List.length_append, List.length_map, length_places, List.length_singleton] at hx
      rw [Nat.add_assoc, hu _ (by omega), blit_at (by omega)]
    · rcases List.mem_append.mp hw with hw | hw
      · obtain ⟨p, hp, rfl⟩ := List.mem_map.mp hw
        obtain ⟨l, hl, rfl⟩ := List.mem_iff_getElem.mp hp
        have hl' : l < argv.length := by rwa [length_places] at hl
        have hmem : ((places pgsize argv)[l], argv[l]) ∈ (places pgsize argv).zip argv := by
          rw [List.mem_iff_getElem]
          exact ⟨l, by rw [List.length_zip]; omega, List.getElem_zip⟩
        have hhigh := (hin _ hmem).2
        unfold pgsize at *
        omega
      · rw [List.mem_singleton.mp hw]
        decide
    · rw [List.length_append, List.length_map, length_places, List.length_singleton]
      omega
  · intro x hx
    rw [List.zip_map_left, List.mem_map] at hx
    obtain ⟨⟨p, a⟩, hmem, rfl⟩ := hx
    obtain ⟨hlow, hhigh⟩ := hin _ hmem
    dsimp only [Prod.map, id] at hlow hhigh ⊢
    omega
  · rw [List.zip_map_left, List.pairwise_map]
    refine hpair.imp fun {x y} hxy => ?_
    dsimp only [Prod.map, id]
    omega

/-! ### The stack of an image -/

/-- A mapped page is taken from the user. -/
lemma uvmclear_total (hn : n < 2 ^ 26) (k : Kmem) (hq : pt.leaf n = some q) : ∃ pt', uvmclear k pt (n * pgsize) = .ok pt' := by
  rcases walk_false k pt (page_lt_maxva hn) with ⟨-, hw⟩ | ⟨hnone, -⟩
  · unfold uvmclear
    rw [hw]
    exact ⟨_, rfl⟩
  · rw [pte_page pt hn, hq] at hnone
    cases hnone

/-- The size may be rounded up. -/
lemma Filled.rounded {f : Nat → UInt8} (h : Filled V R tramp tf k pt sz f) :
    Filled V R tramp tf k pt (pages sz * pgsize) f := by
  refine ⟨⟨h.built.top, ?_, ?_⟩, ?_, h.books, h.nodup, ?_, ?_, ?_⟩ <;> rw [pages_page]
  · exact h.built.size
  · exact h.built.user
  · exact h.shape
  · exact h.user
  · exact h.byte
  · exact h.beyond

/-- An image of `p` pages that read as `f` has been given a guard page and a stack with the arguments. -/
structure Stacked (p : Nat) (f : Nat → UInt8) (argv : List CStr) (k : Kmem) (pt : Pagetable) (sp : Nat) : Prop where
  image : ∀ a, a / pgsize < p → Usable false pt a ∧ byteAt k pt a = f a
  guard : ∃ q, pt.leaf p = some q ∧ q.perm.u = false
  stack : ∀ a, a / pgsize = p + 1 → Usable true pt a
  aligned : sp % 16 = 0
  inside : (p + 1) * pgsize ≤ sp
  passed : ∃ addrs, Passed (byteAt k pt) argv sp ((p + 2) * pgsize) addrs

/-- Nothing of this depends on more than what the user pages hold. -/
lemma Stacked.congr {p sp : Nat} {f : Nat → UInt8} (h : Stacked p f argv k pt sp)
    (hpage : ∀ m q, m < p + 2 → pt.leaf m = some q → k'.page q.pa = k.page q.pa) : Stacked p f argv k' pt sp := by
  have hbyte : ∀ a, a / pgsize < p + 2 → byteAt k' pt a = byteAt k pt a := by
    intro a ha
    unfold byteAt
    cases hq : pt.leaf (a / pgsize) with
    | none => rfl
    | some q => rw [Option.elim_some, Option.elim_some, hpage _ q ha hq]
  refine ⟨fun a ha => ?_, h.guard, h.stack, h.aligned, h.inside, ?_⟩
  · rw [hbyte a (by omega)]
    exact h.image a ha
  · obtain ⟨addrs, hpassed⟩ := h.passed
    refine ⟨addrs, hpassed.congr fun a ha => hbyte a ?_⟩
    exact Nat.div_lt_of_lt_mul (by rwa [Nat.mul_comm] at ha)

/-- The page of the stack has been written to, which is the last page of the image. -/
lemma Filled.stacked {p o : Nat} {f : Nat → UInt8} (h : Filled V R tramp tf k pt ((p + 2) * pgsize) f)
    (hclear : uvmclear k pt (p * pgsize) = .ok pt') (hs : StackPage pt' (p + 1) q) (hroom : stackRoom argv ≤ pgsize)
    (ho : o = pgsize - stringsRoom argv - round16 (8 * (argv.length + 1))) :
    Stacked p f argv (k.setPage q.pa
      (blit (stored m pgsize argv) o (wordBytes ((places pgsize argv).map ((p + 1) * pgsize + ·) ++ [0])))) pt' ((p + 1) * pgsize + o) := by
  have htf := tfPage_eq
  have hbound := hs.bound
  obtain ⟨hrefs, hother, hsome, -⟩ := uvmclear_ok hclear
  have hnodup : (userPages pt'.leaf).Nodup := by
    have hall := h.nodup
    rw [← hrefs, Pagetable.refs] at hall
    exact (Multiset.nodup_add.mp hall).2.1
  have hpages : pages ((p + 2) * pgsize) = p + 2 := pages_page _
  refine ⟨fun a ha => ?_, ?_, fun a ha => ?_, ?_, Nat.le_add_right _ _, _, passed_of_stored (n := p + 1) (m := m) hbound hroom ho fun x hx => ?_⟩
  · obtain ⟨p₀, hp₀, hu, -⟩ := h.leaf (n := a / pgsize) (by omega)
    have hleaf : pt'.leaf (a / pgsize) = some p₀ := by rw [hother _ (by omega), hp₀]
    have hdecomp : a / pgsize * pgsize + a % pgsize = a := Nat.div_add_mod' a pgsize
    have hmod : a % pgsize < pgsize := Nat.mod_lt _ (by decide)
    refine ⟨?_, ?_⟩
    · rw [← hdecomp]
      exact usable_page (by omega) hleaf hmod hu (by simp)
    · have hbyte := h.byte a (by omega)
      unfold byteAt at hbyte ⊢
      rw [hp₀, Option.elim_some] at hbyte
      rw [hleaf, Option.elim_some, setPage_ne ?_, hbyte]
      intro heq
      have hsame := userPages_inj hnodup (by omega) hbound hleaf hs.leaf heq
      omega
  · obtain ⟨g, hg, -⟩ := h.leaf (n := p) (by omega)
    exact ⟨_, hsome g hg, rfl⟩
  · have hdecomp : a / pgsize * pgsize + a % pgsize = a := Nat.div_add_mod' a pgsize
    rw [← hdecomp, ha]
    exact usable_page (by omega) hs.leaf (Nat.mod_lt _ (by decide)) hs.user fun _ => hs.write
  · have hmod := stringsRoom_mod argv
    have hmod' := round16_mod (8 * (argv.length + 1))
    unfold stackRoom at hroom
    rw [ho]
    unfold pgsize at *
    omega
  · rw [byteAt_page hs.leaf hx, setPage_self]

/-- The arguments are pushed to the page of the stack. -/
lemma Filled.push {p : Nat} {f : Nat → UInt8} (h : Filled V R tramp tf k pt ((p + 2) * pgsize) f)
    (hclear : uvmclear k pt (p * pgsize) = .ok pt') (hs : StackPage pt' (p + 1) q) (hmax : argv.length ≤ maxarg) (psz : Nat)
    (ppt : Pagetable) :
    (stackRoom argv ≤ pgsize → ∃ st k' sp k'', pushArgs psz pt' ((p + 1) * pgsize) argv k ppt ⟨(p + 2) * pgsize, []⟩ = .ok (some st, k', ppt) ∧
      pushUstack psz pt' ((p + 1) * pgsize) k' ppt st = .ok (some sp, k'', ppt) ∧
      st.ustack.length = argv.length ∧ Stacked p f argv k'' pt' sp) ∧
    (pgsize < stackRoom argv → ∃ st k', pushArgs psz pt' ((p + 1) * pgsize) argv k ppt ⟨(p + 2) * pgsize, []⟩ = .ok (st, k', ppt) ∧
      ∀ st', st = some st' → pushUstack psz pt' ((p + 1) * pgsize) k' ppt st' = .ok (none, k', ppt)) := by
  have htop : (p + 2) * pgsize = (p + 1) * pgsize + pgsize := Nat.succ_mul _ _
  have hmod := stringsRoom_mod argv
  have hlen : ((places pgsize argv).map ((p + 1) * pgsize + ·)).length = argv.length := by
    rw [List.length_map, length_places]
  obtain ⟨hdone, hfail⟩ := @pushArgs_eq pt' (p + 1) psz pgsize q argv hs k ppt [] le_rfl rfl (by simpa using hmax)
  rw [List.nil_append] at hdone
  rw [htop]
  have hustack := fun (k : Kmem) (hle : stringsRoom argv ≤ pgsize) =>
    @pushUstack_eq pt' (p + 1) psz (pgsize - stringsRoom argv) q _ hs k ppt (Nat.sub_le _ _) (by unfold pgsize at *; omega)
      (hlen.le.trans hmax)
  rw [hlen] at hustack
  constructor
  · intro hroom
    have hle : stringsRoom argv ≤ pgsize := (Nat.le_add_right _ _).trans hroom
    refine ⟨_, _, _, _, hdone hle, (hustack _ hle).1 ?_, hlen, ?_⟩
    · unfold stackRoom at hroom
      omega
    · rw [setPage_setPage, setPage_self]
      exact h.stacked hclear hs hroom rfl
  · intro hlt
    by_cases hle : stringsRoom argv ≤ pgsize
    · refine ⟨_, _, hdone hle, ?_⟩
      rintro st' ⟨⟩
      refine (hustack _ hle).2 ?_
      unfold stackRoom at hlt
      omega
    · obtain ⟨m, hm⟩ := hfail (not_le.mp hle)
      refine ⟨_, _, hm, ?_⟩
      rintro st' ⟨⟩

end Loader

end FogOS.Kernel
