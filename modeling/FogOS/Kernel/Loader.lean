import FogOS.Kernel.Image
import FogOS.Kernel.Paths
import FogOS.Kernel.TableCost

/-!
# Loading an ELF file

What `kexec` makes of the bytes of a file: the loop over the program headers returns for every file and for
every amount of free memory, and when all segments have been loaded memory holds them one over the other.
-/

namespace FogOS.Kernel

open ByteMem Ledger Copy

namespace Loader

variable {V : Arena} {R : Multiset Nat} {k k' : Kmem} {pt pt' : Pagetable} {tramp tf sz sz' n va : Nat} {fs : Fs}
  {ip : Fin ninode} {f : Nat → UInt8} {c : List UInt8} {a : Nat}

/-! ### The segments of a file -/

/-- The headers of segments to load among `n` program headers from `off` on. -/
def loadable (c : List UInt8) : Nat → Nat → List (List UInt8)
  | 0, _ => []
  | n + 1, off =>
    let ph := (c.drop off).take proghdrSize
    if phType ph = 1 then ph :: loadable c n (u32 (off + proghdrSize)) else loadable c n (u32 (off + proghdrSize))

/-- The headers of the loadable segments of an ELF file. -/
def segments (c : List UInt8) : List (List UInt8) :=
  let hdr := c.take elfhdrSize
  loadable c (ehPhnum hdr) (u32 (ehPhoff hdr))

/-- Memory after `n` bytes of the file, from `off` on, have been put at `va`. -/
def overlay (c : List UInt8) (va off n : Nat) (f : Nat → UInt8) : Nat → UInt8 :=
  fun a => if va ≤ a ∧ a < va + n then c.getD (off + (a - va)) 0 else f a

/-- The address is in the part of the segment that comes from the file. -/
def Covers (ph : List UInt8) (a : Nat) : Prop := phVaddr ph ≤ a ∧ a < phVaddr ph + phFilesz ph

/-- Memory after the segments have been put into it one after the other. -/
def image (c : List UInt8) (segs : List (List UInt8)) (f : Nat → UInt8) : Nat → UInt8 :=
  segs.foldl (fun f ph => overlay c (phVaddr ph) (u32 (phOff ph)) (phFilesz ph) f) f

lemma image_cons (c : List UInt8) (ph : List UInt8) (segs : List (List UInt8)) (f : Nat → UInt8) :
    image c (ph :: segs) f = image c segs (overlay c (phVaddr ph) (u32 (phOff ph)) (phFilesz ph) f) := rfl

lemma image_of_not_covers {segs : List (List UInt8)} (h : ∀ ph ∈ segs, ¬ Covers ph a) : image c segs f a = f a := by
  induction segs generalizing f with
  | nil => rfl
  | cons ph segs ih =>
    rw [image_cons, ih fun ph' hmem => h ph' (List.mem_cons_of_mem _ hmem)]
    exact if_neg (h ph List.mem_cons_self)

/-- The last segment that covers an address decides. -/
lemma image_of_last {pre post : List (List UInt8)} {ph : List UInt8} (hin : Covers ph a) (hlast : ∀ ph' ∈ post, ¬ Covers ph' a) :
    image c (pre ++ ph :: post) f a = c.getD (u32 (phOff ph) + (a - phVaddr ph)) 0 := by
  unfold image
  rw [List.foldl_append, List.foldl_cons]
  change image c post _ a = _
  rw [image_of_not_covers hlast]
  exact if_pos hin

lemma overlay_zero (c : List UInt8) (va off : Nat) (f : Nat → UInt8) : overlay c va off 0 f = f := by
  funext a
  exact if_neg (by omega)

/-- Some more bytes of the file. -/
lemma overlay_add (c : List UInt8) (va off n m : Nat) (f : Nat → UInt8) :
    overlay c (va + n) (off + n) m (overlay c va off n f) = overlay c va off (n + m) f := by
  funext a
  unfold overlay
  by_cases hlo : va ≤ a ∧ a < va + n
  · rw [if_neg (by omega), if_pos hlo, if_pos (by omega)]
  · by_cases hhi : va + n ≤ a ∧ a < va + n + m
    · rw [if_pos hhi, if_pos (by omega)]
      congr 1
      omega
    · rw [if_neg hhi, if_neg hlo, if_neg (by omega)]

/-! ### Memory -/

/-- Memory of `sz` bytes that reads as `f`, in the allocator's books, where others hold the pages `R`. -/
structure Filled (V : Arena) (R : Multiset Nat) (tramp tf : Nat) (k : Kmem) (pt : Pagetable) (sz : Nat) (f : Nat → UInt8) :
    Prop where
  built : Built tramp tf sz pt
  shape : Shaped pt (pages sz)
  books : k.Books V (R + pt.refs)
  nodup : pt.refs.Nodup
  user : ∀ m q, m < pages sz → pt.leaf m = some q → q.perm.u = true
  byte : ∀ a, a / pgsize < pages sz → byteAt k pt a = f a
  beyond : ∀ a, pages sz ≤ a / pgsize → f a = 0

lemma Filled.leaf (h : Filled V R tramp tf k pt sz f) (hn : n < pages sz) :
    ∃ q, pt.leaf n = some q ∧ q.perm.u = true ∧ PageAddr q.pa := by
  have hsize := h.built.size
  obtain ⟨q, hq⟩ := Option.ne_none_iff_exists'.mp ((h.built.user n (by omega)).mpr hn)
  exact ⟨q, hq, h.user n q hn hq, pageAddr_of_leaf h.books (by omega) hq⟩

/-- There is not more memory than there are pages. -/
lemma Filled.pages_le (h : Filled V R tramp tf k pt sz f) : pages sz + k.freelist.length ≤ npages := by
  have hsize := h.built.size
  have hcard := card_mapped (S := Finset.range (pages sz)) h.books h.nodup fun m hm => by
    rw [Finset.mem_range] at hm
    exact ⟨by omega, (h.built.user m (by omega)).mpr hm⟩
  rwa [Finset.card_range] at hcard

/-- An image can be given up. -/
lemma freeable (h : Built tramp tf sz pt) (k : Kmem) : ∃ k', procFreepagetable k pt sz = .ok k' := by
  have htf := tfPage_eq
  have hsize := h.size
  refine (procFreepagetable_iff h.top (by omega) k).mpr fun m hm hlt => ?_
  by_contra hne
  have hbelow := (h.user m hlt).mp hne
  omega

lemma Filled.room (h : Filled V R tramp tf k pt sz f) : pages sz + k.freelist.length ≤ 2 ^ 18 := by
  have hnp := npages_eq
  have hpages := h.pages_le
  omega

/-- `uvmalloc` grows the memory by zeros, or there are not enough pages for it and its tables. -/
lemma Filled.alloc (h : Filled V R tramp tf k pt sz f) (newsz : Nat) (xperm : Perm) :
    ∃ r k' pt', uvmalloc k pt sz newsz xperm = .ok (r, k', pt') ∧
      (r ≠ 0 ↔ 0 < max sz newsz ∧
        cost (pages (max sz newsz)) ≤ cost (pages sz) + k.freelist.length) ∧
      (r ≠ 0 → r = max sz newsz ∧ Filled V R tramp tf k' pt' r f ∧
        cost (pages sz) + k.freelist.length = cost (pages (max sz newsz)) + k'.freelist.length) := by
  have htf := tfPage_eq
  have hnp := npages_eq
  have hsize := h.built.size
  have hpages := h.pages_le
  obtain ⟨r, k', pt', hrun⟩ := @uvmalloc_total k pt sz _ newsz xperm le_rfl (by omega)
    fun m hm hlt => by
      by_contra hne
      have hbelow := (h.built.user m hlt).mp hne
      omega
  obtain ⟨hiff, hcost⟩ := uvmalloc_cost h.shape h.room hrun
  refine ⟨r, k', pt', hrun, hiff, fun hr => ?_⟩
  obtain ⟨hspent, hshape⟩ := hcost hr
  obtain ⟨htr, -, hnew⟩ := h.built.alloc (V := V) hrun
  have hbuilt := hnew hr
  by_cases hlt : newsz < sz
  · rw [uvmalloc, if_pos hlt] at hrun
    obtain ⟨rfl, hrest⟩ := Prod.mk.inj (pure_ok hrun)
    obtain ⟨rfl, rfl⟩ := Prod.mk.inj hrest
    exact ⟨by omega, h, hspent⟩
  · obtain ⟨⟨rfl, hmax, hgrown, hzero⟩ | ⟨rfl, -⟩, hkept⟩ := Sbrk.uvmalloc_moves (not_lt.mp hlt) h.built.size h.built.top h.books h.nodup hrun
    · have hmono := pages_mono (not_lt.mp hlt)
      rw [max_eq_right (not_lt.mp hlt)] at hshape
      refine ⟨by omega, ⟨hbuilt, hshape, htr.accounts h.books, htr.nodup h.books h.nodup, fun m q hm hq => ?_, fun a ha => ?_,
        fun a ha => ?_⟩, hspent⟩
      · by_cases hold : m < pages sz
        · rw [hgrown.same m (Or.inl hold)] at hq
          exact h.user m q hold hq
        · obtain ⟨pa, hpa⟩ := hgrown.mapped m (by omega) (by omega)
          rw [hpa] at hq
          cases hq
          rfl
      · by_cases hold : a / pgsize < pages sz
        · obtain ⟨q, hq, -⟩ := h.leaf hold
          have hq' : pt'.leaf (a / pgsize) = some q := by rw [hgrown.same _ (Or.inl hold), hq]
          have hbyte := h.byte a hold
          unfold byteAt at hbyte ⊢
          rw [hq, Option.elim_some] at hbyte
          rw [hq', Option.elim_some, hkept _ q (by omega) hq hq', hbyte]
        · obtain ⟨pa, hpa⟩ := hgrown.mapped (a / pgsize) (by omega) (by omega)
          unfold byteAt
          rw [hpa, Option.elim_some, hzero _ _ (by omega) ha hpa, h.beyond a (by omega)]
      · exact h.beyond a (by omega)
    · exact absurd rfl hr

/-- Bytes are stored in a page. -/
lemma byteAt_blit {q : Pte} {src : List UInt8} (hnodup : pt.refs.Nodup) (hn : n < tfPage) (hq : pt.leaf n = some q)
    (hlen : src.length ≤ pgsize) (ha : a / pgsize < tfPage) :
    byteAt (k.setPage q.pa (blit (k.page q.pa) 0 src)) pt a =
      if n * pgsize ≤ a ∧ a < n * pgsize + src.length then src.getD (a - n * pgsize) 0 else byteAt k pt a := by
  have hdecomp : a / pgsize * pgsize + a % pgsize = a := Nat.div_add_mod' a pgsize
  have hmod : a % pgsize < pgsize := Nat.mod_lt _ (by decide)
  unfold byteAt
  cases hp : pt.leaf (a / pgsize) with
  | none =>
    have hne : ¬ (n * pgsize ≤ a ∧ a < n * pgsize + src.length) := by
      intro hin
      have hdiv : a / pgsize = n := Nat.div_eq_of_lt_le (by omega) (by rw [Nat.succ_mul]; omega)
      rw [hdiv, hq] at hp
      cases hp
    rw [if_neg hne]
    rfl
  | some p =>
    rw [Option.elim_some, Option.elim_some]
    by_cases hpa : p.pa = q.pa
    · have hdiv : a / pgsize = n := by
        rw [Pagetable.refs] at hnodup
        exact userPages_inj (Multiset.nodup_add.mp hnodup).2.1 ha hn hp hq hpa
      rw [hdiv] at hdecomp
      rw [hpa, setPage_self]
      unfold blit
      by_cases hin : n * pgsize ≤ a ∧ a < n * pgsize + src.length
      · rw [if_pos ⟨by omega, by omega⟩, if_pos hin]
        congr 1
        omega
      · rw [if_neg (by omega), if_neg hin]
    · have hne : ¬ (n * pgsize ≤ a ∧ a < n * pgsize + src.length) := by
        intro hin
        have hdiv : a / pgsize = n := Nat.div_eq_of_lt_le (by omega) (by rw [Nat.succ_mul]; omega)
        rw [hdiv, hq] at hp
        cases hp
        exact hpa rfl
      rw [setPage_ne hpa, if_neg hne]

/-- Bytes of the file are put into a page of the memory. -/
lemma Filled.put {q : Pte} {off m : Nat} (h : Filled V R tramp tf k pt sz f) (hn : n < pages sz) (hq : pt.leaf n = some q)
    (hm : m ≤ pgsize) (hend : off + m ≤ c.length) :
    Filled V R tramp tf (k.setPage q.pa (blit (k.page q.pa) 0 ((c.drop off).take m))) pt sz (overlay c (n * pgsize) off m f) := by
  have hsize := h.built.size
  have hlen : ((c.drop off).take m).length = m := by
    rw [List.length_take, List.length_drop]
    omega
  refine ⟨h.built, h.shape, (Kmem.trades_setPage _ (mem_refs (by omega) hq)).accounts h.books, h.nodup, h.user, fun a ha => ?_, fun a ha => ?_⟩
  · rw [byteAt_blit h.nodup (by omega) hq (by omega) (by omega), hlen]
    unfold overlay
    by_cases hin : n * pgsize ≤ a ∧ a < n * pgsize + m
    · rw [if_pos hin, if_pos hin, List.getD_eq_getElem?_getD, List.getElem?_take_of_lt (by omega), List.getElem?_drop,
        ← List.getD_eq_getElem?_getD]
    · rw [if_neg hin, if_neg hin, h.byte a ha]
  · have hdecomp : a / pgsize * pgsize + a % pgsize = a := Nat.div_add_mod' a pgsize
    have hle : (n + 1) * pgsize ≤ a / pgsize * pgsize := Nat.mul_le_mul_right _ (by omega)
    rw [Nat.succ_mul] at hle
    unfold overlay
    rw [if_neg (by omega), h.beyond a ha]

/-! ### Loading -/

/-- Reading a few bytes of a file, wherever they are to come from. -/
lemma readi_any {off m : Nat} (hd : Fs.Dense fs (fs.itable ip).d) (hoff : off < 2 ^ 32) (hm : m ≤ pgsize) :
    fs.readi ip off m = .ok (((fs.content (fs.itable ip).d).drop off).take m, fs) := by
  have hmax : Fs.maxfile * bsize = 274432 := by decide
  have hsize := hd.size
  by_cases hlt : off + m < 2 ^ 32
  · exact Fs.readi_ok hd hlt
  · have hwrap : u32 (off + m) < off := by
      unfold u32
      unfold pgsize at hm
      omega
    rw [List.drop_eq_nil_of_le (by rw [Fs.length_content]; unfold pgsize at hm; omega), List.take_nil]
    unfold Fs.readi
    exact if_pos (Or.inr hwrap)

lemma loadsegLoop_total (hd : Fs.Dense fs (fs.itable ip).d) (off size : Nat) (hoff : off < 2 ^ 32) (hend : va + size ≤ sz)
    (hva : va = n * pgsize) : ∀ (r i : Nat) {k : Kmem}, r = rounds (i * pgsize) size →
      (i = 0 ∨ off + min (i * pgsize) size ≤ (fs.content (fs.itable ip).d).length) →
      Filled V R tramp tf k pt sz (overlay (fs.content (fs.itable ip).d) va off (min (i * pgsize) size) f) →
      ∃ b k', loadsegLoop pt va ip off size r k fs (i * pgsize) = .ok (b, k', fs) ∧ k'.freelist = k.freelist ∧
        (b = true → Filled V R tramp tf k' pt sz (overlay (fs.content (fs.itable ip).d) va off size f) ∧
          (size = 0 ∨ off + size ≤ (fs.content (fs.itable ip).d).length)) ∧
        (size = 0 ∨ off + size ≤ (fs.content (fs.itable ip).d).length → b = true) := by
  have htf := tfPage_eq
  have hmax : Fs.maxfile * bsize = 274432 := by decide
  have hlen : (fs.content (fs.itable ip).d).length ≤ 274432 := by
    rw [Fs.length_content, ← hmax]
    exact hd.size
  intro r
  induction r with
  | zero =>
    intro i k hr hread h
    have hle : size ≤ i * pgsize := by
      unfold rounds pgsize at hr
      unfold pgsize
      omega
    rw [Nat.min_eq_right hle] at h hread
    refine ⟨true, k, rfl, rfl, fun _ => ⟨h, ?_⟩, fun _ => rfl⟩
    rcases hread with rfl | hread
    · exact Or.inl (by omega)
    · exact Or.inr hread
  | succ r ih =>
    intro i k hr hread h
    have hlt : i * pgsize < size := by
      unfold rounds pgsize at hr
      unfold pgsize
      omega
    have hpage : va + i * pgsize = (n + i) * pgsize := by rw [hva, Nat.add_mul]
    have hin : n + i < pages sz := lt_pages (by omega)
    have hsz := h.built.size
    obtain ⟨q, hq, hu, haddr⟩ := h.leaf hin
    have hu64 : u64 (va + i * pgsize) = (n + i) * pgsize := by
      rw [hpage]
      refine Nat.mod_eq_of_lt ?_
      unfold pgsize
      omega
    have hwalk : walkaddr k pt ((n + i) * pgsize) = .ok q.pa := by
      rw [walkaddr_page k pt (by omega), hq, Option.elim_some, if_pos hu]
    rw [Nat.min_eq_left hlt.le] at h hread
    have hsmall : off + i * pgsize < 2 ^ 32 := by
      rcases hread with rfl | hread
      · omega
      · omega
    obtain ⟨m, hm⟩ : ∃ m, m = if size - i * pgsize < pgsize then size - i * pgsize else pgsize := ⟨_, rfl⟩
    have hmle : m ≤ pgsize := by
      rw [hm]
      split <;> omega
    have hmin : min ((i + 1) * pgsize) size = i * pgsize + m := by
      rw [hm, Nat.succ_mul]
      split <;> omega
    have hpos : 0 < m := by
      rw [hm]
      split
      · omega
      · decide
    rw [loadsegLoop, hu64, hwalk, ok_bind, if_neg haddr.ne_zero]
    dsimp only
    rw [← hm, show u32 (off + i * pgsize) = off + i * pgsize from Nat.mod_eq_of_lt hsmall, readi_any hd hsmall hmle, ok_bind]
    dsimp only
    by_cases hshort : ((((fs.content (fs.itable ip).d).drop (off + i * pgsize)).take m).length ≠ m)
    · rw [if_pos hshort]
      refine ⟨false, _, rfl, rfl, fun hb => (by cases hb), fun hok => ?_⟩
      rw [List.length_take, List.length_drop] at hshort
      omega
    · rw [if_neg hshort]
      rw [not_not, List.length_take, List.length_drop] at hshort
      have hreach : off + i * pgsize + m ≤ (fs.content (fs.itable ip).d).length := by omega
      have hput := h.put hin hq hmle hreach
      rw [← hpage, overlay_add] at hput
      rw [← Nat.succ_mul]
      refine ih (i + 1) ?_ (Or.inr (by rw [hmin]; omega)) (by rw [hmin]; exact hput)
      unfold rounds pgsize at hr ⊢
      omega

/-- The segment can be loaded from the file, if there is memory for it. -/
structure Fits (c ph : List UInt8) : Prop where
  filesz : phFilesz ph ≤ phMemsz ph
  memsz : phVaddr ph + phMemsz ph < 2 ^ 64
  aligned : phVaddr ph % pgsize = 0
  bytes : phFilesz ph = 0 ∨ u32 (phOff ph) + phFilesz ph ≤ c.length

/-- The `n` program headers from `off` on are in the file, and so are the segments. -/
def Headers (c : List UInt8) : Nat → Nat → Prop
  | 0, _ => True
  | n + 1, off => off + proghdrSize ≤ c.length ∧
    (phType ((c.drop off).take proghdrSize) = 1 → Fits c ((c.drop off).take proghdrSize)) ∧ Headers c n (u32 (off + proghdrSize))

/-- Where the highest segment ends. -/
def extent (segs : List (List UInt8)) : Nat := (segs.map fun ph => phVaddr ph + phMemsz ph).foldr max 0

lemma extent_cons (ph : List UInt8) (segs : List (List UInt8)) :
    extent (ph :: segs) = max (phVaddr ph + phMemsz ph) (extent segs) := rfl

lemma u64_lt_of_not {a b : Nat} (ha : a < 2 ^ 64) (h : ¬ u64 (a + b) < a) (hb : b < 2 ^ 64) : a + b < 2 ^ 64 := by
  unfold u64 at h
  omega

lemma field_lt (b : List UInt8) (off n : Nat) : field b off n < 256 ^ n := by
  have hle : ∀ l : List UInt8, Fs.leNat l < 256 ^ l.length := by
    intro l
    induction l with
    | nil => exact Nat.one_pos
    | cons x l ih =>
      have hx := x.toNat_lt
      rw [Fs.leNat, List.length_cons, Nat.pow_succ]
      omega
  refine (hle _).trans_le (Nat.pow_le_pow_right (by decide) ?_)
  exact List.length_take_le n _

/-- The segment has been taken from the file, and is in a memory of `sz` bytes. -/
structure Placed (c : List UInt8) (sz : Nat) (ph : List UInt8) : Prop where
  below : phVaddr ph + phFilesz ph ≤ sz
  bytes : phFilesz ph = 0 ∨ u32 (phOff ph) + phFilesz ph ≤ c.length

/-- The size that `uvmalloc` is asked for at the first segment is not 0, which would be taken for a failure. -/
def Begins (sz : Nat) (segs : List (List UInt8)) : Prop := ∀ ph ∈ segs.head?, 0 < max sz (phVaddr ph + phMemsz ph)

/-- The loop over the program headers returns. It has loaded all segments exactly if they can be loaded and there are enough
pages; memory holds them then. -/
lemma loadSegments_total (hd : Fs.Dense fs (fs.itable ip).d) (hc : c = fs.content (fs.itable ip).d) : ∀ (r off : Nat) {k : Kmem}
    {pt : Pagetable} {sz : Nat} {f : Nat → UInt8}, off < 2 ^ 32 → Filled V R tramp tf k pt sz f →
    ∃ b sz' k' pt', loadSegments ip r k fs pt sz off = .ok (b, sz', k', fs, pt') ∧
      (b = true → Filled V R tramp tf k' pt' sz' (image c (loadable c r off) f) ∧
        sz' = max sz (extent (loadable c r off)) ∧ (∀ ph ∈ loadable c r off, Placed c sz' ph) ∧
        cost (pages sz) + k.freelist.length = cost (pages sz') + k'.freelist.length) ∧
      (b = true ↔ Headers c r off ∧ Begins sz (loadable c r off) ∧
        cost (pages (max sz (extent (loadable c r off)))) ≤ cost (pages sz) + k.freelist.length) := by
  have htf := tfPage_eq
  have hnp := npages_eq
  have hmax : Fs.maxfile * bsize = 274432 := by decide
  have hlen : c.length ≤ 274432 := by
    rw [hc, Fs.length_content, ← hmax]
    exact hd.size
  intro r
  induction r with
  | zero =>
    intro off k pt sz f _ h
    have hsz : max sz (extent (loadable c 0 off)) = sz := Nat.max_zero sz
    rw [hsz]
    refine ⟨true, sz, k, pt, rfl, fun _ => ⟨h, rfl, fun ph hph => ?_, rfl⟩, ?_⟩
    · cases hph
    · exact iff_of_true rfl ⟨trivial, fun ph hph => (by cases hph), Nat.le_add_right _ _⟩
  | succ r ih =>
    intro off k pt sz f hoff h
    have hnext : u32 (off + proghdrSize) < 2 ^ 32 := Nat.mod_lt _ (by decide)
    have hfail : ∀ {P Q : Prop}, ¬ Q → (false = true → P) ∧ (false = true ↔ Q) :=
      fun hno => ⟨fun hb => (by cases hb), iff_of_false (by simp) hno⟩
    rw [loadSegments, readi_any hd hoff (by decide), ok_bind, ← hc]
    dsimp only
    obtain ⟨ph, hph⟩ : ∃ ph, ph = (c.drop off).take proghdrSize := ⟨_, rfl⟩
    rw [← hph]
    by_cases hshort : ph.length ≠ proghdrSize
    · rw [if_pos hshort]
      refine ⟨false, sz, k, pt, rfl, hfail fun hh => hshort ?_⟩
      rw [hph, List.length_take, List.length_drop]
      have := hh.1.1
      omega
    rw [if_neg hshort]
    have hin : off + proghdrSize ≤ c.length := by
      rw [not_not, hph, List.length_take, List.length_drop] at hshort
      unfold proghdrSize at hshort ⊢
      omega
    by_cases htype : phType ph = 1
    · have hload : loadable c (r + 1) off = ph :: loadable c r (u32 (off + proghdrSize)) := by
        rw [loadable, ← hph]
        exact if_pos htype
      have hfits : Headers c (r + 1) off → Fits c ph := fun hh => hph ▸ hh.2.1 (hph ▸ htype)
      have hva : phVaddr ph < 2 ^ 64 := field_lt ph 16 8
      have hmem : phMemsz ph < 2 ^ 64 := field_lt ph 40 8
      rw [if_neg (not_not.mpr htype)]
      by_cases hsizes : phMemsz ph < phFilesz ph
      · rw [if_pos hsizes]
        exact ⟨false, sz, k, pt, rfl, hfail fun hh => absurd (hfits hh.1).filesz (not_le.mpr hsizes)⟩
      rw [if_neg hsizes]
      by_cases hwrap : u64 (phVaddr ph + phMemsz ph) < phVaddr ph
      · rw [if_pos hwrap]
        refine ⟨false, sz, k, pt, rfl, hfail fun hh => ?_⟩
        have := (hfits hh.1).memsz
        unfold u64 at hwrap
        omega
      rw [if_neg hwrap]
      have hsum := u64_lt_of_not hva hwrap hmem
      by_cases halign : phVaddr ph % pgsize ≠ 0
      · rw [if_pos halign]
        exact ⟨false, sz, k, pt, rfl, hfail fun hh => halign (hfits hh.1).aligned⟩
      rw [if_neg halign, show u64 (phVaddr ph + phMemsz ph) = phVaddr ph + phMemsz ph from Nat.mod_eq_of_lt hsum]
      obtain ⟨r₁, k₁, pt₁, halloc, hiff₁, hgrown⟩ := h.alloc (phVaddr ph + phMemsz ph) (flags2perm (phFlags ph))
      have hbegins : Begins sz (ph :: loadable c r (u32 (off + proghdrSize))) ↔ 0 < max sz (phVaddr ph + phMemsz ph) := by
        simp [Begins]
      rw [halloc, ok_bind, hload, extent_cons, image_cons, hbegins, ← max_assoc]
      dsimp only
      by_cases hr₁ : r₁ = 0
      · rw [if_pos hr₁]
        refine ⟨false, sz, k₁, pt₁, rfl, hfail fun hh => absurd hr₁ (hiff₁.mpr ⟨hh.2.1, ?_⟩)⟩
        exact (cost_mono (pages_mono (le_max_left _ _))).trans hh.2.2
      rw [if_neg hr₁]
      obtain ⟨hpos, -⟩ := hiff₁.mp hr₁
      obtain ⟨hmax, h₁, hspent⟩ := hgrown hr₁
      rw [← hmax] at hpos hspent ⊢
      have hfew := h₁.pages_le
      have hle : r₁ ≤ pages r₁ * pgsize := by
        unfold pages pgsize
        omega
      have hr₁le : r₁ ≤ 32768 * pgsize := hle.trans (Nat.mul_le_mul_right _ (by omega))
      have hfile : u32 (phFilesz ph) = phFilesz ph := by
        refine Nat.mod_eq_of_lt ?_
        unfold pgsize at hr₁le
        omega
      have hva' : phVaddr ph = phVaddr ph / pgsize * pgsize := (Nat.div_mul_cancel (Nat.dvd_of_mod_eq_zero (not_not.mp halign))).symm
      have hfill : Filled V R tramp tf k₁ pt₁ r₁ (overlay (fs.content (fs.itable ip).d) (phVaddr ph) (u32 (phOff ph))
          (min (0 * pgsize) (phFilesz ph)) f) := by
        rw [Nat.zero_mul, Nat.zero_min, overlay_zero]
        exact h₁
      obtain ⟨loaded, k₂, hseg, hfree, hdone, hok⟩ := loadsegLoop_total hd (u32 (phOff ph)) (phFilesz ph) (Nat.mod_lt _ (by decide))
        (by omega) hva' _ 0 rfl (Or.inl rfl) hfill
      rw [Nat.zero_mul] at hseg
      rw [hfile, loadseg, hseg, ok_bind]
      dsimp only
      cases loaded with
      | false =>
        rw [if_pos (by rfl)]
        refine ⟨false, r₁, k₂, pt₁, rfl, hfail fun hh => ?_⟩
        rw [← hc] at hok
        have hloaded := hok (hfits hh.1).bytes
        cases hloaded
      | true =>
        rw [if_neg (by simp)]
        obtain ⟨h₂, hbytes⟩ := hdone rfl
        rw [← hc] at h₂ hbytes
        obtain ⟨b, sz', k', pt', hrun, hrest, hiff⟩ := ih (u32 (off + proghdrSize)) hnext h₂
        rw [hfree] at hrest hiff
        refine ⟨b, sz', k', pt', hrun, fun hb => ?_, hiff.trans ?_⟩
        · obtain ⟨hfilled, hsz', hplaced, hspent'⟩ := hrest hb
          refine ⟨hfilled, hsz', fun ph' hmem => ?_, hspent.trans hspent'⟩
          rcases List.mem_cons.mp hmem with rfl | hmem
          · exact ⟨by omega, hbytes⟩
          · exact hplaced ph' hmem
        · rw [← hspent]
          have hbegun : Begins r₁ (loadable c r (u32 (off + proghdrSize))) := fun ph' _ => lt_max_of_lt_left hpos
          have hthis : Fits c ph := ⟨not_lt.mp hsizes, hsum, not_not.mp halign, hbytes⟩
          constructor
          · rintro ⟨hh, -, henough⟩
            exact ⟨⟨hin, fun _ => hph ▸ hthis, hh⟩, hpos, henough⟩
          · rintro ⟨hh, -, henough⟩
            exact ⟨hh.2.2, hbegun, henough⟩
    · have hload : loadable c (r + 1) off = loadable c r (u32 (off + proghdrSize)) := by
        rw [loadable, ← hph]
        exact if_neg htype
      rw [if_pos htype, hload]
      obtain ⟨b, sz', k', pt', hrun, hdone, hiff⟩ := ih (u32 (off + proghdrSize)) hnext h
      have hheaders : Headers c (r + 1) off ↔ Headers c r (u32 (off + proghdrSize)) :=
        ⟨fun hh => hh.2.2, fun hh => ⟨hin, fun h1 => absurd (hph ▸ h1) htype, hh⟩⟩
      rw [hheaders]
      exact ⟨b, sz', k', pt', hrun, hdone, hiff⟩

end Loader

end FogOS.Kernel
