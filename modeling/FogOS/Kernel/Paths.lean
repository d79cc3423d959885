import FogOS.Kernel.Files

/-!
# Path resolution

`namei` and `nameiparent` of `kernel/fs.c` follow the names on a path through the directories. What they
return is what one gets by looking the names up one after the other in directories whose contents are known.
-/

namespace FogOS.Kernel

open ByteMem

namespace Fs

variable {fs fs' fs₀ : Fs} {ip : Fin ninode} {pid : Int} {d : Dinode} {j : Nat} {name path rest : List UInt8}

/-- The directory of the last name on a path, and that name. -/
def nameiparent (fs : Fs) (pid : Int) (cwd : Option (Fin ninode)) (path : List UInt8) :
    Except Stop (Option (Fin ninode × List UInt8) × Fs) :=
  fs.namex pid cwd path true

/-! ### Names on a path -/

/-- The names on a path: what is between slashes, cut to `DIRSIZ` bytes. -/
def components (path : List UInt8) : List (List UInt8) :=
  ((path.splitOn slash).filter fun s => s ≠ []).map (·.take dirsiz)

@[simp] lemma components_nil : components [] = [] := rfl

@[simp] lemma components_slash (path : List UInt8) : components (slash :: path) = components path := by
  have hsplit := List.splitOn_append_cons_self_of_not_mem (List.not_mem_nil (a := slash)) path
  unfold components
  rw [List.nil_append] at hsplit
  simp [hsplit]

lemma components_dropWhile (path : List UInt8) : components (path.dropWhile (· = slash)) = components path := by
  induction path with
  | nil => rfl
  | cons b path ih =>
    by_cases hb : b = slash
    · rw [List.dropWhile_cons_of_pos (by simpa using hb), ih, hb, components_slash]
    · rw [List.dropWhile_cons_of_neg (by simpa using hb)]

/-- Where `dropWhile` stops. -/
lemma eq_false_of_dropWhile {p : UInt8 → Bool} {l t : List UInt8} {c : UInt8} (h : l.dropWhile p = c :: t) : p c = false := by
  have hhead := List.head?_dropWhile_not p l
  rw [h] at hhead
  simpa using hhead

/-- A path that starts with a name. -/
lemma components_name {b : UInt8} (hb : b ≠ slash) (path : List UInt8) :
    components (b :: path) = ((b :: path).takeWhile (· ≠ slash)).take dirsiz ::
      components ((b :: path).dropWhile (· ≠ slash)) := by
  have hname : slash ∉ (b :: path).takeWhile (· ≠ slash) := by
    intro hmem
    simpa using List.mem_takeWhile_imp hmem
  have hne : (b :: path).takeWhile (· ≠ slash) ≠ [] := by
    rw [List.takeWhile_cons_of_pos (by simpa using hb)]
    exact List.cons_ne_nil _ _
  cases hrest : (b :: path).dropWhile (· ≠ slash) with
  | nil =>
    have hall := List.takeWhile_append_dropWhile (p := fun x => decide (x ≠ slash)) (l := b :: path)
    rw [hrest, List.append_nil] at hall
    rw [hall] at hname ⊢
    unfold components
    rw [List.splitOn_eq_singleton hname]
    rfl
  | cons c rest =>
    have hc : c = slash := by simpa using eq_false_of_dropWhile hrest
    have hall := List.takeWhile_append_dropWhile (p := fun x => decide (x ≠ slash)) (l := b :: path)
    rw [hrest, hc] at hall
    have hsplit := List.splitOn_append_cons_self_of_not_mem hname rest
    rw [hall] at hsplit
    rw [hc, components_slash]
    unfold components
    rw [hsplit, List.filter_cons_of_pos (by simpa using hne)]
    rfl

/-- There is no name left. -/
lemma skipelem_none (h : skipelem path = none) : components path = [] := by
  unfold skipelem at h
  rw [← components_dropWhile]
  split at h
  · next hnil => rw [hnil, components_nil]
  · cases h

/-- The first name, and the path after it. -/
lemma skipelem_some (h : skipelem path = some (name, rest)) :
    components path = name :: components rest ∧ rest.length < path.length ∧ (rest = [] ↔ components rest = []) := by
  unfold skipelem at h
  split at h
  · cases h
  · next s hne =>
    cases h
    obtain ⟨b, s', hs⟩ := List.exists_cons_of_ne_nil hne
    have hb : b ≠ slash := by simpa using eq_false_of_dropWhile hs
    refine ⟨?_, ?_, ⟨fun hnil => ?_, fun hnil => ?_⟩⟩
    · rw [← components_dropWhile path, hs, components_name hb, components_dropWhile]
    · rw [hs, List.dropWhile_cons_of_pos (by simpa using hb)]
      have hdrop := List.dropWhile_suffix (fun x => decide (x = slash)) (l := path)
      have hlen := hdrop.length_le
      rw [hs] at hlen
      have hlt := (List.dropWhile_suffix (fun x => decide (x = slash)) (l := s'.dropWhile (· ≠ slash))).length_le
      have hle := (List.dropWhile_suffix (fun x => decide (x ≠ slash)) (l := s')).length_le
      simp only [List.length_cons] at hlen
      omega
    · rw [hnil, components_nil]
    · by_contra hrest
      obtain ⟨c, t, ht⟩ := List.exists_cons_of_ne_nil hrest
      have hc : c ≠ slash := by simpa using eq_false_of_dropWhile ht
      rw [ht, components_name hc] at hnil
      cases hnil

/-! ### Directories -/

/-- An entry of a directory: the inode number and the name. -/
def dirent (de : List UInt8) : Nat × List UInt8 := (leNat (de.take 2), (de.drop 2).takeWhile (· ≠ 0))

/-- The entries of a directory. -/
def entries (fs : Fs) (d : Dinode) : List (Nat × List UInt8) :=
  (List.range (d.size / 16)).map fun k => dirent (((fs.content d).drop (16 * k)).take 16)

/-- The inode number that a directory has for a name; entries with the number 0 are not in use. -/
def lookup (fs : Fs) (d : Dinode) (name : List UInt8) : Option Nat :=
  ((fs.entries d).find? fun e => e.1 ≠ 0 ∧ name = e.2).map (·.1)

/-- A directory of whole entries, with all its blocks. -/
structure IsDirectory (fs : Fs) (d : Dinode) : Prop where
  type : d.type = tDir
  dense : Dense fs d
  whole : d.size % 16 = 0

/-- Take a reference to the inode that has been found. -/
def found (fs : Fs) (ip : Fin ninode) : Option Nat → Except Stop (Option (Fin ninode) × Fs)
  | none => .ok (none, fs)
  | some inum => do
    let (next, fs) ← fs.iget (fs.itable ip).dev inum
    pure (some next, fs)

@[simp] lemma length_entries (fs : Fs) (d : Dinode) : (fs.entries d).length = d.size / 16 := by simp [entries]

/-- The entries from the `k`-th on. -/
lemma dirlookupLoop_ok (hd : IsDirectory fs (fs.itable ip).d) (name : List UInt8) : ∀ (fuel k : Nat),
    (fs.itable ip).d.size / 16 < fuel + k → dirlookupLoop ip name fuel fs (16 * k) =
      fs.found ip ((((fs.entries (fs.itable ip).d).drop k).find? fun e => e.1 ≠ 0 ∧ name = e.2).map (·.1)) := by
  have hsize := hd.dense.size
  have hwhole := hd.whole
  intro fuel
  induction fuel with
  | zero =>
    intro k hk
    rw [List.drop_eq_nil_of_le (by rw [length_entries]; omega)]
    rfl
  | succ fuel ih =>
    intro k hk
    rw [dirlookupLoop]
    by_cases hend : (fs.itable ip).d.size ≤ 16 * k
    · rw [if_pos hend, List.drop_eq_nil_of_le (by rw [length_entries]; omega)]
      rfl
    · have hlt : k < (fs.entries (fs.itable ip).d).length := by
        rw [length_entries]
        omega
      have hentry : (fs.entries (fs.itable ip).d)[k] = dirent (((fs.content (fs.itable ip).d).drop (16 * k)).take 16) := by
        simp [entries]
      have hlen : (((fs.content (fs.itable ip).d).drop (16 * k)).take 16).length = 16 := by
        rw [List.length_take, List.length_drop, length_content]
        omega
      have hmax : maxfile * bsize = 274432 := by decide
      rw [if_neg hend, readi_ok hd.dense (by omega), ok_bind, List.drop_eq_getElem_cons hlt, hentry]
      dsimp only
      rw [if_neg (by simpa using hlen)]
      by_cases hmatch : (dirent (((fs.content (fs.itable ip).d).drop (16 * k)).take 16)).1 ≠ 0 ∧
          name = (dirent (((fs.content (fs.itable ip).d).drop (16 * k)).take 16)).2
      · rw [List.find?_cons_of_pos (by simpa using hmatch)]
        exact if_pos hmatch
      · rw [List.find?_cons_of_neg (by simpa using hmatch)]
        exact (if_neg hmatch).trans (ih (k + 1) (by omega))

/-- `dirlookup` finds the first entry of that name. -/
lemma dirlookup_ok (hd : IsDirectory fs (fs.itable ip).d) (name : List UInt8) :
    fs.dirlookup ip name = fs.found ip (fs.lookup (fs.itable ip).d name) := by
  unfold dirlookup
  rw [if_neg (not_not.mpr hd.type)]
  exact dirlookupLoop_ok hd name _ 0 (Nat.lt_succ_self _)

/-! ### Following the names -/

/-- The inode that is reached from `j` by looking up names. -/
def walk (fs : Fs) : Nat → List (List UInt8) → Option Nat
  | j, [] => some j
  | j, name :: names =>
    if (fs.inode j).type = tDir then (fs.lookup (fs.inode j) name).bind fun k => walk fs k names else none

/-- The directory in which the last name is to be looked up, and that name. -/
def walkParent (fs : Fs) (j : Nat) (names : List (List UInt8)) : Option (Nat × List UInt8) :=
  names.getLast?.bind fun name =>
    (fs.walk j names.dropLast).bind fun k => if (fs.inode k).type = tDir then some (k, name) else none

/-- What `namex` looks for. -/
def resolve (fs : Fs) (parent : Bool) (j : Nat) (names : List (List UInt8)) : Option (Nat × List UInt8) :=
  if parent then fs.walkParent j names else (fs.walk j names).map fun k => (k, [])

lemma resolve_nil (fs : Fs) (parent : Bool) (j : Nat) :
    fs.resolve parent j [] = if parent then none else some (j, []) := by
  cases parent <;> rfl

/-- There is nothing to look a name up in. -/
lemma resolve_file (parent : Bool) (hd : (fs.inode j).type ≠ tDir) (name : List UInt8) (names : List (List UInt8)) :
    fs.resolve parent j (name :: names) = none := by
  cases parent with
  | false => simp [resolve, walk, hd]
  | true =>
    cases names with
    | nil => simp [resolve, walkParent, walk, hd]
    | cons name' names => simp [resolve, walkParent, walk, hd, List.getLast?_cons_cons]

/-- The last name is not looked up for the parent. -/
lemma resolve_last (hd : (fs.inode j).type = tDir) (name : List UInt8) :
    fs.resolve true j [name] = some (j, name) := by
  simp [resolve, walkParent, walk, hd]

/-- A name is looked up. -/
lemma resolve_step {parent : Bool} {names : List (List UInt8)} (hd : (fs.inode j).type = tDir)
    (hnot : ¬ (parent = true ∧ names = [])) (name : List UInt8) :
    fs.resolve parent j (name :: names) = (fs.lookup (fs.inode j) name).bind fun k => fs.resolve parent k names := by
  cases parent with
  | false =>
    simp only [resolve, walk, hd, if_true, Bool.false_eq_true, if_false]
    exact Option.map_bind ..
  | true =>
    cases names with
    | nil => exact absurd ⟨rfl, rfl⟩ hnot
    | cons name' names =>
      simp only [resolve, walkParent, walk, hd, if_true, List.getLast?_cons_cons, List.dropLast_cons_cons]
      cases fs.lookup (fs.inode j) name <;> simp

/-! ### The inode table on the way -/

/-- Only the inode table differs from `fs₀`: each entry in use stands for an inode of its own on the root device,
and what is read of it is what it was. -/
structure Caches (fs₀ fs : Fs) : Prop where
  rest : fs = { fs₀ with itable := fs.itable }
  device : ∀ ip, 0 < (fs.itable ip).ref → (fs.itable ip).dev = rootdev
  unique : ∀ ip jp, 0 < (fs.itable ip).ref → 0 < (fs.itable jp).ref → (fs.itable ip).inum = (fs.itable jp).inum → ip = jp
  node : ∀ ip, 0 < (fs.itable ip).ref →
    (if (fs.itable ip).valid then (fs.itable ip).d else fs₀.dinode (fs.itable ip).inum) = fs₀.inode (fs.itable ip).inum

/-- The entries in use stand for different inodes of the root device. -/
structure Distinct (fs : Fs) : Prop where
  nonneg : ∀ ip, 0 ≤ (fs.itable ip).ref
  device : ∀ ip, 0 < (fs.itable ip).ref → (fs.itable ip).dev = rootdev
  unique : ∀ ip jp, 0 < (fs.itable ip).ref → 0 < (fs.itable jp).ref → (fs.itable ip).inum = (fs.itable jp).inum → ip = jp

lemma Distinct.inode (h : Distinct fs) (href : 0 < (fs.itable ip).ref) :
    (if (fs.itable ip).valid then (fs.itable ip).d else fs.dinode (fs.itable ip).inum) = fs.inode (fs.itable ip).inum := by
  by_cases hv : (fs.itable ip).valid = true
  · have hlive : Live fs ip := ⟨href, hv, fun jp hjp heq => h.unique jp ip hjp href heq⟩
    rw [if_pos hv, hlive.inode]
  · have hnone : ((List.finRange ninode).find? fun jp =>
        0 < (fs.itable jp).ref ∧ (fs.itable jp).valid ∧ (fs.itable jp).inum = (fs.itable ip).inum) = none := by
      rw [List.find?_eq_none]
      rintro jp - hjp
      simp only [decide_eq_true_eq] at hjp
      rw [h.unique jp ip hjp.1 href hjp.2.2] at hjp
      exact hv hjp.2.1
    rw [if_neg hv]
    unfold Fs.inode
    rw [hnone]

/-- An inode that is not in the table is what is on the disk. -/
lemma inode_of_unreferenced (h : ∀ ip, 0 < (fs.itable ip).ref → (fs.itable ip).inum ≠ j) : fs.inode j = fs.dinode j := by
  have hnone : ((List.finRange ninode).find? fun jp =>
      0 < (fs.itable jp).ref ∧ (fs.itable jp).valid ∧ (fs.itable jp).inum = j) = none := by
    rw [List.find?_eq_none]
    rintro jp - hjp
    simp only [decide_eq_true_eq] at hjp
    exact h jp hjp.1 hjp.2.2
  unfold Fs.inode
  rw [hnone]

lemma Caches.refl (h : Distinct fs) : Caches fs fs := ⟨rfl, h.device, h.unique, fun _ href => h.inode href⟩

/-- An assignment to an entry. -/
lemma Caches.set {v : Inode} (h : Caches fs₀ fs) (hdev : v.dev = rootdev)
    (hinum : 0 < v.ref → ∀ jp, 0 < (fs.itable jp).ref → (fs.itable jp).inum = v.inum → jp = ip)
    (hnode : 0 < v.ref → (if v.valid then v.d else fs₀.dinode v.inum) = fs₀.inode v.inum) :
    Caches fs₀ (fs.setInode ip v) := by
  have hself : (fs.setInode ip v).itable ip = v := by simp [setInode]
  have hother : ∀ {jp}, jp ≠ ip → (fs.setInode ip v).itable jp = fs.itable jp := by
    intro jp hjp
    simp [setInode, hjp]
  refine ⟨?_, fun jp href => ?_, fun jp kp hj hk heq => ?_, fun jp href => ?_⟩
  · unfold setInode
    rw [h.rest]
  · by_cases hjp : jp = ip
    · rw [hjp, hself, hdev]
    · rw [hother hjp] at href ⊢
      exact h.device jp href
  · by_cases hjp : jp = ip <;> by_cases hkp : kp = ip
    · rw [hjp, hkp]
    · rw [hjp, hself] at hj heq
      rw [hother hkp] at hk heq
      exact absurd (hinum hj kp hk heq.symm) hkp
    · rw [hkp, hself] at hk heq
      rw [hother hjp] at hj heq
      exact absurd (hinum hk jp hj heq) hjp
    · rw [hother hjp] at hj heq
      rw [hother hkp] at hk heq
      exact h.unique jp kp hj hk heq
  · by_cases hjp : jp = ip
    · rw [hjp, hself] at href ⊢
      exact hnode href
    · rw [hother hjp] at href ⊢
      exact h.node jp href

/-- References and locks of an entry in use do not matter. -/
lemma Caches.touch {r : Int} {l : Bool} {p : Int} (h : Caches fs₀ fs) (href : 0 < (fs.itable ip).ref) :
    Caches fs₀ (fs.setInode ip { fs.itable ip with ref := r, locked := l, lockPid := p }) := by
  refine h.set (h.device ip href) (fun _ jp hjp heq => h.unique jp ip hjp href heq) fun _ => ?_
  exact h.node ip href

section

variable {X : Fin ninode → Int} {L : Fin ninode → Option Int} {n : Int}

/-- `iget` finds the inode or a free entry. -/
lemma Caches.iget (h : Caches fs₀ fs) (hh : Holding fs₀ X L n fs) (j : Nat) :
    (∃ ip fs', fs.iget rootdev j = .ok (ip, fs') ∧ Caches fs₀ fs' ∧ (fs'.itable ip).inum = j ∧
      ∀ jp, 0 < (fs.itable jp).ref → ∃ r, fs'.itable jp = { fs.itable jp with ref := r }) ∨
    ((∃ e, fs.iget rootdev j = .error e) ∧ ∀ kp, (fs.itable kp).ref ≠ 0) := by
  unfold Fs.iget
  split
  · next ip hfind =>
    have hfound := List.find?_some hfind
    simp only [decide_eq_true_eq] at hfound
    refine Or.inl ⟨ip, _, rfl, h.touch hfound.1, ?_, fun jp _ => ?_⟩
    · simp [setInode, hfound.2.2]
    · by_cases hjp : jp = ip
      · exact ⟨(fs.itable ip).ref + 1, by simp [setInode, hjp]⟩
      · exact ⟨(fs.itable jp).ref, by simp [setInode, hjp]⟩
  · next hnone =>
    rw [List.find?_eq_none] at hnone
    have habsent : ∀ ip, 0 < (fs.itable ip).ref → (fs.itable ip).inum ≠ j := by
      intro ip href heq
      exact hnone ip (List.mem_finRange ip) (by simp [href, h.device ip href, heq])
    cases hip : (List.finRange ninode).find? fun i => (fs.itable i).ref = 0 with
    | none =>
      rw [List.find?_eq_none] at hip
      exact Or.inr ⟨⟨_, rfl⟩, fun kp => by simpa using hip kp (List.mem_finRange kp)⟩
    | some ip =>
      refine Or.inl ⟨ip, _, rfl,
        h.set rfl (fun _ jp href heq => absurd heq (habsent jp href)) fun _ => ?_, ?_, fun jp href => ?_⟩
      · have hnot : ∀ jp, 0 < (fs₀.itable jp).ref → (fs₀.itable jp).inum ≠ j := by
          intro jp href heq
          have hrefs := congrFun hh.refs jp
          have hX : 0 ≤ X jp := hh.nonneg jp
          have hid := congrArg Prod.snd (hh.ids jp href)
          simp only [Fs.refs, Pi.add_apply] at hrefs
          refine habsent jp (by omega) ?_
          exact hid.trans heq
        simp [inode_of_unreferenced hnot]
      · simp [setInode]
      · have hzero : (fs.itable ip).ref = 0 := by simpa using List.find?_some hip
        have hjp : jp ≠ ip := by
          rintro rfl
          omega
        exact ⟨(fs.itable jp).ref, by simp [setInode, hjp]⟩

/-- `ilock` reads the inode. -/
lemma Caches.ilock (h : Caches fs₀ fs) (pid : Int) (href : 0 < (fs.itable ip).ref) (hfree : (fs.itable ip).locked = false)
    (ht : (fs₀.inode (fs.itable ip).inum).type ≠ 0) :
    ∃ fs', fs.ilock pid ip = .ok fs' ∧ Caches fs₀ fs' ∧ (fs'.itable ip).inum = (fs.itable ip).inum ∧
      (fs'.itable ip).d = fs₀.inode (fs.itable ip).inum ∧ (fs'.itable ip).ref = (fs.itable ip).ref ∧
      fs'.holdingsleep pid ip = true := by
  have hnode := h.node ip href
  have hcache := h.touch (r := (fs.itable ip).ref) (l := true) (p := pid) href
  have hdisk : fs.dinode = fs₀.dinode := by rw [h.rest]
  have hacquire : fs.acquiresleep pid ip = .ok (fs.setInode ip { fs.itable ip with locked := true, lockPid := pid }) :=
    if_neg (by simp [hfree])
  unfold Fs.ilock
  rw [if_neg (by omega), hacquire, ok_bind]
  by_cases hv : (fs.itable ip).valid = true
  · rw [if_pos hv] at hnode
    refine ⟨_, if_pos (by simpa [setInode] using hv), hcache, ?_, ?_, ?_, ?_⟩ <;> simp [setInode, holdingsleep, hnode]
  · rw [if_neg hv] at hnode
    rw [if_neg (by simpa [setInode] using hv)]
    dsimp only
    rw [if_neg (by simpa [setInode, hdisk, hnode] using ht)]
    refine ⟨_, rfl, ?_, ?_, ?_, ?_, ?_⟩
    · refine hcache.set ?_ (fun _ jp hjp heq => ?_) fun _ => ?_
      · simpa [setInode] using h.device ip href
      · refine hcache.unique jp ip hjp ?_ ?_
        · simpa [setInode] using href
        · simpa [setInode] using heq
      · simp [setInode, hdisk, hnode]
    all_goals simp [setInode, holdingsleep, hdisk, hnode]

/-- `ilock` of an inode that is locked does not return. -/
lemma ilock_locked (pid : Int) (href : 0 < (fs.itable ip).ref) (h : (fs.itable ip).locked = true) :
    ∃ e, fs.ilock pid ip = .error e := by
  have hsleep : ∃ e, fs.acquiresleep pid ip = .error e := by
    unfold Fs.acquiresleep
    rw [if_pos (by simp [h])]
    exact ⟨_, rfl⟩
  obtain ⟨e, hsleep⟩ := hsleep
  unfold Fs.ilock
  rw [if_neg (by omega), hsleep]
  exact ⟨e, rfl⟩

lemma setInode_inum {v : Inode} (hv : v.inum = (fs.itable ip).inum) (jp : Fin ninode) :
    ((fs.setInode ip v).itable jp).inum = (fs.itable jp).inum := by
  by_cases hjp : jp = ip
  · simp [setInode, hjp, hv]
  · simp [setInode, hjp]

/-- `iunlock` by the holder. -/
lemma Caches.iunlock (h : Caches fs₀ fs) (href : 0 < (fs.itable ip).ref) (hheld : fs.holdingsleep pid ip = true) :
    ∃ fs', fs.iunlock pid ip = .ok fs' ∧ Caches fs₀ fs' ∧ (∀ jp, (fs'.itable jp).inum = (fs.itable jp).inum) ∧
      (fs'.itable ip).ref = (fs.itable ip).ref := by
  refine ⟨_, ?_, h.touch (r := (fs.itable ip).ref) (l := false) (p := 0) href, setInode_inum rfl, ?_⟩
  · unfold Fs.iunlock
    rw [hheld, if_neg (by simp; omega)]
    rfl
  · simp [setInode]

/-- `iput` of a reference that is not the last one to an inode without links. -/
lemma Caches.iput (h : Caches fs₀ fs) (pid : Int) (href : 0 < (fs.itable ip).ref)
    (hlast : ¬ ((fs.itable ip).ref = 1 ∧ (fs.itable ip).valid = true ∧ (fs.itable ip).d.nlink = 0)) :
    ∃ fs', fs.iput pid ip = .ok fs' ∧ Caches fs₀ fs' ∧ ∀ jp, (fs'.itable jp).inum = (fs.itable jp).inum := by
  refine ⟨_, if_neg hlast, ?_, setInode_inum rfl⟩
  exact h.touch (r := (fs.itable ip).ref - 1) (l := (fs.itable ip).locked) (p := (fs.itable ip).lockPid) href

/-- Somebody has a reference to the inode. -/
def Referenced (fs : Fs) (j : Nat) : Prop := ∃ ip, 0 < (fs.itable ip).ref ∧ (fs.itable ip).inum = j

/-- The inode is not freed when a reference to it is taken and put. -/
def Kept (fs : Fs) (j : Nat) : Prop := (fs.inode j).nlink ≠ 0 ∨ fs.Referenced j

lemma Caches.not_last (h : Caches fs₀ fs) (hh : Holding fs₀ X L n fs) (hX : 1 ≤ X ip) (hkept : fs₀.Kept (fs.itable ip).inum) :
    ¬ ((fs.itable ip).ref = 1 ∧ (fs.itable ip).valid = true ∧ (fs.itable ip).d.nlink = 0) := by
  rintro ⟨href, hv, hnlink⟩
  have hnode := h.node ip (by omega)
  rw [if_pos hv] at hnode
  rcases hkept with hlink | ⟨jp, hpos, heq⟩
  · rw [hnode] at hnlink
    exact hlink hnlink
  · have hrefs := congrFun hh.refs jp
    have hXj : 0 ≤ X jp := hh.nonneg jp
    have hid := congrArg Prod.snd (hh.ids jp hpos)
    simp only [Fs.refs, Fs.ids, Pi.add_apply] at hrefs hid
    have hjp := h.unique jp ip (by omega) (by omega) (by rw [hid, heq])
    rw [hjp] at hrefs hpos
    omega

lemma Caches.iunlockput (h : Caches fs₀ fs) (hh : Holding fs₀ X L n fs) (hX : 1 ≤ X ip) (hkept : fs₀.Kept (fs.itable ip).inum)
    (href : 0 < (fs.itable ip).ref) (hheld : fs.holdingsleep pid ip = true) :
    ∃ fs', fs.iunlockput pid ip = .ok fs' ∧ Caches fs₀ fs' ∧ ∀ jp, (fs'.itable jp).inum = (fs.itable jp).inum := by
  obtain ⟨fs₁, hunlock, h₁, hinum₁, href₁⟩ := h.iunlock href hheld
  obtain ⟨-, hh₁⟩ := hh.iunlock hunlock
  obtain ⟨fs₂, hput, h₂, hinum₂⟩ := h₁.iput pid (href₁ ▸ href) (h₁.not_last hh₁ hX (by rwa [hinum₁]))
  refine ⟨fs₂, ?_, h₂, fun jp => (hinum₂ jp).trans (hinum₁ jp)⟩
  unfold Fs.iunlockput
  rw [hunlock, ok_bind, hput]

/-- Directories are as they were. -/
lemma Caches.lookup (h : Caches fs₀ fs) (d : Dinode) (name : List UInt8) : fs.lookup d name = fs₀.lookup d name := by
  rw [h.rest]
  rfl

lemma Caches.isDirectory (h : Caches fs₀ fs) (hd : IsDirectory fs₀ d) : IsDirectory fs d := by
  rw [h.rest]
  exact ⟨hd.type, ⟨hd.dense.size, hd.dense.blocks⟩, hd.whole⟩

end

/-! ### Resolution -/

/-- The directories are whole; the root and the inodes that entries name are allocated. -/
structure Graph (fs : Fs) : Prop where
  root : (fs.inode rootino).type ≠ 0
  directory : ∀ j, (fs.inode j).type = tDir → IsDirectory fs (fs.inode j)
  named : ∀ j, (fs.inode j).type = tDir → ∀ e ∈ fs.entries (fs.inode j), e.1 ≠ 0 → (fs.inode e.1).type ≠ 0

/-- The root and the inodes that entries name have links or are in use. -/
structure Linked (fs : Fs) : Prop where
  root : fs.Kept rootino
  named : ∀ j, (fs.inode j).type = tDir → ∀ e ∈ fs.entries (fs.inode j), e.1 ≠ 0 → fs.Kept e.1

/-- The number of free entries of the inode table. -/
def spare (fs : Fs) : Nat := (Finset.univ.filter fun ip => (fs.itable ip).ref = 0).card

lemma exists_spare (h : 2 ≤ fs.spare) (ip : Fin ninode) : ∃ kp, kp ≠ ip ∧ (fs.itable kp).ref = 0 := by
  obtain ⟨kp, hmem, hne⟩ := Finset.exists_mem_ne h ip
  exact ⟨kp, hne, (Finset.mem_filter.mp hmem).2⟩

/-- An inode number that has been looked up is in an entry. -/
lemma mem_of_lookup {k : Nat} (h : fs.lookup d name = some k) : ∃ e ∈ fs.entries d, e.1 ≠ 0 ∧ e.1 = k := by
  unfold lookup at h
  obtain ⟨e, he, hk⟩ := Option.map_eq_some_iff.mp h
  have hfound := List.find?_some he
  simp only [decide_eq_true_eq] at hfound
  exact ⟨e, List.mem_of_find?_eq_some he, hfound.1, hk⟩

/-- The inode that has been found, and the name that is left. -/
def named (fs : Fs) (r : Option (Fin ninode × List UInt8)) : Option (Nat × List UInt8) :=
  r.map fun p => ((fs.itable p.1).inum, p.2)

/-- A lookup needs two free entries of the inode table, and inodes that are not locked. -/
def Blocked (fs : Fs) : Prop := fs.spare < 2 ∨ ∃ ip, (fs.itable ip).locked = true

/-- What a lookup leaves: the result stands for `t`, or the lookup did not come to an end. -/
def Looks (fs₀ : Fs) (t : Option (Nat × List UInt8))
    (x : Except Stop (Option (Fin ninode × List UInt8) × Fs)) : Prop :=
  (∃ r fs', x = .ok (r, fs') ∧ Caches fs₀ fs' ∧ fs'.named r = t) ∨ (∃ e, x = .error e) ∧ Blocked fs₀

/-- The induction is on the length of the path; the reference is the one to the directory in which the next name
is looked up. -/
lemma namexLoop_looks (ht : Distinct fs₀) (hg : Graph fs₀) (hl : Linked fs₀) (parent : Bool) :
    ∀ (fuel : Nat) {path : List UInt8} {fs : Fs} {ip : Fin ninode}, path.length < fuel →
      Holding fs₀ (Pi.single ip 1) fs₀.locks 0 fs → Caches fs₀ fs →
      (fs₀.inode (fs.itable ip).inum).type ≠ 0 → fs₀.Kept (fs.itable ip).inum →
      Looks fs₀ (fs₀.resolve parent (fs.itable ip).inum (components path))
        (namexLoop pid parent fuel fs ip path) := by
  intro fuel
  induction fuel with
  | zero =>
    intro path fs ip hfuel
    exact absurd hfuel (Nat.not_lt_zero _)
  | succ fuel ih =>
    intro path fs ip hfuel hh hc htype hkept
    have hone : 1 ≤ (Pi.single ip 1 : Fin ninode → Int) ip := by simp
    have href : 0 < (fs.itable ip).ref := by
      have hrefs := congrFun hh.refs ip
      have hpos := ht.nonneg ip
      simp only [Fs.refs, Pi.add_apply, Pi.single_eq_same] at hrefs
      omega
    rw [namexLoop]
    cases hskip : skipelem path with
    | none =>
      rw [skipelem_none hskip, resolve_nil]
      cases parent with
      | false => exact Or.inl ⟨_, fs, rfl, hc, rfl⟩
      | true =>
        obtain ⟨fs₁, hput, h₁, -⟩ := hc.iput pid href (hc.not_last hh hone hkept)
        refine Or.inl ⟨none, fs₁, ?_, h₁, rfl⟩
        dsimp only
        rw [if_pos rfl, hput]
        rfl
    | some p =>
      obtain ⟨name, rest⟩ := p
      obtain ⟨hpath, hshort, hend⟩ := skipelem_some hskip
      by_cases hfree : (fs.itable ip).locked = true
      · -- somebody else has the directory locked
        obtain ⟨e, hlock⟩ := ilock_locked pid href hfree
        have hsame := congrFun hh.locks ip
        simp only [Fs.locks, hfree, if_true] at hsame
        refine Or.inr ⟨⟨e, ?_⟩, Or.inr ⟨ip, ?_⟩⟩
        · dsimp only
          rw [hlock]
          rfl
        · by_contra hno
          rw [if_neg hno] at hsame
          cases hsame
      obtain ⟨fs₁, hlock, h₁, hinum₁, hd₁, href₁, hheld₁⟩ := hc.ilock pid href (by simpa using hfree) htype
      obtain ⟨hL, hh₁⟩ := hh.ilock hlock
      rw [← hinum₁] at hkept hd₁
      rw [hpath, ← hinum₁]
      dsimp only
      rw [hlock, ok_bind]
      by_cases hdir : (fs₁.itable ip).d.type = tDir
      · have hdir₀ : (fs₀.inode (fs₁.itable ip).inum).type = tDir := hd₁ ▸ hdir
        rw [if_neg (not_not.mpr hdir)]
        by_cases hlast : parent = true ∧ components rest = []
        · -- the parent is wanted, and this is the last name
          obtain ⟨fs₂, hunlock, h₂, hinum₂, -⟩ := h₁.iunlock (href₁ ▸ href) hheld₁
          refine Or.inl ⟨some (ip, name), fs₂, ?_, h₂, ?_⟩
          · rw [if_pos (by simp [hlast.1, hend.mpr hlast.2]), hunlock]
            rfl
          · rw [hlast.1, hlast.2, resolve_last hdir₀]
            simp [Fs.named, hinum₂]
        · rw [if_neg (by simpa [hend] using hlast), resolve_step hdir₀ hlast,
            dirlookup_ok (h₁.isDirectory (hd₁ ▸ hg.directory _ hdir₀)), hd₁, h₁.lookup]
          cases hfound : fs₀.lookup (fs₀.inode (fs₁.itable ip).inum) name with
          | none =>
            obtain ⟨fs₂, hput, h₂, -⟩ := h₁.iunlockput hh₁ hone hkept (href₁ ▸ href) hheld₁
            refine Or.inl ⟨none, fs₂, ?_, h₂, rfl⟩
            rw [found, ok_bind]
            dsimp only
            rw [hput]
            rfl
          | some k =>
            obtain ⟨e, hmem, hne, hek⟩ := mem_of_lookup hfound
            rw [found, h₁.device ip (href₁ ▸ href)]
            rcases h₁.iget hh₁ k with ⟨next, fs₂, hget, h₂, hnext, hframe⟩ | ⟨⟨stop, hget⟩, hfull⟩
            · have hh₂ := hh₁.iget hget
              obtain ⟨r, hr⟩ := hframe ip (href₁ ▸ href)
              have hstill : 0 < (fs₂.itable ip).ref := by
                have hrefs := congrFun hh₂.refs ip
                have hpos := ht.nonneg ip
                have hX : 0 ≤ (Pi.single next 1 : Fin ninode → Int) ip := by
                  by_cases hin : ip = next
                  · simp [hin]
                  · simp [hin]
                simp only [Fs.refs, Pi.add_apply, Pi.single_eq_same] at hrefs
                omega
              have hone₂ : 1 ≤ (Pi.single ip 1 + Pi.single next 1 : Fin ninode → Int) ip := by
                by_cases hin : ip = next
                · simp [hin]
                · simp [hin]
              obtain ⟨fs₃, hput, h₃, hinum₃⟩ := @Caches.iunlockput _ _ _ pid _ _ _ h₂ hh₂ hone₂ (by rwa [hr]) hstill (by
                unfold holdingsleep at hheld₁ ⊢
                rwa [hr])
              have hh₃ := hh₂.iunlockput hone₂ hput
              rw [add_sub_cancel_left, Function.update_idem, Function.update_eq_self_iff.mpr hL.symm] at hh₃
              have hk : (fs₃.itable next).inum = k := (hinum₃ next).trans hnext
              have hlt : rest.length < fuel := by omega
              have hrest := ih hlt hh₃ h₃ (by rw [hk, ← hek]; exact hg.named _ hdir₀ e hmem hne)
                (by rw [hk, ← hek]; exact hl.named _ hdir₀ e hmem hne)
              rw [hk] at hrest
              rw [hget, ok_bind]
              change Looks fs₀ _ (fs₂.iunlockput pid ip >>= _)
              rw [hput, ok_bind]
              exact hrest
            · -- there is no free entry but, perhaps, that of the directory
              refine Or.inr ⟨⟨stop, by rw [hget]; rfl⟩, Or.inl ?_⟩
              by_contra hspare
              obtain ⟨kp, hkp, hzero⟩ := exists_spare (not_lt.mp hspare) ip
              have hrefs := congrFun hh₁.refs kp
              simp [Fs.refs, Pi.add_apply, hkp, hzero, hfull kp] at hrefs
      · have hnone : fs₀.resolve parent (fs₁.itable ip).inum (name :: components rest) = none :=
          resolve_file parent (hd₁ ▸ hdir) name (components rest)
        obtain ⟨fs₂, hput, h₂, -⟩ := h₁.iunlockput hh₁ hone hkept (href₁ ▸ href) hheld₁
        refine Or.inl ⟨none, fs₂, ?_, h₂, hnone.symm⟩
        rw [if_pos hdir, hput]
        rfl

/-- Where a path starts. -/
def origin (fs : Fs) (cwd : Option (Fin ninode)) (path : List UInt8) : Nat :=
  if path.head? = some slash then rootino else cwd.elim 0 fun ip => (fs.itable ip).inum

/-- The result `r` stands for `t`, with one more reference to the inode that is returned and no lock. -/
structure Resolves (fs : Fs) (t : Option (Nat × List UInt8)) (r : Option (Fin ninode × List UInt8)) (fs' : Fs) : Prop where
  target : (r.map fun p => (fs'.ids p.1, p.2)) = t.map fun p => ((rootdev, p.1), p.2)
  refs : fs'.refs = fs.refs + r.elim 0 fun p => Pi.single p.1 1
  ids : ∀ ip, 0 < fs.refs ip → fs'.ids ip = fs.ids ip
  locked : ∀ ip, (fs'.itable ip).locked = false
  rest : fs' = { fs with itable := fs'.itable }

/-- There is a directory to start in. -/
def Starts (fs : Fs) (cwd : Option (Fin ninode)) (path : List UInt8) : Prop :=
  path.head? ≠ some slash → ∃ ip, cwd = some ip ∧ 0 < (fs.itable ip).ref ∧ (fs.inode (fs.itable ip).inum).type ≠ 0

/-- What the lookup of a path leaves: the inodes are what they were, and only the reference to the one that is found
is held. -/
lemma namex_looks {cwd : Option (Fin ninode)} (ht : Distinct fs) (hg : Graph fs) (hl : Linked fs)
    (hstart : Starts fs cwd path) (pid : Int) (parent : Bool) :
    (∃ r fs', fs.namex pid cwd path parent = .ok (r, fs') ∧ Caches fs fs' ∧
      Holding fs (r.elim 0 fun p => Pi.single p.1 1) fs.locks 0 fs' ∧
      fs'.named r = fs.resolve parent (fs.origin cwd path) (components path)) ∨
    (∃ e, fs.namex pid cwd path parent = .error e) ∧ Blocked fs := by
  have hrefl := Holding.refl fs
  have hbegin : (∃ ip fs₁, fs.namexStart cwd path = .ok (ip, fs₁) ∧ Caches fs fs₁ ∧
      (fs₁.itable ip).inum = fs.origin cwd path ∧ (fs.inode (fs.origin cwd path)).type ≠ 0 ∧
      fs.Kept (fs.origin cwd path)) ∨ (∃ e, fs.namexStart cwd path = .error e) ∧ Blocked fs := by
    unfold namexStart origin
    by_cases hroot : path.head? = some slash
    · rw [if_pos hroot, if_pos hroot]
      rcases (Caches.refl ht).iget hrefl rootino with ⟨ip, fs₁, hget, h₁, hinum, -⟩ | ⟨⟨e, hget⟩, hfull⟩
      · exact Or.inl ⟨ip, fs₁, hget, h₁, hinum, hg.root, hl.root⟩
      · refine Or.inr ⟨⟨e, hget⟩, Or.inl ?_⟩
        by_contra hspare
        obtain ⟨kp, -, hzero⟩ := exists_spare (not_lt.mp hspare) ⟨0, by decide⟩
        exact hfull kp hzero
    · obtain ⟨ip, hcwd, href, htype⟩ := hstart hroot
      rw [if_neg hroot, if_neg hroot, hcwd]
      exact Or.inl ⟨ip, _, rfl, (Caches.refl ht).touch href, by simp [idup, setInode], htype,
        Or.inr ⟨ip, href, rfl⟩⟩
  unfold namex
  rcases hbegin with ⟨ip, fs₁, hbegin, h₁, hinum, htype, hkept⟩ | ⟨⟨e, hbegin⟩, hblocked⟩
  · have hh₁ : Holding fs (Pi.single ip 1) fs.locks 0 fs₁ := by
      unfold namexStart at hbegin
      split at hbegin
      · simpa using hrefl.iget hbegin
      · split at hbegin
        · cases hbegin
        · cases hbegin
          simpa using hrefl.idup ip
    have hloop := @namexLoop_looks _ pid ht hg hl parent (path.length + 1) path fs₁ ip
      (Nat.lt_succ_self _) hh₁ h₁ (by rwa [hinum]) (by rwa [hinum])
    rw [hinum] at hloop
    rw [hbegin, ok_bind]
    refine hloop.imp_left fun hfound => ?_
    obtain ⟨r, fs', hloop, hc, hres⟩ := hfound
    have hh := Holding.namexLoop (X := 0) (by simpa using hh₁) le_rfl hloop
    rw [zero_add] at hh
    exact ⟨r, fs', hloop, hc, hh, hres⟩
  · rw [hbegin]
    exact Or.inr ⟨⟨e, rfl⟩, hblocked⟩

/-- With two free entries of the table, and nothing locked, the lookup comes to an end. -/
lemma namex_found {cwd : Option (Fin ninode)} (ht : Distinct fs) (hg : Graph fs) (hl : Linked fs) (hspare : 2 ≤ fs.spare)
    (hunlocked : ∀ ip, (fs.itable ip).locked = false) (hstart : Starts fs cwd path) (pid : Int) (parent : Bool) :
    ∃ r fs', fs.namex pid cwd path parent = .ok (r, fs') ∧ Caches fs fs' ∧
      Holding fs (r.elim 0 fun p => Pi.single p.1 1) (fun _ => none) 0 fs' ∧
      fs'.named r = fs.resolve parent (fs.origin cwd path) (components path) := by
  have hlocks : fs.locks = fun _ => none := by
    funext ip
    simp [Fs.locks, hunlocked ip]
  rw [← hlocks]
  refine (namex_looks ht hg hl hstart pid parent).resolve_right fun hblocked => ?_
  rcases hblocked.2 with hfew | ⟨ip, hip⟩
  · omega
  · rw [hunlocked ip] at hip
    cases hip

lemma namex_ok {cwd : Option (Fin ninode)} (ht : Distinct fs) (hg : Graph fs) (hl : Linked fs) (hspare : 2 ≤ fs.spare)
    (hunlocked : ∀ ip, (fs.itable ip).locked = false) (hstart : Starts fs cwd path) (pid : Int) (parent : Bool) :
    ∃ r fs', fs.namex pid cwd path parent = .ok (r, fs') ∧
      Resolves fs (fs.resolve parent (fs.origin cwd path) (components path)) r fs' := by
  obtain ⟨r, fs', hrun, hc, hh, hres⟩ := namex_found ht hg hl hspare hunlocked hstart pid parent
  refine ⟨r, fs', hrun, ?_, hh.refs, hh.ids, fun jp => ?_, hc.rest⟩
  · rw [← hres]
    cases r with
    | none => rfl
    | some p =>
      have href : 0 < (fs'.itable p.1).ref := by
        have hrefs := congrFun hh.refs p.1
        have hpos := ht.nonneg p.1
        simp only [Fs.refs, Pi.add_apply, Option.elim_some, Pi.single_eq_same] at hrefs
        omega
      simp [Fs.named, Fs.ids, hc.device p.1 href]
  · have hlock := congrFun hh.locks jp
    simpa [Fs.locks] using hlock

/-- `namei` returns the inode that the names on the path lead to, `nameiparent` the directory in which the last
of them is to be looked up, and 0 if there is none. The inode that is returned has one more reference; no other
reference is left, and no lock. -/
theorem namei_follows_path (pid : Int) (cwd : Option (Fin ninode)) (path : List UInt8) (ht : Distinct fs) (hg : Graph fs)
    (hl : Linked fs) (hspare : 2 ≤ fs.spare) (hunlocked : ∀ ip, (fs.itable ip).locked = false) (hstart : Starts fs cwd path) :
    (∃ r fs', fs.namei pid cwd path = .ok (r, fs') ∧
      Resolves fs ((fs.walk (fs.origin cwd path) (components path)).map fun k => (k, [])) (r.map fun ip => (ip, [])) fs') ∧
    ∃ r fs', fs.nameiparent pid cwd path = .ok (r, fs') ∧
      Resolves fs (fs.walkParent (fs.origin cwd path) (components path)) r fs' := by
  obtain ⟨r, fs₁, hrun, hres⟩ := namex_ok ht hg hl hspare hunlocked hstart pid false
  refine ⟨⟨r.map (·.1), fs₁, ?_, ?_⟩, namex_ok ht hg hl hspare hunlocked hstart pid true⟩
  · unfold namei
    rw [hrun]
    rfl
  · have hnames : ((r.map (·.1)).map fun ip => (ip, ([] : List UInt8))) = r := by
      have htarget := hres.target
      cases r with
      | none => rfl
      | some p =>
        obtain ⟨ip, name⟩ := p
        simp only [resolve, Bool.false_eq_true, if_false, Option.map_map, Option.map_some] at htarget
        obtain ⟨k, -, hk⟩ := Option.map_eq_some_iff.mp htarget.symm
        simp only [Function.comp, Prod.mk.injEq] at hk
        simp [← hk.2]
    rw [hnames]
    exact hres

/-- A disk with a directory `a` in the root directory, which has the entry `..`. -/
def oneDirectory (nlink : Int) : Fs where
  sb := ⟨64, 2, 3⟩
  dinode := fun j =>
    if j = 1 then ⟨tDir, 1, 16, fun k => if k = 0 then 5 else 0⟩
    else if j = 2 then ⟨tDir, nlink, 16, fun k => if k = 0 then 6 else 0⟩ else ⟨0, 0, 0, fun _ => 0⟩
  bitmap := fun b => decide (b < 7)
  block := fun b x => if b = 5 then [2, 0, 97].getD x 0 else if b = 6 then [1, 0, 46, 46].getD x 0 else 0
  itable := fun _ => ⟨0, 0, 0, false, 0, false, ⟨0, 0, 0, fun _ => 0⟩⟩
  log := ⟨1, false, []⟩

lemma inode_oneDirectory (nlink : Int) (j : Nat) : (oneDirectory nlink).inode j = (oneDirectory nlink).dinode j :=
  inode_of_unreferenced fun _ href => absurd href (lt_irrefl _)

lemma distinct_oneDirectory (nlink : Int) : Distinct (oneDirectory nlink) :=
  ⟨fun _ => le_rfl, fun _ href => absurd href (lt_irrefl _), fun _ _ href => absurd href (lt_irrefl _)⟩

lemma directory_of_type {nlink : Int} (h : ((oneDirectory nlink).dinode j).type = tDir) : j = 1 ∨ j = 2 := by
  by_contra hno
  push Not at hno
  simp [oneDirectory, hno.1, hno.2, tDir] at h

lemma entries_oneDirectory (nlink : Int) :
    (oneDirectory nlink).entries ((oneDirectory nlink).dinode 1) = [(2, [97])] ∧
      (oneDirectory nlink).entries ((oneDirectory nlink).dinode 2) = [(1, [46, 46])] := by
  have hsame : ∀ j, (oneDirectory nlink).entries ((oneDirectory nlink).dinode j) =
      (oneDirectory 1).entries ((oneDirectory 1).dinode j) := by
    intro j
    have hsize : ((oneDirectory nlink).dinode j).size = ((oneDirectory 1).dinode j).size := by
      simp only [oneDirectory]
      split
      · rfl
      · split <;> rfl
    have haddr : ((oneDirectory nlink).dinode j).addrs = ((oneDirectory 1).dinode j).addrs := by
      simp only [oneDirectory]
      split
      · rfl
      · split <;> rfl
    unfold entries content byteAt fileBlock slot
    rw [hsize, haddr]
    rfl
  rw [hsame, hsame]
  decide

lemma graph_oneDirectory (nlink : Int) : Graph (oneDirectory nlink) := by
  obtain ⟨hroot, ha⟩ := entries_oneDirectory nlink
  have hblock : ∀ bn, bn * bsize < 16 → bn = 0 := by
    intro bn hbn
    unfold bsize at hbn
    omega
  refine ⟨?_, fun j hj => ?_, fun j hj e he hne => ?_⟩
  · rw [inode_oneDirectory]
    change tDir ≠ 0
    decide
  · rw [inode_oneDirectory] at hj ⊢
    rcases directory_of_type hj with rfl | rfl
    · refine ⟨rfl, ⟨by change 16 ≤ _; decide, fun bn hbn => ?_⟩, by change 16 % 16 = 0; decide⟩
      rw [hblock bn hbn]
      change 5 ≠ 0
      decide
    · refine ⟨rfl, ⟨by change 16 ≤ _; decide, fun bn hbn => ?_⟩, by change 16 % 16 = 0; decide⟩
      rw [hblock bn hbn]
      change 6 ≠ 0
      decide
  · rw [inode_oneDirectory] at hj he ⊢
    rcases directory_of_type hj with rfl | rfl
    · rw [hroot, List.mem_singleton] at he
      rw [he]
      change tDir ≠ 0
      decide
    · rw [ha, List.mem_singleton] at he
      rw [he]
      change tDir ≠ 0
      decide

lemma spare_oneDirectory (nlink : Int) : 2 ≤ (oneDirectory nlink).spare := by
  have hall : (Finset.univ.filter fun ip => ((oneDirectory nlink).itable ip).ref = 0) = Finset.univ :=
    Finset.filter_true_of_mem fun _ _ => rfl
  unfold spare
  rw [hall, Finset.card_univ, Fintype.card_fin]
  decide

/-- `//a/..///a/` is inode 2, and its last name is to be looked up in the root directory. -/
theorem namei_follows_path_slashes : ∃ ip fs' jp fs'',
    (oneDirectory 1).namei 1 none [47, 47, 97, 47, 46, 46, 47, 47, 47, 97, 47] = .ok (some ip, fs') ∧
    fs'.ids ip = (1, 2) ∧
    (oneDirectory 1).nameiparent 1 none [47, 47, 97, 47, 46, 46, 47, 47, 47, 97, 47] =
      .ok (some (jp, [97]), fs'') ∧ fs''.ids jp = (1, 1) := by
  have hkept : ∀ j, j = 1 ∨ j = 2 → (oneDirectory 1).Kept j := by
    rintro j (rfl | rfl)
    · exact Or.inl (by rw [inode_oneDirectory]; decide)
    · exact Or.inl (by rw [inode_oneDirectory]; decide)
  have hl : Linked (oneDirectory 1) := by
    refine ⟨hkept 1 (Or.inl rfl), fun j hj e he _ => ?_⟩
    obtain ⟨hroot, ha⟩ := entries_oneDirectory 1
    rw [inode_oneDirectory] at hj he
    rcases directory_of_type hj with rfl | rfl
    · rw [hroot, List.mem_singleton] at he
      exact hkept _ (Or.inr (by rw [he]))
    · rw [ha, List.mem_singleton] at he
      exact hkept _ (Or.inl (by rw [he]))
  have hfacts : (oneDirectory 1).origin none [47, 47, 97, 47, 46, 46, 47, 47, 47, 97, 47] = 1 ∧
      components [47, 47, 97, 47, 46, 46, 47, 47, 47, 97, 47] = [[97], [46, 46], [97]] ∧
      (oneDirectory 1).walk 1 [[97], [46, 46], [97]] = some 2 ∧
      (oneDirectory 1).walkParent 1 [[97], [46, 46], [97]] = some (1, [97]) := by
    decide
  obtain ⟨horigin, hnames, hwalk, hparent⟩ := hfacts
  obtain ⟨⟨r, fs', hrun, hres⟩, r', fs'', hrun', hres'⟩ := namei_follows_path 1 none
    [47, 47, 97, 47, 46, 46, 47, 47, 47, 97, 47] (distinct_oneDirectory 1) (graph_oneDirectory 1) hl
    (spare_oneDirectory 1) (fun _ => rfl) fun hno => absurd rfl hno
  have htarget := hres.target
  have htarget' := hres'.target
  rw [horigin, hnames, hwalk] at htarget
  rw [horigin, hnames, hparent] at htarget'
  cases r with
  | none => cases htarget
  | some ip =>
    cases r' with
    | none => cases htarget'
    | some p =>
      obtain ⟨jp, name⟩ := p
      simp only [Option.map_some, Option.some.injEq, Prod.mk.injEq, rootdev] at htarget htarget'
      obtain ⟨hids, rfl⟩ := htarget'
      exact ⟨ip, fs', jp, fs'', hrun, htarget.1, hrun', hids⟩

/-- All entries of the inode table are in use, none of them for the root. -/
def fullTable : Fs where
  sb := ⟨64, 2, 3⟩
  dinode := fun _ => ⟨tDir, 1, 0, fun _ => 0⟩
  bitmap := fun b => decide (b < 7)
  block := fun _ _ => 0
  itable := fun ip => ⟨1, 2 + ip.val, 1, false, 0, true, ⟨tDir, 1, 0, fun _ => 0⟩⟩
  log := ⟨1, false, []⟩

lemma inode_fullTable (j : Nat) : fullTable.inode j = ⟨tDir, 1, 0, fun _ => 0⟩ := by
  unfold Fs.inode
  split <;> rfl

/-- With a full inode table `namei` does not return, and without links a directory is freed on the way. -/
theorem namei_needs_entries :
    (¬ ∀ (fs : Fs) (pid : Int) (cwd : Option (Fin ninode)) (path : List UInt8), Distinct fs → Graph fs → Linked fs →
      (∀ ip, (fs.itable ip).locked = false) → Starts fs cwd path → ∃ r fs', fs.namei pid cwd path = .ok (r, fs') ∧
        Resolves fs ((fs.walk (fs.origin cwd path) (components path)).map fun k => (k, [])) (r.map fun ip => (ip, [])) fs') ∧
    ¬ ∀ (fs : Fs) (pid : Int) (cwd : Option (Fin ninode)) (path : List UInt8), Distinct fs → Graph fs → 2 ≤ fs.spare →
      (∀ ip, (fs.itable ip).locked = false) → Starts fs cwd path → ∃ r fs', fs.namei pid cwd path = .ok (r, fs') ∧
        Resolves fs ((fs.walk (fs.origin cwd path) (components path)).map fun k => (k, [])) (r.map fun ip => (ip, [])) fs' := by
  constructor
  · intro hall
    have ht : Distinct fullTable := by
      refine ⟨fun _ => by change (0 : Int) ≤ 1; decide, fun _ _ => rfl, fun ip jp _ _ heq => Fin.ext ?_⟩
      change 2 + ip.val = 2 + jp.val at heq
      omega
    have hno : ∀ j, fullTable.entries (fullTable.inode j) = [] := by
      intro j
      rw [inode_fullTable]
      rfl
    have hg : Graph fullTable := by
      refine ⟨?_, fun j _ => ?_, fun j _ e he => ?_⟩
      · rw [inode_fullTable]
        decide
      · rw [inode_fullTable]
        exact ⟨rfl, ⟨Nat.zero_le _, fun bn hbn => absurd hbn (Nat.not_lt_zero _)⟩, rfl⟩
      · rw [hno] at he
        cases he
    have hl : Linked fullTable := by
      refine ⟨Or.inl ?_, fun j _ e he => ?_⟩
      · rw [inode_fullTable]
        decide
      · rw [hno] at he
        cases he
    obtain ⟨r, fs', hrun, -⟩ := hall fullTable 1 none [47] ht hg hl (fun _ => rfl) fun hroot => absurd rfl hroot
    have hstop : stopped (fullTable.namei 1 none [47]) = some (.panic .igetNoInodes) := by decide
    rw [hrun] at hstop
    cases hstop
  · intro hall
    obtain ⟨r, fs', hrun, -⟩ := hall (oneDirectory 0) 1 none [47, 97, 47, 46, 46, 47, 97, 47, 46, 46] (distinct_oneDirectory 0)
      (graph_oneDirectory 0) (spare_oneDirectory 0) (fun _ => rfl) fun hroot => absurd rfl hroot
    have hstop : stopped ((oneDirectory 0).namei 1 none [47, 97, 47, 46, 46, 47, 97, 47, 46, 46]) = some (.panic .ilockNoType) := by
      decide +kernel
    rw [hrun] at hstop
    cases hstop

end Fs

end FogOS.Kernel
