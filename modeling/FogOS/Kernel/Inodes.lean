import FogOS.Lib.Steps
import FogOS.Kernel.Fs

/-!
# The inode table among processes

`iget`, `idup`, `ilock`, `iunlock`, `iput` and `ialloc` of `kernel/fs.c`, called by many processes.
What happens under `itable.lock` is one step, and so is what a process does to an inode between two
operations on its sleep-lock or on the disk. The disk is what `bread` shows.
-/

namespace FogOS.Kernel.Inodes

/-- `struct dinode`. -/
structure Dinode where
  type : Int
  major : Int
  minor : Int
  nlink : Int
  size : Nat
  addrs : List Nat
  deriving DecidableEq

/-- The effect of `itrunc` on the fields of the inode. -/
def Dinode.trunc (d : Dinode) : Dinode := { d with size := 0, addrs := List.replicate (ndirect + 1) 0 }

/-- What `ialloc` writes to the disk: `memset(dip, 0, sizeof(*dip))` and `dip->type = type`. -/
def Dinode.zeroed (type : Int) : Dinode := ⟨type, 0, 0, 0, 0, List.replicate (ndirect + 1) 0⟩

/-- `struct inode`: `lock` is the holder of the sleep-lock, `d` are the fields that are on the disk. -/
structure Inode where
  dev : Nat
  inum : Nat
  ref : Int
  lock : Option Nat
  valid : Bool
  d : Dinode

/-- Where a process is: outside these functions, in `ilock` with the lock and about to read the
inode, or in `iput`: before `itrunc`, after it, after the inode is free on the disk, and before the
reference is dropped. -/
inductive Pc
  | idle
  | loading (ip : Fin ninode)
  | last (ip : Fin ninode)
  | truncated (ip : Fin ninode)
  | freed (ip : Fin ninode)
  | dropping (ip : Fin ninode)
  deriving DecidableEq

/-- The inodes in memory and on the disk, the processes, the references that each of them has to put,
and which inodes were changed in memory since the last `iupdate`. -/
structure Itable where
  inode : Fin ninode → Inode
  disk : Nat → Nat → Dinode
  pc : Nat → Pc
  refs : List (Nat × Fin ninode)
  dirty : Fin ninode → Bool

/-- What can happen next. `hand` passes a reference on, as by `fork`; `run` is the next part of the
function that the process is in. -/
inductive Act
  | iget (p dev inum : Nat)
  | idup (p : Nat) (ip : Fin ninode)
  | hand (p q : Nat) (ip : Fin ninode)
  | ilock (p : Nat) (ip : Fin ninode)
  | modify (p : Nat) (ip : Fin ninode) (d : Dinode)
  | iupdate (p : Nat) (ip : Fin ninode)
  | iunlock (p : Nat) (ip : Fin ninode)
  | iput (p : Nat) (ip : Fin ninode)
  | ialloc (p dev inum : Nat) (type : Int)
  | run (p : Nat)

namespace Itable

/-- Assignment to fields of an entry. -/
def setInode (m : Itable) (ip : Fin ninode) (v : Inode) : Itable :=
  { m with inode := Function.update m.inode ip v }

def setPc (m : Itable) (p : Nat) (w : Pc) : Itable := { m with pc := Function.update m.pc p w }

/-- The fields of an entry are copied to the disk. -/
def iupdate (m : Itable) (ip : Fin ninode) : Itable :=
  { m with
    disk := Function.update m.disk (m.inode ip).dev
      (Function.update (m.disk (m.inode ip).dev) (m.inode ip).inum (m.inode ip).d)
    dirty := Function.update m.dirty ip false }

/-- The inode on the disk that an entry is for. -/
def onDisk (m : Itable) (ip : Fin ninode) : Dinode := m.disk (m.inode ip).dev (m.inode ip).inum

/-- `iget`. -/
def iget (m : Itable) (p dev inum : Nat) : Except Stop Itable :=
  match (List.finRange ninode).find? fun i =>
      0 < (m.inode i).ref ∧ (m.inode i).dev = dev ∧ (m.inode i).inum = inum with
  | some ip => return { m.setInode ip { m.inode ip with ref := (m.inode ip).ref + 1 } with refs := (p, ip) :: m.refs }
  | none =>
    match (List.finRange ninode).find? fun i => (m.inode i).ref = 0 with
    | none => throw (.panic .igetNoInodes)
    | some ip => return { m.setInode ip { m.inode ip with dev := dev, inum := inum, ref := 1, valid := false } with
        refs := (p, ip) :: m.refs }

/-- `idup`. -/
def idup (m : Itable) (p : Nat) (ip : Fin ninode) : Itable :=
  { m.setInode ip { m.inode ip with ref := (m.inode ip).ref + 1 } with refs := (p, ip) :: m.refs }

/-- `ilock`, until it has the sleep-lock. -/
def ilock (m : Itable) (p : Nat) (ip : Fin ninode) : Except Stop Itable :=
  if (m.inode ip).ref < 1 then throw (.panic .ilock)
  else if (m.inode ip).lock ≠ none then throw .sleep
  else return (m.setInode ip { m.inode ip with lock := some p }).setPc p (.loading ip)

/-- `iunlock`. -/
def iunlock (m : Itable) (p : Nat) (ip : Fin ninode) : Except Stop Itable :=
  if (m.inode ip).lock ≠ some p ∨ (m.inode ip).ref < 1 then throw (.panic .iunlock)
  else return m.setInode ip { m.inode ip with lock := none }

/-- `ip->ref--`, and the reference is put. -/
def drop (m : Itable) (p : Nat) (ip : Fin ninode) : Itable :=
  { m.setInode ip { m.inode ip with ref := (m.inode ip).ref - 1 } with refs := m.refs.erase (p, ip) }

/-- `iput`, until it releases `itable.lock`. -/
def iput (m : Itable) (p : Nat) (ip : Fin ninode) : Except Stop Itable :=
  if (m.inode ip).ref = 1 ∧ (m.inode ip).valid = true ∧ (m.inode ip).d.nlink = 0 then
    if (m.inode ip).lock ≠ none then throw .sleep
    else return (m.setInode ip { m.inode ip with lock := some p }).setPc p (.last ip)
  else return m.drop p ip

/-- `ialloc` finds that the inode is free, and marks it allocated. Its `iget` is another step. -/
def ialloc (m : Itable) (dev inum : Nat) (type : Int) : Itable :=
  { m with disk := Function.update m.disk dev (Function.update (m.disk dev) inum (Dinode.zeroed type)) }

/-- The rest of `ilock` and, part by part, of `iput`. -/
def run (m : Itable) (p : Nat) : Except Stop Itable :=
  match m.pc p with
  | .idle => return m
  | .loading ip =>
    if (m.inode ip).valid then return m.setPc p .idle
    else
      if (m.onDisk ip).type = 0 then throw (.panic .ilockNoType)
      else return (m.setInode ip { m.inode ip with d := m.onDisk ip, valid := true }).setPc p .idle
  | .last ip =>
    return ((m.setInode ip { m.inode ip with d := (m.inode ip).d.trunc }).iupdate ip).setPc p (.truncated ip)
  | .truncated ip =>
    return ((m.setInode ip { m.inode ip with d := { (m.inode ip).d with type := 0 } }).iupdate ip).setPc p (.freed ip)
  | .freed ip =>
    return (m.setInode ip { m.inode ip with valid := false, lock := none }).setPc p (.dropping ip)
  | .dropping ip => return (m.drop p ip).setPc p .idle

/-- What happens in a step. -/
def exec (m : Itable) : Act → Except Stop Itable
  | .iget p dev inum => m.iget p dev inum
  | .idup p ip => return m.idup p ip
  | .hand p q ip => return { m with refs := (q, ip) :: m.refs.erase (p, ip) }
  | .ilock p ip => m.ilock p ip
  | .modify _ ip d => return { m.setInode ip { m.inode ip with d := d } with dirty := Function.update m.dirty ip true }
  | .iupdate _ ip => return m.iupdate ip
  | .iunlock p ip => m.iunlock p ip
  | .iput p ip => m.iput p ip
  | .ialloc _ dev inum type => return m.ialloc dev inum type
  | .run p => m.run p

/-- The process can do without one of its references: it has the lock only if it keeps another. -/
def Spare (m : Itable) (p : Nat) (ip : Fin ninode) : Prop :=
  (p, ip) ∈ m.refs ∧ ((m.inode ip).lock = some p → 2 ≤ m.refs.count (p, ip))

/-- When a step can be taken. A process uses what it has a reference to and puts each reference once.
While it holds the lock it may change the fields, other than `type`, and then it calls `iupdate` before
it unlocks. -/
def Enabled (m : Itable) : Act → Prop
  | .iget p _ _ => m.pc p = .idle
  | .idup p ip => m.pc p = .idle ∧ (p, ip) ∈ m.refs
  | .hand p _ ip => m.pc p = .idle ∧ m.Spare p ip
  | .ilock p ip => m.pc p = .idle ∧ (p, ip) ∈ m.refs ∧ (m.inode ip).lock = none
  | .modify p ip d => m.pc p = .idle ∧ (m.inode ip).lock = some p ∧ d.type = (m.inode ip).d.type
  | .iupdate p ip => m.pc p = .idle ∧ (m.inode ip).lock = some p
  | .iunlock p ip => m.pc p = .idle ∧ (m.inode ip).lock = some p ∧ m.dirty ip = false
  | .iput p ip => m.pc p = .idle ∧ m.Spare p ip
  | .ialloc p dev inum type => m.pc p = .idle ∧ (m.disk dev inum).type = 0 ∧ type ≠ 0
  | .run p => m.pc p ≠ .idle

instance (m : Itable) (p : Nat) (ip : Fin ninode) : Decidable (m.Spare p ip) :=
  inferInstanceAs (Decidable (_ ∧ _))

instance (m : Itable) : DecidablePred m.Enabled
  | .iget p _ _ => inferInstanceAs (Decidable (m.pc p = .idle))
  | .idup _ _ => inferInstanceAs (Decidable (_ ∧ _))
  | .hand _ _ _ => inferInstanceAs (Decidable (_ ∧ _))
  | .ilock _ _ => inferInstanceAs (Decidable (_ ∧ _ ∧ _))
  | .modify _ _ _ => inferInstanceAs (Decidable (_ ∧ _ ∧ _))
  | .iupdate _ _ => inferInstanceAs (Decidable (_ ∧ _))
  | .iunlock _ _ => inferInstanceAs (Decidable (_ ∧ _ ∧ _))
  | .iput _ _ => inferInstanceAs (Decidable (_ ∧ _))
  | .ialloc _ _ _ _ => inferInstanceAs (Decidable (_ ∧ _ ∧ _))
  | .run p => inferInstanceAs (Decidable (m.pc p ≠ .idle))

/-- A step of the system that does not stop it. -/
def Step (m : Itable) (a : Act) (m' : Itable) : Prop := m.Enabled a ∧ m.exec a = .ok m'

/-- The table after `iinit`, and any disk. -/
def initial (disk : Nat → Nat → Dinode) : Itable where
  inode := fun _ => ⟨0, 0, 0, none, false, ⟨0, 0, 0, 0, 0, []⟩⟩
  disk := disk
  pc := fun _ => .idle
  refs := []
  dirty := fun _ => false

/-- The number of references to an entry that have not been put. -/
def outstanding (m : Itable) (ip : Fin ninode) : Nat := m.refs.countP (·.2 == ip)

end Itable

/-! ### The invariant -/

section

variable {m m' : Itable} {ip : Fin ninode} {p : Nat}

/-- The entry that a process is working on. -/
def Pc.about : Pc → Option (Fin ninode)
  | .idle => none
  | .loading ip | .last ip | .truncated ip | .freed ip | .dropping ip => some ip

/-- The process has the lock because of where it is. -/
def Pc.Locks (w : Pc) (ip : Fin ninode) : Prop := w.about = some ip ∧ w ≠ .dropping ip

/-- What holds of an entry. Only while its inode is being freed may a valid entry not be allocated on
the disk. -/
structure Itable.Sound (m : Itable) (ip : Fin ninode) : Prop where
  count : (m.inode ip).ref = m.outstanding ip
  held : ∀ p, (m.inode ip).lock = some p → (p, ip) ∈ m.refs
  loaded : ∀ p, (m.inode ip).lock = some p → (m.inode ip).valid = true ∨ m.pc p = .loading ip
  clean : (∀ p, (m.inode ip).lock = some p → m.pc p = .freed ip) → m.dirty ip = false
  fresh : (m.inode ip).valid = true → 0 < (m.inode ip).ref →
    (∀ p, (m.inode ip).lock = some p → m.pc p ≠ .freed ip) →
    (m.onDisk ip).type ≠ 0 ∧ (m.inode ip).d.type ≠ 0 ∧ (m.dirty ip = false → (m.inode ip).d = m.onDisk ip)

/-- What holds in every state of a run. -/
structure Itable.Inv (m : Itable) : Prop where
  sound : ∀ ip, m.Sound ip
  unique : ∀ ip ip', 0 < (m.inode ip).ref → 0 < (m.inode ip').ref → (m.inode ip).dev = (m.inode ip').dev →
    (m.inode ip).inum = (m.inode ip').inum → ip = ip'
  locks : ∀ p ip, (m.pc p).Locks ip → (m.inode ip).lock = some p
  dropping : ∀ p ip, m.pc p = .dropping ip → (p, ip) ∈ m.refs ∧ (m.inode ip).lock ≠ some p

/-- A step of the process `p` is only about the entry `ip`. -/
structure Itable.Elsewhere (m m' : Itable) (p : Nat) (ip : Fin ninode) : Prop where
  inode : ∀ ip', ip' ≠ ip → m'.inode ip' = m.inode ip'
  disk : ∀ ip', ip' ≠ ip → 0 < (m.inode ip').ref → m'.onDisk ip' = m.onDisk ip'
  refs : ∀ ip', ip' ≠ ip → m'.refs.filter (·.2 == ip') = m.refs.filter (·.2 == ip')
  dirty : ∀ ip', ip' ≠ ip → m'.dirty ip' = m.dirty ip'
  pc : ∀ q, q ≠ p → m'.pc q = m.pc q
  before : ∀ ip', (m.pc p).about = some ip' → ip' = ip
  after : ∀ ip', (m'.pc p).about = some ip' → ip' = ip

/-- What the step does to the entry that it is about, as far as other processes and entries see it. -/
structure Itable.Here (m m' : Itable) (p : Nat) (ip : Fin ninode) : Prop where
  sound : m'.Sound ip
  apart : ∀ ip', ip' ≠ ip → 0 < (m.inode ip').ref → 0 < (m'.inode ip).ref →
    ¬ ((m.inode ip').dev = (m'.inode ip).dev ∧ (m.inode ip').inum = (m'.inode ip).inum)
  lock : ∀ q, q ≠ p → ((m'.inode ip).lock = some q ↔ (m.inode ip).lock = some q)
  refs : ∀ q, q ≠ p → (q, ip) ∈ m.refs → (q, ip) ∈ m'.refs
  locks : (m'.pc p).Locks ip → (m'.inode ip).lock = some p
  dropping : m'.pc p = .dropping ip → (p, ip) ∈ m'.refs ∧ (m'.inode ip).lock ≠ some p

namespace Itable

lemma outstanding_of_filter (h : m'.refs.filter (·.2 == ip) = m.refs.filter (·.2 == ip)) :
    m'.outstanding ip = m.outstanding ip := by
  unfold outstanding
  rw [List.countP_eq_length_filter, List.countP_eq_length_filter, h]

lemma mem_of_filter (h : m'.refs.filter (·.2 == ip) = m.refs.filter (·.2 == ip)) (hmem : (p, ip) ∈ m.refs) :
    (p, ip) ∈ m'.refs := by
  have hfilter : (p, ip) ∈ m'.refs.filter (·.2 == ip) := by
    rw [h]
    exact List.mem_filter.mpr ⟨hmem, beq_self_eq_true ip⟩
  exact (List.mem_filter.mp hfilter).1

/-- The entries that a step is not about. -/
lemma Elsewhere.sound {ip' : Fin ninode} (e : Elsewhere m m' p ip) (hne : ip' ≠ ip) (h : m.Sound ip') :
    m'.Sound ip' := by
  have hin := e.inode ip' hne
  have hpc : ∀ q w, w.about = some ip' → (m'.pc q = w ↔ m.pc q = w) := by
    intro q w hw
    by_cases hq : q = p
    · subst hq
      constructor
      · rintro rfl
        exact absurd (e.after ip' hw) hne
      · rintro rfl
        exact absurd (e.before ip' hw) hne
    · rw [e.pc q hq]
  refine ⟨?_, fun q hq => ?_, fun q hq => ?_, fun hq => ?_, fun hvalid hpos hfree => ?_⟩
  · rw [hin, h.count, outstanding_of_filter (e.refs ip' hne)]
  · exact mem_of_filter (e.refs ip' hne) (h.held q (hin ▸ hq))
  · rw [hin, hpc q _ rfl]
    exact h.loaded q (hin ▸ hq)
  · rw [e.dirty ip' hne]
    exact h.clean fun q hlock => (hpc q _ rfl).mp (hq q (hin ▸ hlock))
  · rw [hin] at hvalid hpos
    rw [e.disk ip' hne hpos, hin, e.dirty ip' hne]
    refine h.fresh hvalid hpos fun q hq hpcq => hfree q ?_ ((hpc q _ rfl).mpr hpcq)
    rw [hin]
    exact hq

lemma Inv.of_here (h : m.Inv) (e : Elsewhere m m' p ip) (t : Here m m' p ip) : m'.Inv := by
  have hlock : ∀ q ip', q ≠ p → ((m'.inode ip').lock = some q ↔ (m.inode ip').lock = some q) := by
    intro q ip' hq
    by_cases hip : ip' = ip
    · subst hip
      exact t.lock q hq
    · rw [e.inode ip' hip]
  refine ⟨fun ip' => ?_, fun i j hi hj hdev hinum => ?_, fun q ip' hw => ?_, fun q ip' hw => ?_⟩
  · by_cases hip : ip' = ip
    · exact hip ▸ t.sound
    · exact e.sound hip (h.sound ip')
  · by_cases hiip : i = ip <;> by_cases hjip : j = ip
    · rw [hiip, hjip]
    · subst hiip
      rw [e.inode j hjip] at hj hdev hinum
      exact absurd ⟨hdev.symm, hinum.symm⟩ (t.apart j hjip hj hi)
    · subst hjip
      rw [e.inode i hiip] at hi hdev hinum
      exact absurd ⟨hdev, hinum⟩ (t.apart i hiip hi hj)
    · rw [e.inode i hiip] at hi hdev hinum
      rw [e.inode j hjip] at hj hdev hinum
      exact h.unique i j hi hj hdev hinum
  · by_cases hq : q = p
    · subst hq
      obtain rfl := e.after ip' hw.1
      exact t.locks hw
    · rw [e.pc q hq] at hw
      exact (hlock q ip' hq).mpr (h.locks q ip' hw)
  · by_cases hq : q = p
    · subst hq
      obtain rfl : ip' = ip := e.after ip' (by rw [hw]; rfl)
      exact t.dropping hw
    · rw [e.pc q hq] at hw
      obtain ⟨hmem, hne⟩ := h.dropping q ip' hw
      refine ⟨?_, fun hl => hne ((hlock q ip' hq).mp hl)⟩
      by_cases hip : ip' = ip
      · subst hip
        exact t.refs q hq hmem
      · exact mem_of_filter (e.refs ip' hip) hmem

end Itable

/-! ### Steps -/

namespace Itable

lemma Sound.pos (h : m.Sound ip) (hmem : (p, ip) ∈ m.refs) : 0 < (m.inode ip).ref := by
  rw [h.count]
  have hpos : 0 < m.outstanding ip := List.countP_pos_iff.mpr ⟨(p, ip), hmem, beq_self_eq_true ip⟩
  exact_mod_cast hpos

lemma Inv.apart {ip' : Fin ninode} (h : m.Inv) (hpos : 0 < (m.inode ip).ref) (hne : ip' ≠ ip)
    (hpos' : 0 < (m.inode ip').ref) :
    ¬ ((m.inode ip').dev = (m.inode ip).dev ∧ (m.inode ip').inum = (m.inode ip).inum) :=
  fun ⟨hdev, hinum⟩ => hne (h.unique ip' ip hpos' hpos hdev hinum)

/-- A step that writes to one entry, and to the disk only what no other entry is for. -/
lemma elsewhere_of {v : Inode} {w : Pc} {b : Bool} (hinode : m'.inode = Function.update m.inode ip v)
    (hdisk : ∀ ip', ip' ≠ ip → 0 < (m.inode ip').ref → m'.disk (m.inode ip').dev (m.inode ip').inum = m.onDisk ip')
    (hrefs : ∀ ip', ip' ≠ ip → m'.refs.filter (·.2 == ip') = m.refs.filter (·.2 == ip'))
    (hdirty : m'.dirty = Function.update m.dirty ip b) (hpc : m'.pc = Function.update m.pc p w)
    (hbefore : ∀ ip', (m.pc p).about = some ip' → ip' = ip) (hafter : ∀ ip', w.about = some ip' → ip' = ip) :
    Elsewhere m m' p ip where
  inode ip' hne := by rw [hinode, Function.update_of_ne hne]
  disk ip' hne hpos := by
    unfold onDisk
    rw [hinode, Function.update_of_ne hne]
    exact hdisk ip' hne hpos
  refs := hrefs
  dirty ip' hne := by rw [hdirty, Function.update_of_ne hne]
  pc q hq := by rw [hpc, Function.update_of_ne hq]
  before := hbefore
  after ip' hip' := by
    rw [hpc, Function.update_self] at hip'
    exact hafter ip' hip'

lemma about_idle (hp : m.pc p = .idle) (ip : Fin ninode) : ∀ ip', (m.pc p).about = some ip' → ip' = ip := by
  intro ip' h
  rw [hp] at h
  cases h

lemma filter_cons_ne {ip' : Fin ninode} (l : List (Nat × Fin ninode)) (hne : ip' ≠ ip) :
    ((p, ip) :: l).filter (·.2 == ip') = l.filter (·.2 == ip') :=
  List.filter_cons_of_neg (by simpa using hne.symm)

lemma filter_erase_ne {ip' : Fin ninode} (l : List (Nat × Fin ninode)) (hne : ip' ≠ ip) :
    (l.erase (p, ip)).filter (·.2 == ip') = l.filter (·.2 == ip') := by
  rw [← List.erase_filter]
  refine List.erase_of_not_mem fun hmem => ?_
  simpa [hne.symm] using (List.mem_filter.mp hmem).2

lemma outstanding_erase (hmem : (p, ip) ∈ m.refs) :
    ((m.refs.erase (p, ip)).countP (·.2 == ip) : Int) = m.outstanding ip - 1 := by
  have hperm := (List.perm_cons_erase hmem).countP_eq (·.2 == ip)
  rw [List.countP_cons_of_pos (by simp)] at hperm
  unfold outstanding
  omega

lemma outstanding_cons (l : List (Nat × Fin ninode)) :
    (((p, ip) :: l).countP (·.2 == ip) : Int) = l.countP (·.2 == ip) + 1 := by
  rw [List.countP_cons_of_pos (by simp)]
  rfl

lemma Spare.mem_erase {q : Nat} (h : m.Spare p ip) (hs : m.Sound ip) (hlock : (m.inode ip).lock = some q) :
    (q, ip) ∈ m.refs.erase (p, ip) := by
  by_cases hq : q = p
  · subst hq
    have htwo := h.2 hlock
    refine List.count_pos_iff.mp ?_
    rw [List.count_erase_self]
    omega
  · exact (List.mem_erase_of_ne (by simpa using hq)).mpr (hs.held q hlock)

/-- After the step the process is outside. -/
lemma here_of_idle (hpc : m'.pc p = .idle) (hs : m'.Sound ip)
    (hapart : ∀ ip', ip' ≠ ip → 0 < (m.inode ip').ref → 0 < (m'.inode ip).ref →
      ¬ ((m.inode ip').dev = (m'.inode ip).dev ∧ (m.inode ip').inum = (m'.inode ip).inum))
    (hlock : ∀ q, q ≠ p → ((m'.inode ip).lock = some q ↔ (m.inode ip).lock = some q))
    (hrefs : ∀ q, q ≠ p → (q, ip) ∈ m.refs → (q, ip) ∈ m'.refs) : Here m m' p ip :=
  ⟨hs, hapart, hlock, hrefs, fun hw => (by rw [hpc] at hw; cases hw.1), fun hw => (by rw [hpc] at hw; cases hw)⟩

/-- Another reference. -/
lemma Inv.idup (h : m.Inv) (hp : m.pc p = .idle) (hpos : 0 < (m.inode ip).ref) : (m.idup p ip).Inv := by
  have hin : (m.idup p ip).inode ip = { m.inode ip with ref := (m.inode ip).ref + 1 } := Function.update_self _ _ _
  have hdisk : (m.idup p ip).onDisk ip = m.onDisk ip := by
    unfold onDisk
    rw [hin]
    rfl
  have hs := h.sound ip
  refine @Inv.of_here m _ ip p h
    (elsewhere_of rfl (fun _ _ _ => rfl) (fun _ hne => filter_cons_ne _ hne) (Function.update_eq_self _ _).symm
      (Function.update_eq_self _ _).symm (about_idle hp ip) (about_idle hp ip))
    (here_of_idle hp ⟨?_, ?_, ?_, ?_, ?_⟩ ?_ ?_ ?_)
  · rw [hin]
    show (m.inode ip).ref + 1 = (((p, ip) :: m.refs).countP (·.2 == ip) : Nat)
    rw [outstanding_cons, hs.count]
    rfl
  · rw [hin]
    exact fun q hq => List.mem_cons_of_mem _ (hs.held q hq)
  · rw [hin]
    exact hs.loaded
  · rw [hin]
    exact hs.clean
  · rw [hdisk, hin]
    exact fun hvalid _ hfree => hs.fresh hvalid hpos hfree
  · rw [hin]
    exact fun ip' hne hpos' _ => h.apart hpos hne hpos'
  · rw [hin]
    exact fun q _ => Iff.rfl
  · exact fun q _ hmem => List.mem_cons_of_mem _ hmem

/-- An entry without references is used for another inode. -/
lemma Inv.recycle {dev inum : Nat} (h : m.Inv) (hp : m.pc p = .idle) (hzero : (m.inode ip).ref = 0)
    (hnone : ∀ ip', 0 < (m.inode ip').ref → ¬ ((m.inode ip').dev = dev ∧ (m.inode ip').inum = inum)) :
    Inv { m.setInode ip { m.inode ip with dev := dev, inum := inum, ref := 1, valid := false } with
      refs := (p, ip) :: m.refs } := by
  generalize hm' : ({ m.setInode ip { m.inode ip with dev := dev, inum := inum, ref := 1, valid := false } with
      refs := (p, ip) :: m.refs } : Itable) = m'
  have hin : m'.inode ip = { m.inode ip with dev := dev, inum := inum, ref := 1, valid := false } := by
    rw [← hm']
    exact Function.update_self _ _ _
  have hpc : m'.pc = m.pc := by rw [← hm']; rfl
  have hrefs : m'.refs = (p, ip) :: m.refs := by rw [← hm']
  have hs := h.sound ip
  have hfree : ∀ q, (m.inode ip).lock ≠ some q := fun q hq => by
    have hpos := hs.pos (hs.held q hq)
    omega
  refine @Inv.of_here m _ ip p h
    (elsewhere_of (v := m'.inode ip) (w := m.pc p) (b := m.dirty ip) ?_ ?_ ?_ ?_ ?_ (about_idle hp ip) (about_idle hp ip))
    (here_of_idle (by rw [hpc, hp]) ⟨?_, ?_, ?_, ?_, ?_⟩ ?_ ?_ ?_)
  · rw [hin, ← hm']
    rfl
  · rw [← hm']
    exact fun _ _ _ => rfl
  · rw [hrefs]
    exact fun _ hne => filter_cons_ne _ hne
  · rw [Function.update_eq_self, ← hm']
    rfl
  · rw [Function.update_eq_self, hpc]
  · unfold outstanding
    rw [hin, hrefs, outstanding_cons]
    have hcount := hs.count
    unfold outstanding at hcount
    show (1 : Int) = (m.refs.countP (·.2 == ip) : Nat) + 1
    omega
  · rw [hin]
    exact fun q hq => absurd hq (hfree q)
  · rw [hin]
    exact fun q hq => absurd hq (hfree q)
  · intro _
    have hclean := hs.clean fun q hq => absurd hq (hfree q)
    rw [← hm']
    exact hclean
  · rw [hin]
    exact fun hvalid => Bool.noConfusion hvalid
  · rw [hin]
    exact fun ip' _ hpos' _ => hnone ip' hpos'
  · rw [hin]
    exact fun q _ => Iff.rfl
  · rw [hrefs]
    exact fun q _ hmem => List.mem_cons_of_mem _ hmem

lemma Inv.iget {dev inum : Nat} (h : m.Inv) (hp : m.pc p = .idle) (hok : m.iget p dev inum = .ok m') : m'.Inv := by
  unfold Itable.iget at hok
  cases hfind : (List.finRange ninode).find? fun i =>
      0 < (m.inode i).ref ∧ (m.inode i).dev = dev ∧ (m.inode i).inum = inum with
  | some ip =>
    rw [hfind] at hok
    obtain rfl := pure_ok hok
    have hmatch := List.find?_some hfind
    rw [decide_eq_true_eq] at hmatch
    exact h.idup hp hmatch.1
  | none =>
    rw [hfind] at hok
    cases hempty : (List.finRange ninode).find? fun i => (m.inode i).ref = 0 with
    | none =>
      rw [hempty] at hok
      cases hok
    | some ip =>
      rw [hempty] at hok
      obtain rfl := pure_ok hok
      have hzero := List.find?_some hempty
      rw [decide_eq_true_eq] at hzero
      refine h.recycle hp hzero fun ip' hpos' hid => ?_
      have hnone := List.find?_eq_none.mp hfind ip' (List.mem_finRange ip')
      exact hnone (decide_eq_true ⟨hpos', hid⟩)

/-- A reference is passed on. -/
lemma Inv.hand (q : Nat) (h : m.Inv) (hp : m.pc p = .idle) (hspare : m.Spare p ip) :
    Inv { m with refs := (q, ip) :: m.refs.erase (p, ip) } := by
  have hs := h.sound ip
  refine @Inv.of_here m _ ip p h
    (elsewhere_of (Function.update_eq_self _ _).symm (fun _ _ _ => rfl)
      (fun _ hne => (filter_cons_ne _ hne).trans (filter_erase_ne _ hne)) (Function.update_eq_self _ _).symm
      (Function.update_eq_self _ _).symm (about_idle hp ip) (about_idle hp ip))
    (here_of_idle hp ⟨?_, ?_, hs.loaded, hs.clean, hs.fresh⟩ ?_ (fun _ _ => Iff.rfl) ?_)
  · show (m.inode ip).ref = (((q, ip) :: m.refs.erase (p, ip)).countP (·.2 == ip) : Nat)
    rw [outstanding_cons, outstanding_erase hspare.1, hs.count]
    omega
  · exact fun r hr => List.mem_cons_of_mem _ (hspare.mem_erase hs hr)
  · exact fun ip' hne hpos' hpos => h.apart hpos hne hpos'
  · exact fun r hr hmem => List.mem_cons_of_mem _ ((List.mem_erase_of_ne (by simpa using hr)).mpr hmem)

/-- A reference is dropped. -/
lemma Inv.drop (h : m.Inv) (hbefore : ∀ ip', (m.pc p).about = some ip' → ip' = ip)
    (hfreed : m.pc p ≠ .freed ip) (hloading : m.pc p ≠ .loading ip) (hspare : m.Spare p ip) :
    ((m.drop p ip).setPc p .idle).Inv := by
  have hs := h.sound ip
  have hpos := hs.pos hspare.1
  generalize hm' : (m.drop p ip).setPc p .idle = m'
  have hin : m'.inode ip = { m.inode ip with ref := (m.inode ip).ref - 1 } := by
    rw [← hm']
    exact Function.update_self _ _ _
  have hpc : m'.pc = Function.update m.pc p .idle := by rw [← hm']; rfl
  have hrefs : m'.refs = m.refs.erase (p, ip) := by rw [← hm']; rfl
  have hdirty : m'.dirty = m.dirty := by rw [← hm']; rfl
  have hdisk : m'.onDisk ip = m.onDisk ip := by
    unfold onDisk
    rw [hin, ← hm']
    rfl
  have hiff : ∀ q w, w = .freed ip ∨ w = .loading ip → (m'.pc q = w ↔ m.pc q = w) := by
    intro q w hw
    by_cases hq : q = p
    · subst hq
      rw [hpc, Function.update_self]
      rcases hw with rfl | rfl
      · exact iff_of_false Pc.noConfusion hfreed
      · exact iff_of_false Pc.noConfusion hloading
    · rw [hpc, Function.update_of_ne hq]
  refine @Inv.of_here m _ ip p h
    (elsewhere_of (v := m'.inode ip) (b := m.dirty ip) ?_ ?_ ?_ ?_ hpc hbefore fun _ hw => (by cases hw))
    (here_of_idle (by rw [hpc, Function.update_self]) ⟨?_, ?_, ?_, ?_, ?_⟩ ?_ ?_ ?_)
  · rw [hin, ← hm']
    rfl
  · rw [← hm']
    exact fun _ _ _ => rfl
  · rw [hrefs]
    exact fun _ hne => filter_erase_ne _ hne
  · rw [Function.update_eq_self, hdirty]
  · unfold outstanding
    rw [hin, hrefs, outstanding_erase hspare.1, ← hs.count]
  · rw [hin, hrefs]
    exact fun q hq => hspare.mem_erase hs hq
  · rw [hin]
    exact fun q hq => (hs.loaded q hq).imp id (hiff q _ (.inr rfl)).mpr
  · rw [hin, hdirty]
    exact fun hq => hs.clean fun q hlock => (hiff q _ (.inl rfl)).mp (hq q hlock)
  · rw [hdisk, hdirty, hin]
    exact fun hvalid _ hfree => hs.fresh hvalid hpos fun q hq hpcq => hfree q hq ((hiff q _ (.inl rfl)).mpr hpcq)
  · rw [hin]
    exact fun ip' hne hpos' _ => h.apart hpos hne hpos'
  · rw [hin]
    exact fun q _ => Iff.rfl
  · rw [hrefs]
    exact fun q hq hmem => (List.mem_erase_of_ne (by simpa using hq)).mpr hmem

/-- What a step leaves as it was when it only writes to the entry that its process has the lock of, or
takes the lock of. -/
structure Owns (m m' : Itable) (p : Nat) (ip : Fin ninode) (v : Inode) (w : Pc) : Prop where
  inode : m'.inode = Function.update m.inode ip v
  dev : v.dev = (m.inode ip).dev
  inum : v.inum = (m.inode ip).inum
  ref : v.ref = (m.inode ip).ref
  refs : m'.refs = m.refs
  pc : m'.pc = Function.update m.pc p w
  dirty : ∃ b, m'.dirty = Function.update m.dirty ip b
  disk : ∀ dev inum, ¬ (dev = (m.inode ip).dev ∧ inum = (m.inode ip).inum) → m'.disk dev inum = m.disk dev inum
  mem : (p, ip) ∈ m.refs
  before : ∀ ip', (m.pc p).about = some ip' → ip' = ip
  after : ∀ ip', w.about = some ip' → ip' = ip
  alone : ∀ q, q ≠ p → (m.inode ip).lock ≠ some q
  lock : v.lock = none ∨ v.lock = some p
  locks : w.Locks ip → v.lock = some p
  dropping : w = .dropping ip → v.lock ≠ some p

/-- So there are only two things to show of the entry: what is marked dirty, and what is valid. -/
lemma Inv.owns {v : Inode} {w : Pc} (h : m.Inv) (o : Owns m m' p ip v w)
    (hloaded : v.lock = some p → v.valid = true ∨ w = .loading ip)
    (hclean : v.lock = none ∨ w = .freed ip → m'.dirty ip = false)
    (hfresh : v.valid = true → (v.lock = some p → w ≠ .freed ip) →
      (m'.onDisk ip).type ≠ 0 ∧ v.d.type ≠ 0 ∧ (m'.dirty ip = false → v.d = m'.onDisk ip)) : m'.Inv := by
  have hs := h.sound ip
  have hpos := hs.pos o.mem
  have hin : m'.inode ip = v := by rw [o.inode, Function.update_self]
  have hpc : m'.pc p = w := by rw [o.pc, Function.update_self]
  obtain ⟨b, hdirty⟩ := o.dirty
  have howner : ∀ q, v.lock = some q → q = p := by
    intro q hq
    rcases o.lock with hnone | hsome
    · rw [hnone] at hq
      cases hq
    · rw [hsome] at hq
      exact (Option.some.inj hq).symm
  refine @Inv.of_here m _ ip p h
    (elsewhere_of o.inode (fun ip' hne hpos' => o.disk _ _ (h.apart hpos hne hpos')) (fun _ _ => by rw [o.refs])
      hdirty o.pc o.before o.after)
    ⟨⟨?_, ?_, ?_, ?_, ?_⟩, ?_, ?_, ?_, ?_, ?_⟩
  · unfold outstanding
    rw [hin, o.ref, o.refs, hs.count]
    rfl
  · rw [hin, o.refs]
    exact fun q hq => howner q hq ▸ o.mem
  · rw [hin]
    intro q hq
    obtain rfl := howner q hq
    rw [hpc]
    exact hloaded hq
  · rw [hin]
    intro hq
    refine hclean ?_
    rcases o.lock with hnone | hsome
    · exact .inl hnone
    · exact .inr (hpc ▸ hq p hsome)
  · rw [hin]
    exact fun hvalid _ hfree => hfresh hvalid fun hq => hpc ▸ hfree p hq
  · rw [hin, o.dev, o.inum]
    exact fun ip' hne hpos' _ => h.apart hpos hne hpos'
  · rw [hin]
    exact fun q hq => iff_of_false (fun hlock => hq (howner q hlock)) (o.alone q hq)
  · rw [o.refs]
    exact fun q _ hmem => hmem
  · rw [hpc, hin]
    exact o.locks
  · rw [hpc, hin, o.refs]
    exact fun hw => ⟨o.mem, o.dropping hw⟩

lemma alone_of_some (h : (m.inode ip).lock = some p) (q : Nat) (hq : q ≠ p) : (m.inode ip).lock ≠ some q := by
  rw [h]
  exact fun heq => hq (Option.some.inj heq).symm

end Itable

namespace Itable

lemma idle_locks (hp : m.pc p = .idle) : ¬ (m.pc p).Locks ip := fun hw => by
  rw [hp] at hw
  cases hw.1

lemma idle_ne {w : Pc} (hp : m.pc p = .idle) (hw : w ≠ .idle) : m.pc p ≠ w := by
  rw [hp]
  exact hw.symm

/-- `p` takes the lock, in `ilock` or for the last part of `iput`. -/
lemma Inv.lock {w : Pc} (h : m.Inv) (hp : m.pc p = .idle) (hmem : (p, ip) ∈ m.refs)
    (hfree : (m.inode ip).lock = none)
    (hw : w = .loading ip ∨ w = .last ip ∧ (m.inode ip).valid = true) :
    ((m.setInode ip { m.inode ip with lock := some p }).setPc p w).Inv := by
  have hs := h.sound ip
  have hnone : ∀ q, (m.inode ip).lock ≠ some q := fun q => by
    rw [hfree]
    exact (Option.some_ne_none q).symm
  have hclean := hs.clean fun q hq => absurd hq (hnone q)
  have hdisk : ((m.setInode ip { m.inode ip with lock := some p }).setPc p w).onDisk ip = m.onDisk ip := by
    simp [onDisk, setPc, setInode]
  refine @Inv.owns m _ ip p { m.inode ip with lock := some p } w h
    ⟨rfl, rfl, rfl, rfl, rfl, rfl, ⟨_, (Function.update_eq_self _ _).symm⟩, fun _ _ _ => rfl, hmem, about_idle hp ip,
      ?_, fun q _ => hnone q, .inr rfl, fun _ => rfl, ?_⟩ ?_ (fun _ => hclean) ?_
  · rcases hw with rfl | ⟨rfl, -⟩ <;> exact fun ip' hip' => (Option.some.inj hip').symm
  · rcases hw with rfl | ⟨rfl, -⟩ <;> exact fun heq => Pc.noConfusion heq
  · exact fun _ => hw.symm.imp And.right id
  · intro hvalid _
    rw [hdisk]
    exact hs.fresh hvalid (hs.pos hmem) fun q hq => absurd hq (hnone q)

/-- The holder of the lock changes the fields. -/
lemma Inv.modify {d : Dinode} (h : m.Inv) (hp : m.pc p = .idle) (hlock : (m.inode ip).lock = some p)
    (htype : d.type = (m.inode ip).d.type) :
    Inv { m.setInode ip { m.inode ip with d := d } with dirty := Function.update m.dirty ip true } := by
  have hs := h.sound ip
  have hmem := hs.held p hlock
  refine @Inv.owns m _ ip p { m.inode ip with d := d } (m.pc p) h
    ⟨rfl, rfl, rfl, rfl, rfl, (Function.update_eq_self _ _).symm, ⟨_, rfl⟩, fun _ _ _ => rfl, hmem, about_idle hp ip,
      about_idle hp ip, alone_of_some hlock, .inr hlock, fun hw => absurd hw (idle_locks hp),
      fun hw => absurd hw (idle_ne hp Pc.noConfusion)⟩
    (fun _ => hs.loaded p hlock) (fun hw => ?_) fun hvalid _ => ?_
  · rcases hw with hnone | hfreed
    · rw [show (m.inode ip).lock = none from hnone] at hlock
      cases hlock
    · exact absurd hfreed (idle_ne hp Pc.noConfusion)
  · obtain ⟨hdisk, hd, -⟩ := hs.fresh hvalid (hs.pos hmem) fun q hq hfreed => by
      rw [hlock] at hq
      cases hq
      exact idle_ne hp Pc.noConfusion hfreed
    have hsame : onDisk { m.setInode ip { m.inode ip with d := d } with dirty := Function.update m.dirty ip true } ip =
        m.onDisk ip := by simp [onDisk, setInode]
    refine ⟨by rw [hsame]; exact hdisk, fun heq => hd (htype ▸ heq), fun hclean => ?_⟩
    simp at hclean

/-- The holder of the lock writes the fields to the disk, and goes on to `w`. -/
lemma Inv.write {d : Dinode} {w : Pc} (h : m.Inv) (hlock : (m.inode ip).lock = some p)
    (hbefore : ∀ ip', (m.pc p).about = some ip' → ip' = ip) (hafter : ∀ ip', w.about = some ip' → ip' = ip)
    (hdrop : w ≠ .dropping ip) (hload : (m.inode ip).valid = true ∨ w = .loading ip)
    (htype : w = .freed ip ∨ ((m.inode ip).valid = true → d.type ≠ 0)) :
    (((m.setInode ip { m.inode ip with d := d }).iupdate ip).setPc p w).Inv := by
  have hs := h.sound ip
  generalize hm' : ((m.setInode ip { m.inode ip with d := d }).iupdate ip).setPc p w = m'
  have hdirty : m'.dirty ip = false := by
    rw [← hm']
    simp [setPc, iupdate]
  have hdisk : m'.onDisk ip = d := by
    rw [← hm']
    simp [onDisk, setPc, iupdate, setInode]
  refine @Inv.owns m _ ip p { m.inode ip with d := d } w h
    ⟨?_, rfl, rfl, rfl, ?_, ?_, ⟨false, ?_⟩, ?_, hs.held p hlock, hbefore, hafter, alone_of_some hlock, .inr hlock,
      fun _ => hlock, fun hw => absurd hw hdrop⟩
    (fun _ => hload) (fun _ => hdirty) fun hvalid hfreed => ?_
  · rw [← hm']
    rfl
  · rw [← hm']
    rfl
  · rw [← hm']
    rfl
  · rw [← hm']
    rfl
  · intro dev inum hne
    rw [← hm']
    simp only [setPc, iupdate, setInode, Function.update_self]
    by_cases hdev : dev = (m.inode ip).dev
    · have hinum : inum ≠ (m.inode ip).inum := fun heq => hne ⟨hdev, heq⟩
      rw [hdev, Function.update_self, Function.update_of_ne hinum]
    · rw [Function.update_of_ne hdev]
  · have hd : d.type ≠ 0 := (htype.resolve_left (hfreed hlock)) hvalid
    rw [hdisk]
    exact ⟨hd, hd, fun _ => rfl⟩

/-- The holder of the lock unlocks, or loses the entry, which is marked invalid. -/
lemma Inv.unlock {w : Pc} {valid : Bool} (h : m.Inv) (hlock : (m.inode ip).lock = some p)
    (hbefore : ∀ ip', (m.pc p).about = some ip' → ip' = ip)
    (hw : w = .idle ∧ m.pc p = .idle ∧ m.dirty ip = false ∧ valid = (m.inode ip).valid ∨
      w = .dropping ip ∧ m.pc p = .freed ip ∧ valid = false) :
    ((m.setInode ip { m.inode ip with valid := valid, lock := none }).setPc p w).Inv := by
  have hs := h.sound ip
  have hmem := hs.held p hlock
  have hclean : m.dirty ip = false := by
    rcases hw with ⟨-, -, hclean, -⟩ | ⟨-, hfreed, -⟩
    · exact hclean
    · refine hs.clean fun q hq => ?_
      rw [hlock] at hq
      cases hq
      exact hfreed
  have hdisk : ((m.setInode ip { m.inode ip with valid := valid, lock := none }).setPc p w).onDisk ip = m.onDisk ip := by
    simp [onDisk, setPc, setInode]
  refine @Inv.owns m _ ip p { m.inode ip with valid := valid, lock := none } w h
    ⟨rfl, rfl, rfl, rfl, rfl, rfl, ⟨_, (Function.update_eq_self _ _).symm⟩, fun _ _ _ => rfl, hmem, hbefore, ?_,
      alone_of_some hlock, .inl rfl, ?_, fun _ => (Option.some_ne_none p).symm⟩
    (fun hsome => (by cases hsome)) (fun _ => hclean) fun hvalid _ => ?_
  · rcases hw with ⟨rfl, -⟩ | ⟨rfl, -⟩
    · exact fun _ hip' => (by cases hip')
    · exact fun ip' hip' => (Option.some.inj hip').symm
  · rintro ⟨habout, hne⟩
    rcases hw with ⟨rfl, -⟩ | ⟨rfl, -⟩
    · cases habout
    · exact absurd rfl hne
  · rcases hw with ⟨-, hidle, -, rfl⟩ | ⟨-, -, rfl⟩
    · rw [hdisk]
      refine hs.fresh hvalid (hs.pos hmem) fun q hq hfreed => ?_
      rw [hlock] at hq
      cases hq
      exact idle_ne hidle Pc.noConfusion hfreed
    · cases hvalid

/-- The rest of `ilock`. -/
lemma Inv.load {v : Inode} (h : m.Inv) (hp : m.pc p = .loading ip)
    (hv : v = m.inode ip ∧ (m.inode ip).valid = true ∨
      v = { m.inode ip with d := m.onDisk ip, valid := true } ∧ (m.onDisk ip).type ≠ 0) :
    ((m.setInode ip v).setPc p .idle).Inv := by
  have hs := h.sound ip
  have hlock := h.locks p ip ⟨by rw [hp]; rfl, by rw [hp]; exact Pc.noConfusion⟩
  have hmem := hs.held p hlock
  obtain ⟨hdev, hinum, href, hvlock, hvalid⟩ : v.dev = (m.inode ip).dev ∧ v.inum = (m.inode ip).inum ∧
      v.ref = (m.inode ip).ref ∧ v.lock = some p ∧ v.valid = true := by
    rcases hv with ⟨rfl, hvalid⟩ | ⟨rfl, -⟩
    · exact ⟨rfl, rfl, rfl, hlock, hvalid⟩
    · exact ⟨rfl, rfl, rfl, hlock, rfl⟩
  have hdisk : ((m.setInode ip v).setPc p .idle).onDisk ip = m.onDisk ip := by
    simp [onDisk, setPc, setInode, hdev, hinum]
  refine @Inv.owns m _ ip p v .idle h
    ⟨rfl, hdev, hinum, href, rfl, rfl, ⟨_, (Function.update_eq_self _ _).symm⟩, fun _ _ _ => rfl, hmem, ?_,
      fun _ hip' => (by cases hip'), alone_of_some hlock, .inr hvlock, fun hw => (by cases hw.1), fun hw => (by cases hw)⟩
    (fun _ => .inl hvalid) (fun hw => ?_) fun _ _ => ?_
  · rw [hp]
    exact fun ip' hip' => (Option.some.inj hip').symm
  · rcases hw with hnone | hfreed
    · rw [hvlock] at hnone
      cases hnone
    · cases hfreed
  · rw [hdisk]
    rcases hv with ⟨rfl, hvalid⟩ | ⟨rfl, htype⟩
    · refine hs.fresh hvalid (hs.pos hmem) fun q hq hfreed => ?_
      rw [hlock] at hq
      cases hq
      rw [hp] at hfreed
      cases hfreed
    · exact ⟨htype, htype, fun _ => rfl⟩

/-- An inode that is free on the disk is allocated. -/
lemma Inv.ialloc {dev inum : Nat} (type : Int) (h : m.Inv) (hfree : (m.disk dev inum).type = 0) :
    (m.ialloc dev inum type).Inv := by
  refine ⟨fun ip => ?_, h.unique, h.locks, h.dropping⟩
  have hs := h.sound ip
  refine ⟨hs.count, hs.held, hs.loaded, hs.clean, fun hvalid hpos hfreed => ?_⟩
  have hfresh := hs.fresh hvalid hpos hfreed
  have hsame : (m.ialloc dev inum type).onDisk ip = m.onDisk ip := by
    show Function.update m.disk dev (Function.update (m.disk dev) inum _) (m.inode ip).dev (m.inode ip).inum = _
    by_cases hdev : (m.inode ip).dev = dev
    · have hinum : (m.inode ip).inum ≠ inum := by
        rintro rfl
        subst hdev
        exact hfresh.1 hfree
      rw [hdev, Function.update_self, Function.update_of_ne hinum, ← hdev]
      rfl
    · rw [Function.update_of_ne hdev]
      rfl
  rw [hsame]
  exact hfresh

end Itable

namespace Itable

lemma Inv.locked (h : m.Inv) (hw : (m.pc p).Locks ip) (hp : m.pc p ≠ .loading ip) :
    (m.inode ip).lock = some p ∧ (m.inode ip).valid = true := by
  have hlock := h.locks p ip hw
  exact ⟨hlock, ((h.sound ip).loaded p hlock).resolve_right hp⟩

lemma setPc_idle (hp : m.pc p = .idle) : m.setPc p .idle = m := by
  have hpc : Function.update m.pc p .idle = m.pc := by rw [← hp, Function.update_eq_self]
  show { m with pc := Function.update m.pc p .idle } = m
  rw [hpc]

lemma setInode_eq {v : Inode} (hv : m.inode ip = v) : m.setInode ip v = m := by
  have hinode : Function.update m.inode ip v = m.inode := by rw [← hv, Function.update_eq_self]
  show { m with inode := Function.update m.inode ip v } = m
  rw [hinode]

/-- `iput` does not sleep under `itable.lock`, and begins to free the inode if and only if the
reference is the only one and the inode, valid, has no links on the disk. -/
lemma Inv.iput (h : m.Inv) (hp : m.pc p = .idle) (hspare : m.Spare p ip) :
    ∃ m', m.iput p ip = .ok m' ∧ m'.Inv ∧
      (m'.pc p = .last ip ↔ m.outstanding ip = 1 ∧ (m.inode ip).valid = true ∧ (m.onDisk ip).nlink = 0) := by
  have hs := h.sound ip
  unfold Itable.iput
  by_cases hvalid : (m.inode ip).ref = 1 ∧ (m.inode ip).valid = true
  · have hone : m.outstanding ip = 1 := by
      have hcount := hs.count
      rw [hvalid.1] at hcount
      exact_mod_cast hcount.symm
    have hfree : (m.inode ip).lock = none := by
      cases hlock : (m.inode ip).lock with
      | none => rfl
      | some q =>
        -- Whoever has the lock has the only reference, which cannot be spared.
        have hlen : ((p, ip) :: m.refs.erase (p, ip)).countP (·.2 == ip) = 1 :=
          ((List.perm_cons_erase hspare.1).countP_eq _).symm.trans hone
        rw [List.countP_cons_of_pos (by simp)] at hlen
        have hpos : 0 < (m.refs.erase (p, ip)).countP (·.2 == ip) :=
          List.countP_pos_iff.mpr ⟨(q, ip), hspare.mem_erase hs hlock, beq_self_eq_true ip⟩
        omega
    have hno : ∀ q, (m.inode ip).lock ≠ some q := fun q => by
      rw [hfree]
      exact (Option.some_ne_none q).symm
    have hd : (m.inode ip).d = m.onDisk ip :=
      (hs.fresh hvalid.2 (hs.pos hspare.1) fun q hq => absurd hq (hno q)).2.2
        (hs.clean fun q hq => absurd hq (hno q))
    rw [← hd]
    by_cases hnlink : (m.inode ip).d.nlink = 0
    · rw [if_pos ⟨hvalid.1, hvalid.2, hnlink⟩, if_neg (by simp [hfree])]
      refine ⟨_, rfl, h.lock hp hspare.1 hfree (.inr ⟨rfl, hvalid.2⟩), ?_⟩
      exact iff_of_true (Function.update_self _ _ _) ⟨hone, hvalid.2, hnlink⟩
    · rw [if_neg fun hall => hnlink hall.2.2]
      refine ⟨_, rfl, ?_, iff_of_false (idle_ne hp Pc.noConfusion) fun hall => hnlink hall.2.2⟩
      exact setPc_idle (m := m.drop p ip) hp ▸
        h.drop (about_idle hp ip) (idle_ne hp Pc.noConfusion) (idle_ne hp Pc.noConfusion) hspare
  · rw [if_neg fun hall => hvalid ⟨hall.1, hall.2.1⟩]
    refine ⟨_, rfl, ?_, iff_of_false (idle_ne hp Pc.noConfusion) fun hall => hvalid ⟨?_, hall.2.1⟩⟩
    · exact setPc_idle (m := m.drop p ip) hp ▸
        h.drop (about_idle hp ip) (idle_ne hp Pc.noConfusion) (idle_ne hp Pc.noConfusion) hspare
    · rw [hs.count, hall.1]
      rfl

lemma Inv.run (h : m.Inv) (hok : m.run p = .ok m') : m'.Inv := by
  unfold Itable.run at hok
  cases hp : m.pc p with
  | idle =>
    rw [hp] at hok
    obtain rfl := pure_ok hok
    exact h
  | loading ip =>
    simp only [hp] at hok
    split at hok
    · next hvalid =>
      obtain rfl := pure_ok hok
      exact setInode_eq (m := m) rfl ▸ h.load hp (.inl ⟨rfl, hvalid⟩)
    · split at hok
      · cases hok
      · next htype =>
        obtain rfl := pure_ok hok
        exact h.load hp (.inr ⟨rfl, htype⟩)
  | last ip =>
    simp only [hp] at hok
    obtain rfl := pure_ok hok
    obtain ⟨hlock, hvalid⟩ := @Inv.locked m ip p h ⟨by rw [hp]; rfl, by rw [hp]; exact Pc.noConfusion⟩
      (by rw [hp]; exact Pc.noConfusion)
    have hs := h.sound ip
    refine h.write hlock (by rw [hp]; exact fun ip' hip' => (Option.some.inj hip').symm)
      (fun ip' hip' => (Option.some.inj hip').symm) Pc.noConfusion (.inl hvalid) (.inr fun _ => ?_)
    refine (hs.fresh hvalid (hs.pos (hs.held p hlock)) fun q hq hfreed => ?_).2.1
    rw [hlock] at hq
    cases hq
    rw [hp] at hfreed
    cases hfreed
  | truncated ip =>
    simp only [hp] at hok
    obtain rfl := pure_ok hok
    obtain ⟨hlock, hvalid⟩ := @Inv.locked m ip p h ⟨by rw [hp]; rfl, by rw [hp]; exact Pc.noConfusion⟩
      (by rw [hp]; exact Pc.noConfusion)
    exact h.write hlock (by rw [hp]; exact fun ip' hip' => (Option.some.inj hip').symm)
      (fun ip' hip' => (Option.some.inj hip').symm) Pc.noConfusion (.inl hvalid) (.inl rfl)
  | freed ip =>
    simp only [hp] at hok
    obtain rfl := pure_ok hok
    obtain ⟨hlock, -⟩ := @Inv.locked m ip p h ⟨by rw [hp]; rfl, by rw [hp]; exact Pc.noConfusion⟩
      (by rw [hp]; exact Pc.noConfusion)
    exact h.unlock hlock (by rw [hp]; exact fun ip' hip' => (Option.some.inj hip').symm) (.inr ⟨rfl, hp, rfl⟩)
  | dropping ip =>
    simp only [hp] at hok
    obtain rfl := pure_ok hok
    obtain ⟨hmem, hne⟩ := h.dropping p ip hp
    exact h.drop (by rw [hp]; exact fun ip' hip' => (Option.some.inj hip').symm) (by rw [hp]; exact Pc.noConfusion)
      (by rw [hp]; exact Pc.noConfusion) ⟨hmem, fun hlock => absurd hlock hne⟩

/-- Every step keeps the invariant. -/
lemma Inv.step {a : Act} (h : m.Inv) (hstep : Step m a m') : m'.Inv := by
  obtain ⟨ha, hok⟩ := hstep
  cases a with
  | iget p dev inum => exact h.iget ha hok
  | idup p ip =>
    obtain rfl := pure_ok hok
    exact h.idup ha.1 ((h.sound ip).pos ha.2)
  | hand p q ip =>
    obtain rfl := pure_ok hok
    exact h.hand q ha.1 ha.2
  | ilock p ip =>
    obtain ⟨hp, hmem, hfree⟩ := ha
    have hpos := (h.sound ip).pos hmem
    simp only [exec, Itable.ilock] at hok
    rw [if_neg (by omega), if_neg (by simp [hfree])] at hok
    obtain rfl := pure_ok hok
    exact h.lock hp hmem hfree (.inl rfl)
  | modify p ip d =>
    obtain rfl := pure_ok hok
    exact h.modify ha.1 ha.2.1 ha.2.2
  | iupdate p ip =>
    obtain ⟨hp, hlock⟩ := ha
    obtain rfl := pure_ok hok
    have hs := h.sound ip
    have hvalid := (hs.loaded p hlock).resolve_right (idle_ne hp Pc.noConfusion)
    have hwrite := h.write (d := (m.inode ip).d) (w := .idle) hlock (about_idle hp ip) (fun _ hip' => (by cases hip'))
      Pc.noConfusion (.inl hvalid) (.inr fun _ => ?_)
    · rw [setInode_eq rfl, setPc_idle (m := m.iupdate ip) hp] at hwrite
      exact hwrite
    · refine (hs.fresh hvalid (hs.pos (hs.held p hlock)) fun q hq hfreed => ?_).2.1
      rw [hlock] at hq
      cases hq
      exact idle_ne hp Pc.noConfusion hfreed
  | iunlock p ip =>
    obtain ⟨hp, hlock, hclean⟩ := ha
    have hpos := (h.sound ip).pos ((h.sound ip).held p hlock)
    simp only [exec, Itable.iunlock] at hok
    rw [if_neg (by rintro (hne | hlt); exacts [hne hlock, by omega])] at hok
    obtain rfl := pure_ok hok
    have hunlock := h.unlock (w := .idle) hlock (about_idle hp ip) (.inl ⟨rfl, hp, hclean, rfl⟩)
    rwa [setPc_idle (m := m.setInode ip { m.inode ip with lock := none }) hp] at hunlock
  | iput p ip =>
    obtain ⟨m₁, hm₁, hinv, -⟩ := h.iput ha.1 ha.2
    rw [show m.iput p ip = .ok m' from hok] at hm₁
    cases hm₁
    exact hinv
  | ialloc p dev inum type =>
    obtain rfl := pure_ok hok
    exact h.ialloc type ha.2.1
  | run p => exact h.run hok

lemma inv_initial (disk : Nat → Nat → Dinode) : (initial disk).Inv :=
  ⟨fun _ => ⟨rfl, fun _ hq => (by cases hq), fun _ hq => (by cases hq), fun _ => rfl, fun hvalid => (by cases hvalid)⟩,
    fun _ _ hpos => absurd hpos (lt_irrefl 0), fun _ _ hw => (by cases hw.1), fun _ _ hw => (by cases hw)⟩

end Itable

namespace Itable

lemma disk_write {d : Dinode} (ip : Fin ninode) (dev inum : Nat) :
    ((m.setInode ip { m.inode ip with d := d }).iupdate ip).disk dev inum =
      if dev = (m.inode ip).dev ∧ inum = (m.inode ip).inum then d else m.disk dev inum := by
  simp only [iupdate, setInode, Function.update_self]
  by_cases hdev : dev = (m.inode ip).dev
  · by_cases hinum : inum = (m.inode ip).inum <;> simp [hdev, hinum]
  · simp [hdev]

/-- An entry that is used for another inode had no references. -/
lemma ref_of_recycled {a : Act} (hstep : Step m a m')
    (hne : ¬ ((m'.inode ip).dev = (m.inode ip).dev ∧ (m'.inode ip).inum = (m.inode ip).inum)) :
    (m.inode ip).ref = 0 := by
  have hset : ∀ {i : Fin ninode} {v : Inode} {m₁ : Itable}, m₁.inode = Function.update m.inode i v →
      v.dev = (m.inode i).dev → v.inum = (m.inode i).inum →
      (m₁.inode ip).dev = (m.inode ip).dev ∧ (m₁.inode ip).inum = (m.inode ip).inum := by
    intro i v m₁ hm₁ hdev hinum
    rw [hm₁]
    by_cases hi : ip = i
    · subst hi
      rw [Function.update_self]
      exact ⟨hdev, hinum⟩
    · rw [Function.update_of_ne hi]
      exact ⟨rfl, rfl⟩
  obtain ⟨-, hok⟩ := hstep
  cases a with
  | iget p dev inum =>
    simp only [exec, Itable.iget] at hok
    split at hok
    · obtain rfl := pure_ok hok
      exact (hne (hset rfl rfl rfl)).elim
    · split at hok
      · cases hok
      · next i hempty =>
        obtain rfl := pure_ok hok
        by_cases hi : ip = i
        · subst hi
          simpa using List.find?_some hempty
        · simp [setInode, Function.update_of_ne hi] at hne
  | idup p i =>
    obtain rfl := pure_ok hok
    exact (hne (hset rfl rfl rfl)).elim
  | hand p q i =>
    obtain rfl := pure_ok hok
    exact absurd ⟨rfl, rfl⟩ hne
  | ilock p i =>
    simp only [exec, Itable.ilock] at hok
    split_ifs at hok
    obtain rfl := pure_ok hok
    exact (hne (hset rfl rfl rfl)).elim
  | modify p i d =>
    obtain rfl := pure_ok hok
    exact (hne (hset rfl rfl rfl)).elim
  | iupdate p i =>
    obtain rfl := pure_ok hok
    exact absurd ⟨rfl, rfl⟩ hne
  | iunlock p i =>
    simp only [exec, Itable.iunlock] at hok
    split_ifs at hok
    obtain rfl := pure_ok hok
    exact (hne (hset rfl rfl rfl)).elim
  | iput p i =>
    simp only [exec, Itable.iput] at hok
    split_ifs at hok <;>
    · obtain rfl := pure_ok hok
      exact (hne (hset rfl rfl rfl)).elim
  | ialloc p dev inum type =>
    obtain rfl := pure_ok hok
    exact absurd ⟨rfl, rfl⟩ hne
  | run p =>
    simp only [exec, Itable.run] at hok
    split at hok
    · obtain rfl := pure_ok hok
      exact absurd ⟨rfl, rfl⟩ hne
    · split_ifs at hok
      · obtain rfl := pure_ok hok
        exact absurd ⟨rfl, rfl⟩ hne
      · obtain rfl := pure_ok hok
        exact (hne (hset rfl rfl rfl)).elim
    all_goals
      obtain rfl := pure_ok hok
      exact (hne (hset rfl rfl rfl)).elim

/-- Only the part of `iput` after `itrunc` frees an inode on the disk. -/
lemma Inv.freeing {a : Act} {dev inum : Nat} (h : m.Inv) (hstep : Step m a m') (hbefore : (m.disk dev inum).type ≠ 0)
    (hafter : (m'.disk dev inum).type = 0) :
    ∃ p ip, a = .run p ∧ m.pc p = .truncated ip ∧ (m.inode ip).dev = dev ∧ (m.inode ip).inum = inum := by
  obtain ⟨ha, hok⟩ := hstep
  have hfresh : ∀ p ip, (m.inode ip).lock = some p → m.pc p ≠ .freed ip → m.pc p ≠ .loading ip →
      (m.inode ip).d.type ≠ 0 := by
    intro p ip hlock hfreed hloading
    have hs := h.sound ip
    have hvalid := (hs.loaded p hlock).resolve_right hloading
    refine (hs.fresh hvalid (hs.pos (hs.held p hlock)) fun q hq => ?_).2.1
    rw [hlock] at hq
    cases hq
    exact hfreed
  cases a with
  | iget p d i =>
    simp only [exec, Itable.iget] at hok
    split at hok
    · obtain rfl := pure_ok hok
      exact absurd hafter hbefore
    · split at hok
      · cases hok
      · obtain rfl := pure_ok hok
        exact absurd hafter hbefore
  | idup p i =>
    obtain rfl := pure_ok hok
    exact absurd hafter hbefore
  | hand p q i =>
    obtain rfl := pure_ok hok
    exact absurd hafter hbefore
  | ilock p i =>
    simp only [exec, Itable.ilock] at hok
    split_ifs at hok
    obtain rfl := pure_ok hok
    exact absurd hafter hbefore
  | modify p i d =>
    obtain rfl := pure_ok hok
    exact absurd hafter hbefore
  | iupdate p ip =>
    obtain rfl := pure_ok hok
    have hd := hfresh p ip ha.2 (idle_ne ha.1 Pc.noConfusion) (idle_ne ha.1 Pc.noConfusion)
    have hwrite := disk_write (m := m) (d := (m.inode ip).d) ip dev inum
    rw [setInode_eq rfl] at hwrite
    rw [hwrite] at hafter
    split_ifs at hafter
    · exact absurd hafter hd
    · exact absurd hafter hbefore
  | iunlock p i =>
    simp only [exec, Itable.iunlock] at hok
    split_ifs at hok
    obtain rfl := pure_ok hok
    exact absurd hafter hbefore
  | iput p i =>
    simp only [exec, Itable.iput] at hok
    split_ifs at hok <;>
    · obtain rfl := pure_ok hok
      exact absurd hafter hbefore
  | ialloc p d i type =>
    obtain rfl := pure_ok hok
    change (Function.update m.disk d (Function.update (m.disk d) i (Dinode.zeroed type)) dev inum).type = 0 at hafter
    by_cases hd : dev = d
    · subst hd
      by_cases hi : inum = i
      · subst hi
        exact absurd ha.2.1 hbefore
      · rw [Function.update_self, Function.update_of_ne hi] at hafter
        exact absurd hafter hbefore
    · rw [Function.update_of_ne hd] at hafter
      exact absurd hafter hbefore
  | run p =>
    simp only [exec, Itable.run] at hok
    split at hok
    · obtain rfl := pure_ok hok
      exact absurd hafter hbefore
    · split_ifs at hok <;>
      · obtain rfl := pure_ok hok
        exact absurd hafter hbefore
    · next ip hp =>
      obtain rfl := pure_ok hok
      obtain ⟨hlock, -⟩ := @Inv.locked m ip p h ⟨by rw [hp]; rfl, by rw [hp]; exact Pc.noConfusion⟩
        (by rw [hp]; exact Pc.noConfusion)
      have hd := hfresh p ip hlock (by rw [hp]; exact Pc.noConfusion) (by rw [hp]; exact Pc.noConfusion)
      have hwrite := disk_write (m := m) (d := (m.inode ip).d.trunc) ip dev inum
      simp only [setPc] at hafter
      rw [hwrite] at hafter
      split_ifs at hafter
      · exact absurd hafter hd
      · exact absurd hafter hbefore
    · next ip hp =>
      obtain rfl := pure_ok hok
      have hwrite := disk_write (m := m) (d := { (m.inode ip).d with type := 0 }) ip dev inum
      simp only [setPc] at hafter
      rw [hwrite] at hafter
      split_ifs at hafter with hid
      · exact ⟨p, ip, rfl, hp, hid.1.symm, hid.2.symm⟩
      · exact absurd hafter hbefore
    all_goals
      obtain rfl := pure_ok hok
      exact absurd hafter hbefore

end Itable

/-- For every run of processes that use the inodes they have references to and put each reference
once: no two entries with references are for the same inode; an entry counts the references to it;
only an entry without references is used for another inode; the fields of a valid entry with references
which nobody has locked are those on the disk; `iput` begins to free the inode if and only if it
drops the last reference to a valid entry and the inode has no links; it then truncates the inode and
frees it on the disk, which nothing else does. -/
theorem itable_consistent {disk : Nat → Nat → Dinode} {l : List Act} {m : Itable}
    (h : Steps Itable.Step (.initial disk) l m) :
    (∀ ip ip', 0 < (m.inode ip).ref → 0 < (m.inode ip').ref → (m.inode ip).dev = (m.inode ip').dev →
      (m.inode ip).inum = (m.inode ip').inum → ip = ip') ∧
    (∀ ip, (m.inode ip).ref = m.outstanding ip) ∧
    (∀ a m' ip, m.Step a m' →
      ¬ ((m'.inode ip).dev = (m.inode ip).dev ∧ (m'.inode ip).inum = (m.inode ip).inum) → (m.inode ip).ref = 0) ∧
    (∀ ip, 0 < (m.inode ip).ref → (m.inode ip).valid = true → (m.inode ip).lock = none →
      (m.inode ip).d = m.onDisk ip) ∧
    (∀ p ip, m.Enabled (.iput p ip) → ∃ m', m.exec (.iput p ip) = .ok m' ∧
      (m'.pc p = .last ip ↔ m.outstanding ip = 1 ∧ (m.inode ip).valid = true ∧ (m.onDisk ip).nlink = 0)) ∧
    (∀ p ip, m.pc p = .last ip → ∃ m', m.exec (.run p) = .ok m' ∧ m'.pc p = .truncated ip ∧
      m'.onDisk ip = (m.inode ip).d.trunc) ∧
    (∀ p ip, m.pc p = .truncated ip → ∃ m', m.exec (.run p) = .ok m' ∧ m'.pc p = .freed ip ∧
      (m'.onDisk ip).type = 0) ∧
    ∀ a m' dev inum, m.Step a m' → (m.disk dev inum).type ≠ 0 → (m'.disk dev inum).type = 0 →
      ∃ p ip, a = .run p ∧ m.pc p = .truncated ip ∧ (m.inode ip).dev = dev ∧ (m.inode ip).inum = inum := by
  have hinv : m.Inv := Steps.invariant (I := Itable.Inv) h (Itable.inv_initial disk) fun _ _ _ hs hstep => hs.step hstep
  refine ⟨hinv.unique, fun ip => (hinv.sound ip).count, fun a m' ip => Itable.ref_of_recycled, fun ip hpos hvalid hlock => ?_,
    fun p ip ha => ?_, fun p ip hp => ?_, fun p ip hp => ?_, fun a m' dev inum => hinv.freeing⟩
  · have hnone : ∀ q, (m.inode ip).lock ≠ some q := fun q => by
      rw [hlock]
      exact (Option.some_ne_none q).symm
    exact ((hinv.sound ip).fresh hvalid hpos fun q hq => absurd hq (hnone q)).2.2
      ((hinv.sound ip).clean fun q hq => absurd hq (hnone q))
  · obtain ⟨m', hm', -, hiff⟩ := hinv.iput ha.1 ha.2
    exact ⟨m', hm', hiff⟩
  · refine ⟨_, by simp only [Itable.exec, Itable.run, hp]; rfl, Function.update_self _ _ _, ?_⟩
    simp [Itable.onDisk, Itable.setPc, Itable.iupdate, Itable.setInode]
  · refine ⟨_, by simp only [Itable.exec, Itable.run, hp]; rfl, Function.update_self _ _ _, ?_⟩
    simp [Itable.onDisk, Itable.setPc, Itable.iupdate, Itable.setInode]

end

/-- A step, computed. -/
def Itable.next (m : Itable) (a : Act) : Option Itable := if m.Enabled a then (m.exec a).toOption else none

lemma step_of_next {m m' : Itable} {a : Act} (h : m.next a = some m') : m.Step a m' := by
  unfold Itable.next at h
  split at h
  · next ha =>
    refine ⟨ha, ?_⟩
    cases hexec : m.exec a with
    | error e => simp [hexec, Except.toOption] at h
    | ok m₁ =>
      obtain rfl : m₁ = m' := by simpa [hexec, Except.toOption] using h
      rfl
  · cases h

lemma exists_run {m : Itable} {l : List Act} {P : Itable → Bool} (h : (l.foldlM Itable.next m).any P = true) :
    ∃ m', Steps Itable.Step m l m' ∧ P m' = true := by
  obtain ⟨m', hm', hP⟩ := (Option.any_eq_true _ _).mp h
  exact ⟨m', Steps.of_foldlM (fun _ _ _ => step_of_next) hm', hP⟩

instance : NeZero ninode := ⟨by decide⟩

/-- A disk whose inode 5 has no links. -/
def oneUnlinked (_ inum : Nat) : Dinode := ⟨2, 0, 0, if inum = 5 then 0 else 1, 0, []⟩

/-- A process looks at inode 5 and drops it. -/
def unlinkedRead : List Act := [.iget 1 1 5, .ilock 1 0, .run 1, .iunlock 1 0]

theorem itable_consistent_unlinked :
    ∃ m m', Steps Itable.Step (.initial oneUnlinked) unlinkedRead m ∧ (m.inode 0).ref = m.outstanding 0 ∧
      m.exec (.iput 1 0) = .ok m' ∧ m'.pc 1 = .last 0 := by
  obtain ⟨m, hrun, hm⟩ := exists_run (m := .initial oneUnlinked) (l := unlinkedRead)
    (P := fun m => decide (m.Enabled (.iput 1 0)) && decide (m.outstanding 0 = 1) && (m.inode 0).valid &&
      decide ((m.onDisk 0).nlink = 0)) (by decide)
  simp only [Bool.and_eq_true, decide_eq_true_eq] at hm
  obtain ⟨-, hcount, -, -, hiput, -⟩ := itable_consistent hrun
  obtain ⟨m', hm', hiff⟩ := hiput 1 0 hm.1.1.1
  exact ⟨m, m', hrun, hcount 0, hm', hiff.mpr ⟨hm.1.1.2, hm.1.2, hm.2⟩⟩

/-- Two inodes are used and dropped; then the second is used and changed in the entry of the first. -/
def staleEntry : List Act :=
  [.iget 1 1 6, .iget 2 1 7, .ilock 2 1, .run 2, .iunlock 2 1, .iput 1 0, .iput 2 1, .iget 1 1 7, .ilock 1 0, .run 1,
    .modify 1 0 ⟨2, 0, 0, 2, 0, []⟩, .iupdate 1 0, .iunlock 1 0]

/-- A valid entry which nobody has locked may differ from the disk, when it has no references; and the
last reference to an inode without links may go without the inode being freed, when it has not been read. -/
theorem itable_stale :
    (∃ m, Steps Itable.Step (.initial oneUnlinked) staleEntry m ∧ (m.inode 1).valid = true ∧
      (m.inode 1).lock = none ∧ (m.inode 1).d ≠ m.onDisk 1) ∧
    ∃ m m', Steps Itable.Step (.initial oneUnlinked) [.iget 1 1 5] m ∧ m.outstanding 0 = 1 ∧
      (m.onDisk 0).type ≠ 0 ∧ (m.onDisk 0).nlink = 0 ∧ m.Step (.iput 1 0) m' ∧ m'.pc 1 = .idle ∧
      m'.outstanding 0 = 0 ∧ (m'.onDisk 0).type ≠ 0 := by
  constructor
  · obtain ⟨m, hrun, hm⟩ := exists_run (m := .initial oneUnlinked) (l := staleEntry)
      (P := fun m => (m.inode 1).valid && decide ((m.inode 1).lock = none) && decide ((m.inode 1).d ≠ m.onDisk 1))
      (by decide)
    simp only [Bool.and_eq_true, decide_eq_true_eq] at hm
    exact ⟨m, hrun, hm.1.1, hm.1.2, hm.2⟩
  · obtain ⟨m, hrun, hm⟩ := exists_run (m := .initial oneUnlinked) (l := [.iget 1 1 5])
      (P := fun m => decide (m.outstanding 0 = 1) && decide ((m.onDisk 0).type ≠ 0) && decide ((m.onDisk 0).nlink = 0) &&
        (m.next (.iput 1 0)).any fun m' : Itable => decide (m'.pc 1 = .idle) && decide (m'.outstanding 0 = 0) &&
          decide ((m'.onDisk 0).type ≠ 0))
      (by decide)
    simp only [Bool.and_eq_true, decide_eq_true_eq, Option.any_eq_true] at hm
    obtain ⟨⟨⟨hone, htype⟩, hnlink⟩, m', hm', ⟨hidle, hzero⟩, htype'⟩ := hm
    exact ⟨m, m', hrun, hone, htype, hnlink, step_of_next hm', hidle, hzero, htype'⟩

end FogOS.Kernel.Inodes
