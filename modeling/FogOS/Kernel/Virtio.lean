import FogOS.Lib.Fifo
import FogOS.Lib.Steps
import FogOS.Kernel.Basic
import FogOS.Kernel.Fs

/-!
# The disk driver

`kernel/virtio_disk.c`. A process that is in `virtio_disk_rw` holds `vdisk_lock` except while it
sleeps, so what it does in between is one step, and so is a round of the loop of
`virtio_disk_intr`. The device is another party: it takes the heads of chains from the ring
`avail` and puts them into the ring `used`, in an order of its own.
-/

namespace FogOS.Kernel.Virtio

open Fifo

/-- `NUM`. -/
def num : Nat := 8

/-- Wrap-around of `uint16`. -/
def u16 (n : Nat) : Nat := n % 2 ^ 16

/-- `VRING_DESC_F_NEXT`. -/
def descFNext : Nat := 1

/-- `VRING_DESC_F_WRITE`. -/
def descFWrite : Nat := 2

/-- The addresses that a descriptor can hold: none, `&disk.ops[i]`, `b->data` and
`&disk.info[i].status`. -/
inductive Addr
  | null
  | ops (i : Nat)
  | data (b : Nat)
  | status (i : Nat)
  deriving DecidableEq

/-- `struct virtq_desc`. -/
structure Desc where
  addr : Addr
  len : Nat
  flags : Nat
  next : Nat
  deriving DecidableEq

/-- `struct virtio_blk_req`. -/
structure BlkReq where
  type : Nat
  reserved : Nat
  sector : Nat
  deriving DecidableEq

/-- An entry of `disk.info`. -/
structure Info where
  b : Option Nat
  status : UInt8

/-- `struct virtq_avail` and `struct virtq_used`, less what nobody reads. -/
structure Vring where
  idx : Nat
  ring : Nat → Nat

/-- `struct disk`. -/
structure Disk where
  desc : Nat → Desc
  avail : Vring
  used : Vring
  free : Nat → Bool
  usedIdx : Nat
  info : Nat → Info
  ops : Nat → BlkReq

/-- The panics of the driver, and an access to memory that is not its own. -/
inductive Fault
  | freeDesc1
  | freeDesc2
  | intrStatus
  | wild
  deriving DecidableEq

/-- The arguments of a call of `virtio_disk_rw`: the buffer, its `blockno`, and `write`. -/
structure Call where
  b : Nat
  blockno : Nat
  write : Bool
  deriving DecidableEq

/-- `b->blockno * (BSIZE / 512)`, which is an `uint` before it is an `uint64`. -/
def Call.sector (c : Call) : Nat := u32 (c.blockno * (bsize / 512))

namespace Disk

/-- `alloc_desc`. -/
def allocDesc (d : Disk) : Option (Nat × Disk) :=
  ((List.range num).find? d.free).map fun i => (i, { d with free := Function.update d.free i false })

/-- `free_desc`. -/
def freeDesc (d : Disk) (i : Nat) : Except Fault Disk :=
  if num ≤ i then .error .freeDesc1
  else if d.free i then .error .freeDesc2
  else .ok { d with
    desc := Function.update d.desc i ⟨.null, 0, 0, 0⟩
    free := Function.update d.free i true }

/-- The loop of `free_chain`. No chain has more than `NUM` descriptors that are not free. -/
def freeChainLoop : Nat → Disk → Nat → Except Fault Disk
  | 0, _, _ => .error .freeDesc2
  | fuel + 1, d, i => do
    let flag := (d.desc i).flags
    let nxt := (d.desc i).next
    let d ← d.freeDesc i
    if flag &&& descFNext ≠ 0 then freeChainLoop fuel d nxt else return d

/-- `free_chain`. -/
def freeChain (d : Disk) (i : Nat) : Except Fault Disk := freeChainLoop (num + 1) d i

/-- `alloc3_desc`. -/
def alloc3Desc (d : Disk) : Except Fault (Option (Nat × Nat × Nat) × Disk) :=
  match d.allocDesc with
  | none => return (none, d)
  | some (i0, d) =>
    match d.allocDesc with
    | none => do
      let d ← d.freeDesc i0
      return (none, d)
    | some (i1, d) =>
      match d.allocDesc with
      | none => do
        let d ← d.freeDesc i0
        let d ← d.freeDesc i1
        return (none, d)
      | some (i2, d) => return (some (i0, i1, i2), d)

/-- What `virtio_disk_rw` writes into the three descriptors, and `disk.info[idx[0]].b = b`. -/
def format (d : Disk) (c : Call) (i0 i1 i2 : Nat) : Disk :=
  { d with
    ops := Function.update d.ops i0 ⟨if c.write then 1 else 0, 0, c.sector⟩
    desc := Function.update (Function.update (Function.update d.desc
      i0 ⟨.ops i0, 16, descFNext, i1⟩)
      i1 ⟨.data c.b, bsize, (if c.write then 0 else descFWrite) ||| descFNext, i2⟩)
      i2 ⟨.status i0, 1, descFWrite, 0⟩
    info := Function.update d.info i0 ⟨some c.b, 0xff⟩ }

/-- The head of a chain is put into the ring of the device. -/
def publish (d : Disk) (i0 : Nat) : Disk :=
  { d with avail :=
    { idx := u16 (d.avail.idx + 1), ring := Function.update d.avail.ring (d.avail.idx % num) i0 } }

/-- The end of `virtio_disk_rw`. -/
def finish (d : Disk) (i0 : Nat) : Except Fault Disk :=
  freeChain { d with info := Function.update d.info i0 { d.info i0 with b := none } } i0

/-- The address of the last descriptor of the chain with that head, as the device finds it. -/
def statusAddr (d : Disk) (h : Nat) : Addr := (d.desc (d.desc (d.desc h).next).next).addr

/-- The device completes the chain with that head: it writes the status 0 and a used entry. -/
def complete (d : Disk) (h : Nat) : Except Fault Disk :=
  match d.statusAddr h with
  | .status i => .ok { d with
      info := Function.update d.info i { d.info i with status := 0 }
      used :=
        { idx := u16 (d.used.idx + 1), ring := Function.update d.used.ring (d.used.idx % num) h } }
  | _ => .error .wild

/-- A round of the loop of `virtio_disk_intr`: the buffer that the disk is done with. -/
def intr (d : Disk) : Except Fault (Nat × Disk) :=
  let id := d.used.ring (d.usedIdx % num)
  if num ≤ id then .error .wild
  else if (d.info id).status ≠ 0 then .error .intrStatus
  else match (d.info id).b with
    | none => .error .wild
    | some b => .ok (b, { d with usedIdx := u16 (d.usedIdx + 1) })

end Disk

/-- A request that has been published: its call, its three descriptors, and how many requests were
published before it. -/
structure Req where
  call : Call
  i0 : Nat
  i1 : Nat
  i2 : Nat
  n : Nat
  deriving DecidableEq

/-- `idx` of the call. -/
def Req.idx (r : Req) : List Nat := [r.i0, r.i1, r.i2]

/-- Where a process is: not in `virtio_disk_rw`, asleep on `&disk.free[0]`, or asleep on the buffer. -/
inductive Pc
  | out
  | waiting (c : Call)
  | submitted (r : Req)
  deriving DecidableEq

/-- The call that a process is in. -/
def Pc.call : Pc → Option Call
  | .out => none
  | .waiting c => some c
  | .submitted r => some r.call

/-- The driver, the device, the processes and the buffers: `lock b` is the holder of `b->lock` and
`busy b` is `b->disk`. The device has taken the first `taken` requests, and works on those in
`inflight`. -/
structure Machine where
  disk : Disk
  lock : Nat → Option Nat
  busy : Nat → Bool
  pc : Nat → Pc
  published : Nat
  lastAvail : Nat
  taken : Nat
  inflight : List (Nat × Nat)

/-- What can happen next. A completion names the number of the request and the head of the chain. -/
inductive Act
  | acquiresleep (p b : Nat)
  | releasesleep (p b : Nat)
  | call (p : Nat) (c : Call)
  | wake (p : Nat)
  | take
  | complete (n h : Nat)
  | intr
  deriving DecidableEq

namespace Machine

/-- The first part of `virtio_disk_rw`, until the process sleeps. -/
def rw (m : Machine) (p : Nat) (c : Call) : Except Fault Machine := do
  match ← m.disk.alloc3Desc with
  | (none, d) => return { m with disk := d, pc := Function.update m.pc p (.waiting c) }
  | (some (i0, i1, i2), d) => return { m with
      disk := (d.format c i0 i1 i2).publish i0
      busy := Function.update m.busy c.b true
      pc := Function.update m.pc p (.submitted ⟨c, i0, i1, i2, m.published⟩)
      published := m.published + 1 }

/-- A process that sleeps in `virtio_disk_rw` is woken, perhaps for nothing. -/
def wake (m : Machine) (p : Nat) : Except Fault Machine :=
  match m.pc p with
  | .out => return m
  | .waiting c => m.rw p c
  | .submitted r =>
    if m.busy r.call.b then return m
    else do
      let d ← m.disk.finish r.i0
      return { m with disk := d, pc := Function.update m.pc p .out }

/-- The device takes the next request from the ring `avail`. -/
def take (m : Machine) : Machine :=
  { m with
    lastAvail := u16 (m.lastAvail + 1)
    taken := m.taken + 1
    inflight := m.inflight ++ [(m.taken, m.disk.avail.ring (m.lastAvail % num))] }

/-- What happens in a step. -/
def exec (m : Machine) : Act → Except Fault Machine
  | .acquiresleep p b => return { m with lock := Function.update m.lock b (some p) }
  | .releasesleep _ b => return { m with lock := Function.update m.lock b none }
  | .call p c => m.rw p c
  | .wake p => m.wake p
  | .take => return m.take
  | .complete n h => do
    let d ← m.disk.complete h
    return { m with disk := d, inflight := m.inflight.erase (n, h) }
  | .intr => do
    let (b, d) ← m.disk.intr
    return { m with disk := d, busy := Function.update m.busy b false }

/-- When a step can be taken. Who calls `virtio_disk_rw` holds the lock of the buffer, as `bread`
and `bwrite` see to, and keeps it until the call returns. -/
def Enabled (m : Machine) : Act → Prop
  | .acquiresleep p b => m.pc p = .out ∧ m.lock b = none
  | .releasesleep p b => m.pc p = .out ∧ m.lock b = some p
  | .call p c => m.pc p = .out ∧ m.lock c.b = some p
  | .wake p => m.pc p ≠ .out
  | .take => m.lastAvail ≠ m.disk.avail.idx
  | .complete n h => (n, h) ∈ m.inflight
  | .intr => m.disk.usedIdx ≠ m.disk.used.idx

instance (m : Machine) : DecidablePred m.Enabled
  | .acquiresleep p b => inferInstanceAs (Decidable (m.pc p = .out ∧ m.lock b = none))
  | .releasesleep p b => inferInstanceAs (Decidable (m.pc p = .out ∧ m.lock b = some p))
  | .call p c => inferInstanceAs (Decidable (m.pc p = .out ∧ m.lock c.b = some p))
  | .wake p => inferInstanceAs (Decidable (m.pc p ≠ .out))
  | .take => inferInstanceAs (Decidable (m.lastAvail ≠ m.disk.avail.idx))
  | .complete n h => inferInstanceAs (Decidable ((n, h) ∈ m.inflight))
  | .intr => inferInstanceAs (Decidable (m.disk.usedIdx ≠ m.disk.used.idx))

/-- The state after `virtio_disk_init`, for any contents of the memory of the driver. -/
def initial (info : Nat → Info) (ops : Nat → BlkReq) (busy : Nat → Bool) : Machine where
  disk :=
    { desc := fun _ => ⟨.null, 0, 0, 0⟩
      avail := ⟨0, fun _ => 0⟩
      used := ⟨0, fun _ => 0⟩
      free := fun i => decide (i < num)
      usedIdx := 0
      info := info
      ops := ops }
  lock := fun _ => none
  busy := busy
  pc := fun _ => .out
  published := 0
  lastAvail := 0
  taken := 0
  inflight := []

/-- A step of the system that does not end in a fault. -/
def Step (m : Machine) (a : Act) (m' : Machine) : Prop := m.Enabled a ∧ m.exec a = .ok m'

end Machine

/-! ### Descriptors -/

namespace Disk

variable {d d' : Disk} {i : Nat} {r : Req}

/-- A descriptor is not free any more. -/
def mark (d : Disk) (i : Nat) : Disk := { d with free := Function.update d.free i false }

/-- A descriptor is cleared and free again. -/
def clear (d : Disk) (i : Nat) : Disk :=
  { d with desc := Function.update d.desc i ⟨.null, 0, 0, 0⟩, free := Function.update d.free i true }

lemma allocDesc_some (h : d.allocDesc = some (i, d')) : i < num ∧ d.free i = true ∧ d' = d.mark i := by
  unfold allocDesc at h
  cases hfind : (List.range num).find? d.free with
  | none => simp [hfind] at h
  | some j =>
    obtain ⟨rfl, rfl⟩ : j = i ∧ d.mark j = d' := by simpa [hfind, mark] using h
    have hmem := List.mem_of_find?_eq_some hfind
    exact ⟨List.mem_range.mp hmem, List.find?_some hfind, rfl⟩

lemma freeDesc_ok (hi : i < num) (hfree : d.free i = false) : d.freeDesc i = .ok (d.clear i) := by
  unfold freeDesc clear
  rw [if_neg (by omega), if_neg (by simp [hfree])]

/-- What `alloc3_desc` does: it clears some free descriptors, or takes three. -/
inductive Alloc3 (d : Disk) : Option (Nat × Nat × Nat) → Disk → Prop
  | none {desc : Nat → Desc} (h : ∀ i, d.free i = false → desc i = d.desc i) :
      Alloc3 d none { d with desc := desc }
  | some {i0 i1 i2 : Nat} (hnodup : [i0, i1, i2].Nodup)
      (h : ∀ i ∈ [i0, i1, i2], i < num ∧ d.free i = true) :
      Alloc3 d (some (i0, i1, i2)) (((d.mark i0).mark i1).mark i2)

/-- Descriptors that were free before are free after the rollback. -/
lemma alloc3_of_clear (hfree : d'.free = d.free) (hdesc : ∀ i, d.free i = false → d'.desc i = d.desc i)
    (h : d' = { d with desc := d'.desc, free := d'.free }) : Alloc3 d none d' := by
  rw [h, hfree]
  exact .none hdesc

lemma alloc3Desc_ok (d : Disk) : ∃ idx d', d.alloc3Desc = .ok (idx, d') ∧ Alloc3 d idx d' := by
  unfold alloc3Desc
  cases h0 : d.allocDesc with
  | none => exact ⟨none, d, rfl, .none fun i _ => rfl⟩
  | some e0 =>
    obtain ⟨i0, d0⟩ := e0
    obtain ⟨hlt0, hfree0, rfl⟩ := allocDesc_some h0
    cases h1 : (d.mark i0).allocDesc with
    | none =>
      have hroll : (d.mark i0).freeDesc i0 = .ok ((d.mark i0).clear i0) := freeDesc_ok hlt0 (by simp [mark])
      refine ⟨none, (d.mark i0).clear i0, by simp only [h1, hroll]; rfl, alloc3_of_clear ?_ (fun i hi => ?_) rfl⟩
      · simp [mark, clear, ← hfree0]
      · have hne : i ≠ i0 := fun heq => by simp [heq, hfree0] at hi
        simp [mark, clear, hne]
    | some e1 =>
      obtain ⟨i1, d1⟩ := e1
      obtain ⟨hlt1, hfree1, rfl⟩ := allocDesc_some h1
      have hne1 : i1 ≠ i0 := fun heq => by simp [heq, mark] at hfree1
      replace hfree1 : d.free i1 = true := by simpa [mark, hne1] using hfree1
      cases h2 : ((d.mark i0).mark i1).allocDesc with
      | none =>
        have hroll0 := freeDesc_ok (d := (d.mark i0).mark i1) hlt0 (by simp [mark, hne1.symm])
        have hroll1 := freeDesc_ok (d := ((d.mark i0).mark i1).clear i0) hlt1 (by simp [mark, clear, hne1])
        refine ⟨none, (((d.mark i0).mark i1).clear i0).clear i1, by simp only [h1, h2, hroll0, ok_bind, hroll1]; rfl,
          alloc3_of_clear ?_ (fun i hi => ?_) rfl⟩
        · funext j
          by_cases hj1 : j = i1
          · simp [clear, hj1, hfree1]
          · by_cases hj0 : j = i0 <;> simp [mark, clear, hj0, hj1, hne1.symm, hfree0]
        · have hi0 : i ≠ i0 := fun heq => by simp [heq, hfree0] at hi
          have hi1 : i ≠ i1 := fun heq => by simp [heq, hfree1] at hi
          simp [mark, clear, hi0, hi1]
      | some e2 =>
        obtain ⟨i2, d2⟩ := e2
        obtain ⟨hlt2, hfree2, rfl⟩ := allocDesc_some h2
        have hne2 : i2 ≠ i1 := fun heq => by simp [heq, mark] at hfree2
        have hne2' : i2 ≠ i0 := fun heq => by simp [heq, mark, hne1.symm] at hfree2
        replace hfree2 : d.free i2 = true := by simpa [mark, hne2, hne2'] using hfree2
        refine ⟨some (i0, i1, i2), _, by simp only [h1, h2]; rfl, .some ?_ ?_⟩
        · simp [hne1.symm, hne2.symm, hne2'.symm]
        · simp [hlt0, hlt1, hlt2, hfree0, hfree1, hfree2]

/-- The three descriptors of a published request are its own, and say what it asks for. -/
structure Described (d : Disk) (r : Req) : Prop where
  distinct : r.idx.Nodup
  lt : ∀ i ∈ r.idx, i < num
  taken : ∀ i ∈ r.idx, d.free i = false
  head : d.desc r.i0 = ⟨.ops r.i0, 16, descFNext, r.i1⟩
  ops : d.ops r.i0 = ⟨if r.call.write then 1 else 0, 0, r.call.sector⟩
  data : d.desc r.i1 = ⟨.data r.call.b, bsize, (if r.call.write then 0 else descFWrite) ||| descFNext, r.i2⟩
  status : d.desc r.i2 = ⟨.status r.i0, 1, descFWrite, 0⟩
  info : (d.info r.i0).b = some r.call.b

namespace Described

lemma congr (h : d.Described r) (hfree : ∀ i ∈ r.idx, d'.free i = d.free i)
    (hdesc : ∀ i ∈ r.idx, d'.desc i = d.desc i) (hops : d'.ops r.i0 = d.ops r.i0)
    (hinfo : (d'.info r.i0).b = (d.info r.i0).b) : d'.Described r where
  distinct := h.distinct
  lt := h.lt
  taken i hi := (hfree i hi).trans (h.taken i hi)
  head := (hdesc _ (by simp [Req.idx])).trans h.head
  ops := hops.trans h.ops
  data := (hdesc _ (by simp [Req.idx])).trans h.data
  status := (hdesc _ (by simp [Req.idx])).trans h.status
  info := hinfo.trans h.info

lemma ne (h : d.Described r) : r.i0 ≠ r.i1 ∧ r.i0 ≠ r.i2 ∧ r.i1 ≠ r.i2 := by
  have hd := h.distinct
  simp only [Req.idx, List.nodup_cons, List.mem_cons, List.not_mem_nil, or_false, not_or] at hd
  exact ⟨hd.1.1, hd.1.2, hd.2.1⟩

/-- The chain of the request is freed, and nothing else is. -/
lemma freeChain (h : d.Described r) (hdesc : d'.desc = d.desc) (hfree : d'.free = d.free) :
    d'.freeChain r.i0 = .ok (((d'.clear r.i0).clear r.i1).clear r.i2) := by
  obtain ⟨h01, h02, h12⟩ := h.ne
  have hlt := h.lt
  have htaken := h.taken
  simp only [Req.idx, List.forall_mem_cons, ← hfree] at hlt htaken
  have hhead := h.head
  have hdata := h.data
  have hstatus := h.status
  rw [← hdesc] at hhead hdata hstatus
  have hfree0 := freeDesc_ok hlt.1 htaken.1
  have hfree1 := freeDesc_ok (d := d'.clear r.i0) hlt.2.1 (by simp [clear, h01.symm, htaken.2.1])
  have hfree2 := freeDesc_ok (d := (d'.clear r.i0).clear r.i1) hlt.2.2.1
    (by simp [clear, h02.symm, h12.symm, htaken.2.2.1])
  have hdesc1 : (d'.clear r.i0).desc r.i1 = d'.desc r.i1 := by simp [clear, h01.symm]
  have hdesc2 : ((d'.clear r.i0).clear r.i1).desc r.i2 = d'.desc r.i2 := by simp [clear, h02.symm, h12.symm]
  have hflag : ((if r.call.write then 0 else descFWrite) ||| descFNext) &&& descFNext ≠ 0 := by
    cases r.call.write <;> decide
  have hflag0 : descFNext &&& descFNext ≠ 0 := by decide
  have hflag2 : ¬ (descFWrite &&& descFNext ≠ 0) := by decide
  show freeChainLoop 9 d' r.i0 = _
  rw [freeChainLoop, hfree0, hhead, ok_bind, if_pos hflag0]
  rw [freeChainLoop, hfree1, hdesc1, hdata, ok_bind, if_pos hflag]
  rw [freeChainLoop, hfree2, hdesc2, hstatus, ok_bind, if_neg hflag2]
  rfl

lemma statusAddr (h : d.Described r) : d.statusAddr r.i0 = .status r.i0 := by
  unfold Disk.statusAddr
  rw [h.head, h.data, h.status]

end Described

end Disk

/-! ### The invariant -/

section

variable {m₀ m m' : Machine} {d : Disk} {pc : Nat → Pc} {l : List Act} {p : Nat} {c : Call} {r : Req}

/-- Every descriptor that is not free belongs to the chain of one request. -/
structure Chains (d : Disk) (pc : Nat → Pc) : Prop where
  described : ∀ p r, pc p = .submitted r → d.Described r
  disjoint : ∀ p p' r r' i, pc p = .submitted r → pc p' = .submitted r' → i ∈ r.idx → i ∈ r'.idx → p = p'
  owned : ∀ i < num, d.free i = false → ∃ p r, pc p = .submitted r ∧ i ∈ r.idx

/-- A descriptor is free if and only if it is in no chain. -/
lemma Chains.free_iff (h : Chains d pc) {i : Nat} (hi : i < num) :
    d.free i = true ↔ ∀ p r, pc p = .submitted r → i ∉ r.idx := by
  constructor
  · intro hfree p r hp hmem
    rw [(h.described p r hp).taken i hmem] at hfree
    cases hfree
  · intro hnone
    by_contra hfree
    obtain ⟨p, r, hp, hmem⟩ := h.owned i hi (by simpa using hfree)
    exact hnone p r hp hmem

/-- A chain belongs to the only process that has a descriptor of it. -/
lemma Chains.unique {p' : Nat} {r' : Req} (h : Chains d pc) (hp : pc p = .submitted r)
    (hp' : pc p' = .submitted r') (h0 : r.i0 = r'.i0) : p = p' ∧ r = r' := by
  have heq := h.disjoint p p' r r' r.i0 hp hp' (by simp [Req.idx]) (by simp [Req.idx, h0])
  subst heq
  rw [hp] at hp'
  cases hp'
  exact ⟨rfl, rfl⟩

/-- The request `e` is that of a process which waits for the disk. -/
def Machine.Awaits (m : Machine) (e : Nat × Nat) : Prop :=
  ∃ p r, m.pc p = .submitted r ∧ (r.n, r.i0) = e ∧ m.busy r.call.b = true

/-- The requests that the device has not taken are `pend`, and those that the driver has not seen in
the ring `used` are `done`, of which the first is number `R` that the device completed. -/
structure Queues (m : Machine) (pend done : List (Nat × Nat)) (R : Nat) : Prop where
  avail : Window num (2 ^ 16) m.disk.avail.ring m.lastAvail m.disk.avail.idx m.taken (pend.map Prod.snd)
  used : Window num (2 ^ 16) m.disk.used.ring m.disk.usedIdx m.disk.used.idx R (done.map Prod.snd)
  numbers : pend.map Prod.fst = List.range' m.taken pend.length
  count : m.taken + pend.length = m.published
  nodup : (pend ++ m.inflight ++ done).Nodup
  awaits : ∀ e ∈ pend ++ m.inflight ++ done, m.Awaits e
  status : ∀ e ∈ done, (m.disk.info e.2).status = 0

/-- At some time in the run the device completed the request `r`, which the process was waiting for. -/
def Completed (m₀ : Machine) (l : List Act) (p : Nat) (r : Req) : Prop :=
  ∃ l₁ l₂ m₁, l = l₁ ++ .complete r.n r.i0 :: l₂ ∧ Steps Machine.Step m₀ l₁ m₁ ∧ m₁.pc p = .submitted r

lemma Completed.snoc (h : Completed m₀ l p r) (a : Act) : Completed m₀ (l ++ [a]) p r := by
  obtain ⟨l₁, l₂, m₁, rfl, hrun, hp⟩ := h
  exact ⟨l₁, l₂ ++ [a], m₁, by simp, hrun, hp⟩

/-- What holds of every state of a run. -/
structure Inv (m₀ : Machine) (l : List Act) (m : Machine) : Prop where
  chains : Chains m.disk m.pc
  locked : ∀ p c, (m.pc p).call = some c → m.lock c.b = some p
  completed : ∀ p r, m.pc p = .submitted r → m.busy r.call.b = false → Completed m₀ l p r
  queues : ∃ pend done R, Queues m pend done R ∧
    ∀ p r, m.pc p = .submitted r → (r.n, r.i0) ∈ done → Completed m₀ l p r

/-- Two processes in `virtio_disk_rw` have different buffers. -/
lemma Inv.buf_ne {p' : Nat} {c' : Call} (h : Inv m₀ l m) (hp : (m.pc p).call = some c)
    (hp' : (m.pc p').call = some c') (hne : p ≠ p') : c.b ≠ c'.b := by
  intro heq
  have hlock := h.locked p c hp
  rw [heq, h.locked p' c' hp'] at hlock
  exact hne (Option.some.inj hlock).symm

/-- The heads of requests that are awaited are descriptors of different chains. -/
lemma heads_nodup {es : List (Nat × Nat)} (h : Chains m.disk m.pc) (hes : es.Nodup) (hall : ∀ e ∈ es, m.Awaits e) :
    (es.map Prod.snd).Nodup := by
  refine hes.map_on fun e he e' he' hsnd => ?_
  obtain ⟨p, r, hp, rfl, -⟩ := hall e he
  obtain ⟨p', r', hp', rfl, -⟩ := hall e' he'
  obtain ⟨-, rfl⟩ := h.unique hp hp' hsnd
  rfl

/-- There are no more heads than descriptors. -/
lemma heads_le {es : List (Nat × Nat)} (h : Chains m.disk m.pc) (hes : es.Nodup) (hall : ∀ e ∈ es, m.Awaits e) :
    es.length ≤ num := by
  have hsub : es.map Prod.snd ⊆ List.range num := by
    intro i hi
    obtain ⟨e, he, rfl⟩ := List.mem_map.mp hi
    obtain ⟨p, r, hp, rfl, -⟩ := hall e he
    exact List.mem_range.mpr ((h.described p r hp).lt _ (by simp [Req.idx]))
  have hle := ((heads_nodup h hes hall).subperm hsub).length_le
  simpa using hle

/-! ### Steps -/

lemma num_dvd : num ∣ 2 ^ 16 := by decide

lemma num_lt : num < 2 ^ 16 := by decide

lemma Chains.idx_ne {i : Nat} (h : Chains d pc) (hp : pc p = .submitted r) (hi : d.free i = true) : i ∉ r.idx :=
  fun hmem => by simp [(h.described p r hp).taken i hmem] at hi

lemma Machine.Awaits.lt {e : Nat × Nat} (h : m.Awaits e) (hc : Chains m.disk m.pc) : e.2 < num := by
  obtain ⟨p, r, hp, rfl, -⟩ := h
  exact (hc.described p r hp).lt _ (by simp [Req.idx])

namespace Inv

/-- Locks of buffers that no call uses change hands. -/
lemma relock {lock : Nat → Option Nat} (h : Inv m₀ l m) (a : Act)
    (hlock : ∀ p c, (m.pc p).call = some c → lock c.b = some p) :
    Inv m₀ (l ++ [a]) { m with lock := lock } := by
  obtain ⟨pend, done, R, q, hdone⟩ := h.queues
  refine ⟨h.chains, hlock, fun p r hp hbusy => (h.completed p r hp hbusy).snoc a, pend, done, R, ?_,
    fun p r hp hmem => (hdone p r hp hmem).snoc a⟩
  exact ⟨q.avail, q.used, q.numbers, q.count, q.nodup, q.awaits, q.status⟩

/-- A process finds no three descriptors. -/
lemma full {desc : Nat → Desc} (h : Inv m₀ l m) (a : Act) (hp : ∀ r, m.pc p ≠ .submitted r)
    (hlock : m.lock c.b = some p) (hdesc : ∀ i, m.disk.free i = false → desc i = m.disk.desc i) :
    Inv m₀ (l ++ [a]) { m with
      disk := { m.disk with desc := desc }, pc := Function.update m.pc p (.waiting c) } := by
  have hsub : ∀ p' r, Function.update m.pc p (.waiting c) p' = .submitted r ↔ m.pc p' = .submitted r := by
    intro p' r
    by_cases heq : p' = p
    · subst heq
      simp [hp r]
    · rw [Function.update_of_ne heq]
  obtain ⟨pend, done, R, q, hdone⟩ := h.queues
  refine ⟨⟨fun p' r hp' => ?_, fun p' p'' r r' i hp' hp'' => ?_, fun i hi hfree => ?_⟩, fun p' c' hc => ?_,
    fun p' r hp' hbusy => (h.completed p' r ((hsub p' r).mp hp') hbusy).snoc a, pend, done, R, ?_,
    fun p' r hp' hmem => (hdone p' r ((hsub p' r).mp hp') hmem).snoc a⟩
  · have hold := h.chains.described p' r ((hsub p' r).mp hp')
    exact hold.congr (fun i _ => rfl) (fun i hi => hdesc i (hold.taken i hi)) rfl rfl
  · exact h.chains.disjoint p' p'' r r' i ((hsub p' r).mp hp') ((hsub p'' r').mp hp'')
  · obtain ⟨p', r, hp', hmem⟩ := h.chains.owned i hi hfree
    exact ⟨p', r, (hsub p' r).mpr hp', hmem⟩
  · by_cases heq : p' = p
    · subst heq
      obtain rfl : c = c' := by simpa [Pc.call] using hc
      exact hlock
    · exact h.locked p' c' (by simpa [Function.update_of_ne heq] using hc)
  · refine ⟨q.avail, q.used, q.numbers, q.count, q.nodup, fun e he => ?_, q.status⟩
    obtain ⟨p', r, hp', heq, hbusy⟩ := q.awaits e he
    exact ⟨p', r, (hsub p' r).mpr hp', heq, hbusy⟩

/-- The descriptors that a process has been given become its chain. -/
lemma format_chains {i0 i1 i2 n : Nat} (h : Chains m.disk m.pc) (hp : ∀ r, m.pc p ≠ .submitted r)
    (hnodup : [i0, i1, i2].Nodup) (hfree : ∀ i ∈ [i0, i1, i2], i < num ∧ m.disk.free i = true) :
    Chains (((((m.disk.mark i0).mark i1).mark i2).format c i0 i1 i2).publish i0)
      (Function.update m.pc p (.submitted ⟨c, i0, i1, i2, n⟩)) := by
  obtain ⟨⟨h01, h02⟩, h12⟩ : (i0 ≠ i1 ∧ i0 ≠ i2) ∧ i1 ≠ i2 := by simpa using hnodup
  have hother : ∀ p' r, m.pc p' = .submitted r → ∀ i ∈ r.idx, i ≠ i0 ∧ i ≠ i1 ∧ i ≠ i2 := by
    intro p' r hp' i hi
    refine ⟨?_, ?_, ?_⟩ <;>
    · rintro rfl
      exact h.idx_ne hp' (hfree i (by simp)).2 hi
  refine ⟨fun p' r hp' => ?_, fun p' p'' r r' i hp' hp'' hi hi' => ?_, fun i hi htaken => ?_⟩
  · by_cases heq : p' = p
    · subst heq
      obtain rfl : Req.mk c i0 i1 i2 n = r := by simpa using hp'
      refine ⟨hnodup, fun i hi => (hfree i hi).1, fun i hi => ?_, ?_, ?_, ?_, ?_, ?_⟩
      · simp only [Req.idx, List.mem_cons, List.not_mem_nil, or_false] at hi
        simp only [Disk.publish, Disk.format, Disk.mark, Function.update_apply]
        rcases hi with rfl | rfl | rfl <;> simp
      all_goals simp [Disk.publish, Disk.format, Disk.mark, h01, h02, h12]
    · rw [Function.update_of_ne heq] at hp'
      have hne := hother p' r hp'
      refine (h.described p' r hp').congr (fun i hi => ?_) (fun i hi => ?_) ?_ ?_
      · obtain ⟨hne0, hne1, hne2⟩ := hne i hi
        simp [Disk.publish, Disk.format, Disk.mark, hne0, hne1, hne2]
      · obtain ⟨hne0, hne1, hne2⟩ := hne i hi
        simp [Disk.publish, Disk.format, Disk.mark, hne0, hne1, hne2]
      · simp [Disk.publish, Disk.format, Disk.mark, (hne r.i0 (by simp [Req.idx])).1]
      · simp [Disk.publish, Disk.format, Disk.mark, (hne r.i0 (by simp [Req.idx])).1]
  · by_cases heq : p' = p <;> by_cases heq' : p'' = p
    · rw [heq, heq']
    · subst heq
      obtain rfl : Req.mk c i0 i1 i2 n = r := by simpa using hp'
      rw [Function.update_of_ne heq'] at hp''
      have hne := hother p'' r' hp'' i hi'
      simp [Req.idx, hne] at hi
    · subst heq'
      obtain rfl : Req.mk c i0 i1 i2 n = r' := by simpa using hp''
      rw [Function.update_of_ne heq] at hp'
      have hne := hother p' r hp' i hi
      simp [Req.idx, hne] at hi'
    · rw [Function.update_of_ne heq] at hp'
      rw [Function.update_of_ne heq'] at hp''
      exact h.disjoint p' p'' r r' i hp' hp'' hi hi'
  · by_cases hmem : i ∈ [i0, i1, i2]
    · exact ⟨p, _, Function.update_self _ _ _, hmem⟩
    · simp only [List.mem_cons, List.not_mem_nil, or_false, not_or] at hmem
      have hold : m.disk.free i = false := by
        simpa [Disk.publish, Disk.format, Disk.mark, hmem] using htaken
      obtain ⟨p', r, hp', hi'⟩ := h.owned i hi hold
      have hne : p' ≠ p := fun heq => hp r (heq ▸ hp')
      exact ⟨p', r, by rw [Function.update_of_ne hne, hp'], hi'⟩

end Inv

namespace Inv

/-- A request is formatted and published. -/
lemma submit {i0 i1 i2 : Nat} (h : Inv m₀ l m) (a : Act) (hp : ∀ r, m.pc p ≠ .submitted r)
    (hlock : m.lock c.b = some p)
    (hnodup : [i0, i1, i2].Nodup) (hfree : ∀ i ∈ [i0, i1, i2], i < num ∧ m.disk.free i = true) :
    Inv m₀ (l ++ [a]) { m with
      disk := ((((m.disk.mark i0).mark i1).mark i2).format c i0 i1 i2).publish i0
      busy := Function.update m.busy c.b true
      pc := Function.update m.pc p (.submitted ⟨c, i0, i1, i2, m.published⟩)
      published := m.published + 1 } := by
  generalize hm' : ({ m with
      disk := ((((m.disk.mark i0).mark i1).mark i2).format c i0 i1 i2).publish i0
      busy := Function.update m.busy c.b true
      pc := Function.update m.pc p (.submitted ⟨c, i0, i1, i2, m.published⟩)
      published := m.published + 1 } : Machine) = m'
  have hpc : m'.pc = Function.update m.pc p (.submitted ⟨c, i0, i1, i2, m.published⟩) := by rw [← hm']
  have hbusy : m'.busy = Function.update m.busy c.b true := by rw [← hm']
  have hchains : Chains m'.disk m'.pc := by
    rw [← hm']
    exact format_chains h.chains hp hnodup hfree
  have hself : m'.pc p = .submitted ⟨c, i0, i1, i2, m.published⟩ := by rw [hpc, Function.update_self]
  have hother : ∀ p', p' ≠ p → m'.pc p' = m.pc p' := fun p' hne => by rw [hpc, Function.update_of_ne hne]
  -- The buffer of the new request is that of no other one.
  have hbuf : ∀ p' r, p' ≠ p → m.pc p' = .submitted r → m'.busy r.call.b = m.busy r.call.b := by
    intro p' r hne hp'
    have hb : r.call.b ≠ c.b := by
      intro heq
      have hlock' := h.locked p' r.call (by rw [hp']; rfl)
      rw [heq, hlock] at hlock'
      exact hne (Option.some.inj hlock').symm
    rw [hbusy, Function.update_of_ne hb]
  have hne : ∀ p' r, m.pc p' = .submitted r → p' ≠ p := fun p' r hp' heq => hp r (heq ▸ hp')
  have hnum : ∀ p' r, m'.pc p' = .submitted r → p' ≠ p → m.pc p' = .submitted r := fun p' r hp' hne =>
    (hother p' hne) ▸ hp'
  obtain ⟨pend, done, R, q, hdone⟩ := h.queues
  have hold : ∀ e ∈ pend ++ m.inflight ++ done, m'.Awaits e := by
    intro e he
    obtain ⟨p', r, hp', heq, hb⟩ := q.awaits e he
    exact ⟨p', r, by rw [hother p' (hne p' r hp'), hp'], heq, by rw [hbuf p' r (hne p' r hp') hp', hb]⟩
  have hnew : m'.Awaits (m.published, i0) := ⟨p, _, hself, rfl, by rw [hbusy, Function.update_self]⟩
  have hfresh : (m.published, i0) ∉ pend ++ m.inflight ++ done := by
    intro he
    obtain ⟨p', r, hp', heq, -⟩ := q.awaits _ he
    have hi0 : r.i0 = i0 := congrArg Prod.snd heq
    exact h.chains.idx_ne hp' (hfree i0 (by simp)).2 (by simp [Req.idx, hi0])
  have hperm : ((pend ++ [(m.published, i0)]) ++ m.inflight ++ done).Perm
      ((m.published, i0) :: (pend ++ m.inflight ++ done)) := by
    simp [List.perm_middle]
  have hnodup' : ((pend ++ [(m.published, i0)]) ++ m.inflight ++ done).Nodup :=
    hperm.nodup_iff.mpr (List.nodup_cons.mpr ⟨hfresh, q.nodup⟩)
  have hawaits : ∀ e ∈ (pend ++ [(m.published, i0)]) ++ m.inflight ++ done, m'.Awaits e := by
    intro e he
    rcases List.mem_cons.mp (hperm.mem_iff.mp he) with rfl | he
    · exact hnew
    · exact hold e he
  have hroom : (pend.map Prod.snd).length < num := by
    have hle := heads_le hchains hnodup' hawaits
    simp only [List.length_append, List.length_singleton] at hle
    rw [List.length_map]
    omega
  refine ⟨hchains, fun p' c' hc => ?_, fun p' r hp' hb => ?_, pend ++ [(m.published, i0)], done, R, ?_,
    fun p' r hp' hmem => ?_⟩
  · by_cases heq : p' = p
    · subst heq
      rw [hself] at hc
      obtain rfl : c = c' := Option.some.inj hc
      rw [← hm']
      exact hlock
    · rw [hother p' heq] at hc
      rw [← hm']
      exact h.locked p' c' hc
  · by_cases heq : p' = p
    · subst heq
      rw [hself] at hp'
      cases hp'
      rw [hbusy, Function.update_self] at hb
      cases hb
    · have hp'' := hnum p' r hp' heq
      rw [hbuf p' r heq hp''] at hb
      exact (h.completed p' r hp'' hb).snoc a
  · refine ⟨?_, ?_, ?_, ?_, ?_, ?_, ?_⟩
    · rw [← hm', List.map_append]
      exact q.avail.push num_dvd hroom i0
    · rw [← hm']
      exact q.used
    · rw [← hm']
      simp [q.numbers, List.range'_concat, q.count]
    · rw [← hm', List.length_append, List.length_singleton, ← q.count, add_assoc]
    · rw [← hm']
      exact hnodup'
    · have hinflight : m'.inflight = m.inflight := by rw [← hm']
      rw [hinflight]
      exact hawaits
    · intro e he
      have hne0 : e.2 ≠ i0 := by
        obtain ⟨p', r, hp', rfl, -⟩ := q.awaits e (List.mem_append_right _ he)
        rintro heq
        exact h.chains.idx_ne hp' (hfree i0 (by simp)).2 (by simp [Req.idx, ← heq])
      rw [← hm']
      simpa [Disk.publish, Disk.format, Disk.mark, hne0] using q.status e he
  · by_cases heq : p' = p
    · subst heq
      rw [hself] at hp'
      cases hp'
      exact absurd (List.mem_append_right _ hmem) hfresh
    · exact (hdone p' r (hnum p' r hp' heq) hmem).snoc a

end Inv

namespace Inv

/-- The first part of a call never faults. -/
lemma rw (h : Inv m₀ l m) (a : Act) (hp : ∀ r, m.pc p ≠ .submitted r) (hlock : m.lock c.b = some p) :
    ∃ m', m.rw p c = .ok m' ∧ Inv m₀ (l ++ [a]) m' := by
  unfold Machine.rw
  obtain ⟨idx, d, hok, halloc⟩ := m.disk.alloc3Desc_ok
  cases halloc with
  | none hdesc => exact ⟨_, by simp only [hok]; rfl, h.full a hp hlock hdesc⟩
  | some hnodup hfree => exact ⟨_, by simp only [hok]; rfl, h.submit a hp hlock hnodup hfree⟩

/-- A call returns. -/
lemma finish (h : Inv m₀ l m) (a : Act) (hp : m.pc p = .submitted r) (hbusy : m.busy r.call.b = false) :
    ∃ d, m.disk.finish r.i0 = .ok d ∧
      Inv m₀ (l ++ [a]) { m with disk := d, pc := Function.update m.pc p .out } := by
  have hdesc := h.chains.described p r hp
  refine ⟨_, hdesc.freeChain rfl rfl, ?_⟩
  have hne : ∀ p' r', Function.update m.pc p .out p' = .submitted r' → p' ≠ p ∧ m.pc p' = .submitted r' := by
    intro p' r' hp'
    have hne : p' ≠ p := by
      rintro rfl
      simp at hp'
    exact ⟨hne, by rwa [Function.update_of_ne hne] at hp'⟩
  have hother : ∀ p' r', p' ≠ p → m.pc p' = .submitted r' → ∀ i ∈ r'.idx, i ≠ r.i0 ∧ i ≠ r.i1 ∧ i ≠ r.i2 := by
    intro p' r' hne hp' i hi
    refine ⟨?_, ?_, ?_⟩ <;>
    · rintro rfl
      exact hne (h.chains.disjoint p' p r' r _ hp' hp hi (by simp [Req.idx]))
  obtain ⟨pend, done, R, q, hdone⟩ := h.queues
  refine ⟨⟨fun p' r' hp' => ?_, fun p' p'' r' r'' i hp' hp'' => ?_, fun i hi hfree => ?_⟩, fun p' c' hc => ?_,
    fun p' r' hp' hb => ?_, pend, done, R, ?_, fun p' r' hp' hmem => ?_⟩
  · obtain ⟨hp'ne, hp'⟩ := hne p' r' hp'
    refine (h.chains.described p' r' hp').congr (fun i hi => ?_) (fun i hi => ?_) rfl ?_
    · obtain ⟨hne0, hne1, hne2⟩ := hother p' r' hp'ne hp' i hi
      simp [Disk.clear, hne0, hne1, hne2]
    · obtain ⟨hne0, hne1, hne2⟩ := hother p' r' hp'ne hp' i hi
      simp [Disk.clear, hne0, hne1, hne2]
    · simp [Disk.clear, (hother p' r' hp'ne hp' r'.i0 (by simp [Req.idx])).1]
  · exact h.chains.disjoint p' p'' r' r'' i (hne p' r' hp').2 (hne p'' r'' hp'').2
  · have hnot : i ∉ r.idx := by
      intro hmem
      simp only [Req.idx, List.mem_cons, List.not_mem_nil, or_false] at hmem
      simp only [Disk.clear, Function.update_apply] at hfree
      rcases hmem with rfl | rfl | rfl <;> simp at hfree
    have hold : m.disk.free i = false := by
      simp only [Req.idx, List.mem_cons, List.not_mem_nil, or_false, not_or] at hnot
      simpa [Disk.clear, hnot] using hfree
    obtain ⟨p', r', hp', hi'⟩ := h.chains.owned i hi hold
    have hp'ne : p' ≠ p := by
      rintro rfl
      rw [hp] at hp'
      cases hp'
      exact hnot hi'
    exact ⟨p', r', (Function.update_of_ne hp'ne _ _).trans hp', hi'⟩
  · by_cases heq : p' = p
    · subst heq
      simp [Pc.call] at hc
    · exact h.locked p' c' (by simpa [Function.update_of_ne heq] using hc)
  · exact (h.completed p' r' (hne p' r' hp').2 hb).snoc a
  · refine ⟨q.avail, q.used, q.numbers, q.count, q.nodup, fun e he => ?_, fun e he => ?_⟩
    · obtain ⟨p', r', hp', heq, hb⟩ := q.awaits e he
      have hp'ne : p' ≠ p := by
        rintro rfl
        rw [hp] at hp'
        cases hp'
        rw [hbusy] at hb
        cases hb
      exact ⟨p', r', (Function.update_of_ne hp'ne _ _).trans hp', heq, hb⟩
    · have hst := q.status e he
      by_cases heq : e.2 = r.i0 <;> simpa [Disk.clear, heq] using hst
  · exact (hdone p' r' (hne p' r' hp').2 hmem).snoc a

end Inv

namespace Inv

/-- The device takes the oldest request that it has not taken. -/
lemma take (h : Inv m₀ l m) (a : Act) (hsome : m.lastAvail ≠ m.disk.avail.idx) :
    Inv m₀ (l ++ [a]) m.take ∧ ∃ p r, m.pc p = .submitted r ∧ m.take.inflight = m.inflight ++ [(r.n, r.i0)] := by
  obtain ⟨pend, done, R, q, hdone⟩ := h.queues
  cases pend with
  | nil => exact absurd ((q.avail.empty_iff num_lt).mpr rfl) hsome
  | cons e pend =>
    have hring : (m.taken, m.disk.avail.ring (m.lastAvail % num)) = e := by
      have hnumbers := q.numbers
      rw [List.map_cons, List.length_cons, List.range'_succ] at hnumbers
      have hfst : e.1 = m.taken := (List.cons.inj hnumbers).1
      exact Prod.ext hfst.symm (q.avail.front num_dvd)
    have htake : m.take.inflight = m.inflight ++ [e] := by rw [← hring]; rfl
    have hperm : (pend ++ m.take.inflight ++ done).Perm (e :: pend ++ m.inflight ++ done) := by
      rw [htake]
      have hmid : (pend ++ (m.inflight ++ (e :: done))).Perm (e :: (pend ++ (m.inflight ++ done))) := by
        rw [← List.append_assoc, ← List.append_assoc]
        exact List.perm_middle
      simpa using hmid
    constructor
    · refine ⟨h.chains, h.locked, fun p r hp hb => (h.completed p r hp hb).snoc a, pend, done, R, ?_,
        fun p r hp hmem => (hdone p r hp hmem).snoc a⟩
      refine ⟨?_, q.used, ?_, ?_, hperm.nodup_iff.mpr q.nodup, fun e' he' => q.awaits e' (hperm.mem_iff.mp he'),
        q.status⟩
      · exact q.avail.pop
      · have hnumbers := q.numbers
        rw [List.map_cons, List.length_cons, List.range'_succ] at hnumbers
        exact (List.cons.inj hnumbers).2
      · have hcount := q.count
        rw [List.length_cons] at hcount
        show m.taken + 1 + pend.length = m.published
        omega
    · obtain ⟨p, r, hp, heq, -⟩ := q.awaits e (by simp)
      exact ⟨p, r, hp, by rw [htake, heq]⟩

/-- The device completes a request that it has taken. -/
lemma complete {n i : Nat} (h : Inv m₀ l m) (hrun : Steps Machine.Step m₀ l m) (hmem : (n, i) ∈ m.inflight) :
    ∃ d, m.disk.complete i = .ok d ∧
      Inv m₀ (l ++ [.complete n i]) { m with disk := d, inflight := m.inflight.erase (n, i) } := by
  obtain ⟨pend, done, R, q, hdone⟩ := h.queues
  obtain ⟨p, r, hp, heq, hbusy⟩ := q.awaits (n, i) (by simp [hmem])
  obtain ⟨rfl, rfl⟩ : r.n = n ∧ r.i0 = i := Prod.mk.inj heq
  have hdesc := h.chains.described p r hp
  refine ⟨_, by rw [Disk.complete, hdesc.statusAddr], ?_⟩
  have hperm : (pend ++ m.inflight.erase (r.n, r.i0) ++ (done ++ [(r.n, r.i0)])).Perm
      (pend ++ m.inflight ++ done) := by
    rw [List.append_assoc, List.append_assoc]
    refine List.Perm.append_left _ ?_
    have hlast : (m.inflight.erase (r.n, r.i0) ++ (done ++ [(r.n, r.i0)])).Perm
        ((r.n, r.i0) :: m.inflight.erase (r.n, r.i0) ++ done) := by
      rw [← List.append_assoc]
      exact List.perm_append_singleton _ _
    exact hlast.trans ((List.perm_cons_erase hmem).symm.append_right _)
  have hroom : (done.map Prod.snd).length < num := by
    have hle := heads_le h.chains q.nodup q.awaits
    have hpos := List.length_pos_of_mem hmem
    simp only [List.length_append] at hle
    rw [List.length_map]
    omega
  refine ⟨⟨fun p' r' hp' => ?_, h.chains.disjoint, h.chains.owned⟩, h.locked,
    fun p' r' hp' hb => (h.completed p' r' hp' hb).snoc _, pend, done ++ [(r.n, r.i0)], R, ?_, fun p' r' hp' hmem' => ?_⟩
  · refine (h.chains.described p' r' hp').congr (fun _ _ => rfl) (fun _ _ => rfl) rfl ?_
    by_cases hi : r'.i0 = r.i0 <;> simp [hi]
  · refine ⟨q.avail, ?_, q.numbers, q.count, hperm.nodup_iff.mpr q.nodup,
      fun e he => q.awaits e (hperm.mem_iff.mp he), fun e he => ?_⟩
    · rw [List.map_append]
      exact q.used.push num_dvd hroom r.i0
    · by_cases hi : e.2 = r.i0
      · simp [hi]
      · have hold : e ∈ done := by
          rcases List.mem_append.mp he with hold | hnew
          · exact hold
          · exact absurd (congrArg Prod.snd (List.mem_singleton.mp hnew)) hi
        simpa [hi] using q.status e hold
  · rcases List.mem_append.mp hmem' with hold | hnew
    · exact (hdone p' r' hp' hold).snoc _
    · have hi : r'.i0 = r.i0 := congrArg Prod.snd (List.mem_singleton.mp hnew)
      obtain ⟨rfl, rfl⟩ := h.chains.unique hp' hp hi
      exact ⟨l, [], m, rfl, hrun, hp⟩

/-- The driver sees that a request is completed. -/
lemma intr (h : Inv m₀ l m) (a : Act) (hsome : m.disk.usedIdx ≠ m.disk.used.idx) :
    ∃ b d, m.disk.intr = .ok (b, d) ∧
      Inv m₀ (l ++ [a]) { m with disk := d, busy := Function.update m.busy b false } := by
  obtain ⟨pend, done, R, q, hdone⟩ := h.queues
  cases done with
  | nil => exact absurd ((q.used.empty_iff num_lt).mpr rfl) hsome
  | cons e done =>
    have he : e ∈ pend ++ m.inflight ++ e :: done := by simp
    obtain ⟨p, r, hp, rfl, hbusy⟩ := q.awaits _ he
    have hdesc := h.chains.described p r hp
    have hid : m.disk.used.ring (m.disk.usedIdx % num) = r.i0 := q.used.front num_dvd
    have hlt : r.i0 < num := hdesc.lt _ (by simp [Req.idx])
    have hstatus : (m.disk.info r.i0).status = 0 := q.status _ (List.mem_cons_self)
    refine ⟨r.call.b, { m.disk with usedIdx := u16 (m.disk.usedIdx + 1) }, ?_, ?_⟩
    · unfold Disk.intr
      simp only [hid, hdesc.info]
      rw [if_neg (by omega), if_neg (by simp [hstatus])]
    have hsplit : (pend ++ m.inflight ++ (r.n, r.i0) :: done).Perm ((r.n, r.i0) :: (pend ++ m.inflight ++ done)) :=
      List.perm_middle
    have hnodup := List.nodup_cons.mp (hsplit.nodup_iff.mp q.nodup)
    -- Every other request is about another buffer.
    have hother : ∀ p' r', m.pc p' = .submitted r' → r'.call.b = r.call.b → p' = p ∧ r' = r := by
      intro p' r' hp' hb
      by_cases heq : p' = p
      · subst heq
        rw [hp] at hp'
        cases hp'
        exact ⟨rfl, rfl⟩
      · exact absurd hb (h.buf_ne (by rw [hp']; rfl) (by rw [hp]; rfl) heq)
    refine ⟨⟨fun p' r' hp' => ?_, h.chains.disjoint, h.chains.owned⟩, h.locked, fun p' r' hp' hb => ?_,
      pend, done, R + 1, ?_, fun p' r' hp' hmem => (hdone p' r' hp' (List.mem_cons_of_mem _ hmem)).snoc a⟩
    · exact (h.chains.described p' r' hp').congr (fun _ _ => rfl) (fun _ _ => rfl) rfl rfl
    · by_cases hbuf : r'.call.b = r.call.b
      · obtain ⟨rfl, rfl⟩ := hother p' r' hp' hbuf
        exact (hdone _ _ hp List.mem_cons_self).snoc a
      · exact (h.completed p' r' hp' (by simpa [Function.update_of_ne hbuf] using hb)).snoc a
    · refine ⟨q.avail, q.used.pop, q.numbers, q.count, hnodup.2, fun e' he' => ?_,
        fun e' he' => q.status e' (List.mem_cons_of_mem _ he')⟩
      obtain ⟨p', r', hp', rfl, hb⟩ := q.awaits e' (hsplit.mem_iff.mpr (List.mem_cons_of_mem _ he'))
      have hbuf : r'.call.b ≠ r.call.b := by
        intro hbuf
        obtain ⟨rfl, rfl⟩ := hother p' r' hp' hbuf
        exact hnodup.1 he'
      exact ⟨p', r', hp', rfl, by simpa [Function.update_of_ne hbuf] using hb⟩

/-- A process that is woken never faults. -/
lemma wake (h : Inv m₀ l m) (a : Act) : ∃ m', m.wake p = .ok m' ∧ Inv m₀ (l ++ [a]) m' := by
  unfold Machine.wake
  cases hp : m.pc p with
  | out => exact ⟨m, rfl, h.relock a h.locked⟩
  | waiting c =>
    refine h.rw a (fun r => ?_) (h.locked p c (by rw [hp]; rfl))
    rw [hp]
    exact Pc.noConfusion
  | submitted r =>
    cases hbusy : m.busy r.call.b with
    | true => exact ⟨m, by simp only [hbusy]; rfl, h.relock a h.locked⟩
    | false =>
      obtain ⟨d, hd, hinv⟩ := h.finish a hp hbusy
      exact ⟨_, by simp only [hbusy, hd]; rfl, hinv⟩

/-- Whatever can happen next does happen, and keeps the invariant. -/
lemma exec (h : Inv m₀ l m) (hrun : Steps Machine.Step m₀ l m) {a : Act} (ha : m.Enabled a) :
    ∃ m', m.exec a = .ok m' ∧ Inv m₀ (l ++ [a]) m' := by
  cases a with
  | acquiresleep p b =>
    refine ⟨_, rfl, h.relock _ fun p' c hc => ?_⟩
    have hlock := h.locked p' c hc
    have hne : c.b ≠ b := by
      rintro rfl
      rw [ha.2] at hlock
      cases hlock
    rwa [Function.update_of_ne hne]
  | releasesleep p b =>
    refine ⟨_, rfl, h.relock _ fun p' c hc => ?_⟩
    have hlock := h.locked p' c hc
    have hne : c.b ≠ b := by
      rintro rfl
      rw [ha.2] at hlock
      obtain rfl := Option.some.inj hlock
      rw [ha.1] at hc
      cases hc
    rwa [Function.update_of_ne hne]
  | call p c =>
    refine h.rw _ (fun r => ?_) ha.2
    rw [ha.1]
    exact Pc.noConfusion
  | wake p => exact h.wake _
  | take => exact ⟨_, rfl, (h.take _ ha).1⟩
  | complete n i =>
    obtain ⟨d, hd, hinv⟩ := h.complete hrun ha
    exact ⟨_, by simp only [Machine.exec, hd]; rfl, hinv⟩
  | intr =>
    obtain ⟨b, d, hd, hinv⟩ := h.intr .intr ha
    exact ⟨_, by simp only [Machine.exec, hd]; rfl, hinv⟩

lemma initial (info : Nat → Info) (ops : Nat → BlkReq) (busy : Nat → Bool) (m₀ : Machine) :
    Inv m₀ [] (Machine.initial info ops busy) := by
  refine ⟨⟨fun p r hp => Pc.noConfusion hp, fun p p' r r' i hp => Pc.noConfusion hp, fun i hi hfree => ?_⟩,
    fun p c hc => (by cases hc), fun p r hp => Pc.noConfusion hp, [], [], 0, ?_, fun p r hp => Pc.noConfusion hp⟩
  · simp [Machine.initial, hi] at hfree
  · exact ⟨.nil _ 0, .nil _ 0, rfl, rfl, List.nodup_nil, fun e he => absurd he List.not_mem_nil,
      fun e he => absurd he List.not_mem_nil⟩

end Inv

lemma inv_of_steps (h0 : Inv m₀ [] m₀) (h : Steps Machine.Step m₀ l m) : Inv m₀ l m := by
  induction h with
  | nil => exact h0
  | snoc hrun ha ih =>
    obtain ⟨m', hm', hinv⟩ := ih.exec hrun ha.1
    rw [ha.2] at hm'
    cases hm'
    exact hinv

lemma Inv.inflight (h : Inv m₀ l m) {n i : Nat} (hmem : (n, i) ∈ m.inflight) :
    ∃ p r, m.pc p = .submitted r ∧ (r.n, r.i0) = (n, i) := by
  obtain ⟨pend, done, R, q, -⟩ := h.queues
  obtain ⟨p, r, hp, heq, -⟩ := q.awaits (n, i) (by simp [hmem])
  exact ⟨p, r, hp, heq⟩

lemma Inv.returned (h : Inv m₀ l m) (hp : m.pc p = .submitted r) (hstep : m.exec (.wake p) = .ok m')
    (hout : m'.pc p = .out) : Completed m₀ l p r := by
  refine h.completed p r hp ?_
  by_contra hbusy
  have hsame : m.exec (.wake p) = .ok m := by
    simp only [Machine.exec, Machine.wake, hp]
    rw [if_pos (by simpa using hbusy)]
    rfl
  rw [hsame] at hstep
  cases hstep
  rw [hp] at hout
  cases hout

/-- In every run of processes, device and interrupts: a descriptor is free if and only if it is in no
chain; the chain of a published request has three descriptors of its own which describe the buffer,
the sector and the status byte; the device works on chains of such requests only; a call returns
only after the device has completed the request that it published; and nothing that can happen
next ends in a panic. -/
theorem virtio_protocol {info : Nat → Info} {ops : Nat → BlkReq} {busy : Nat → Bool} {l : List Act} {m : Machine}
    (h : Steps Machine.Step (.initial info ops busy) l m) :
    (∀ i < num, m.disk.free i = true ↔ ∀ p r, m.pc p = .submitted r → i ∉ r.idx) ∧
    (∀ p r, m.pc p = .submitted r → m.disk.Described r) ∧
    (∀ p p' r r' i, m.pc p = .submitted r → m.pc p' = .submitted r' → i ∈ r.idx → i ∈ r'.idx → p = p') ∧
    (∀ n i, (n, i) ∈ m.inflight → ∃ p r, m.pc p = .submitted r ∧ (r.n, r.i0) = (n, i)) ∧
    (∀ p r m', m.pc p = .submitted r → Machine.Step m (.wake p) m' → m'.pc p = .out →
      Completed (.initial info ops busy) l p r) ∧
    ∀ a, m.Enabled a → ∃ m', m.exec a = .ok m' := by
  have hinv : Inv (.initial info ops busy) l m := inv_of_steps (Inv.initial info ops busy _) h
  refine ⟨fun i hi => hinv.chains.free_iff hi, hinv.chains.described, hinv.chains.disjoint,
    fun n i => hinv.inflight, fun p r m' hp hstep hout => hinv.returned hp hstep.2 hout, fun a ha => ?_⟩
  obtain ⟨m', hm', -⟩ := hinv.exec h ha
  exact ⟨m', hm'⟩

/-- A step, computed. -/
def Machine.next (m : Machine) (a : Act) : Option Machine :=
  if m.Enabled a then (m.exec a).toOption else none

lemma step_of_next {a : Act} (h : m.next a = some m') : Machine.Step m a m' := by
  unfold Machine.next at h
  split at h
  · next ha =>
    refine ⟨ha, ?_⟩
    cases hexec : m.exec a with
    | error e => simp [hexec, Except.toOption] at h
    | ok m₁ =>
      obtain rfl : m₁ = m' := by simpa [hexec, Except.toOption] using h
      rfl
  · cases h

/-- Three processes read and write, the third has to wait for descriptors, and the device completes
the second request first. -/
def outOfOrder : List Act :=
  [.acquiresleep 1 10, .call 1 ⟨10, 5, false⟩, .acquiresleep 2 20, .call 2 ⟨20, 6, true⟩, .acquiresleep 3 30,
    .call 3 ⟨30, 7, false⟩, .take, .take, .complete 1 3, .intr, .wake 1]

/-- The driver before any run, with nothing in its memory. -/
def zeroed : Machine := .initial (fun _ => ⟨none, 0⟩) (fun _ => ⟨0, 0, 0⟩) fun _ => false

theorem virtio_protocol_out_of_order :
    ∃ m, Steps Machine.Step zeroed outOfOrder m ∧ m.pc 2 = .submitted ⟨⟨20, 6, true⟩, 3, 4, 5, 1⟩ ∧
      (m.disk.free 3 = true ↔ ∀ p r, m.pc p = .submitted r → 3 ∉ r.idx) ∧
      Completed zeroed outOfOrder 2 ⟨⟨20, 6, true⟩, 3, 4, 5, 1⟩ := by
  have hcomputed : (outOfOrder.foldlM Machine.next zeroed).any (fun m =>
      m.pc 2 == .submitted ⟨⟨20, 6, true⟩, 3, 4, 5, 1⟩ && (m.next (.wake 2)).any (·.pc 2 == .out)) = true := by
    decide
  obtain ⟨m, hm, hrest⟩ := (Option.any_eq_true _ _).mp hcomputed
  obtain ⟨hpc, hwake⟩ := Bool.and_eq_true_iff.mp hrest
  obtain ⟨m', hm', hout⟩ := (Option.any_eq_true _ _).mp hwake
  rw [beq_iff_eq] at hpc hout
  have hrun := Steps.of_foldlM (fun _ _ _ => step_of_next) hm
  obtain ⟨hfree, -, -, -, hreturn, -⟩ := virtio_protocol hrun
  exact ⟨m, hrun, hpc, hfree 3 (by decide), hreturn 2 _ m' hpc (step_of_next hm') hout⟩

end

end FogOS.Kernel.Virtio
