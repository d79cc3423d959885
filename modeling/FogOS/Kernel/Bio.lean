import FogOS.Lib.Pointers
import FogOS.Lib.Ring
import FogOS.Lib.Steps
import FogOS.Kernel.Basic

/-!
# The buffer cache

`kernel/bio.c`. The list of buffers and their reference counts are guarded by the lock of the cache,
so each stretch under that lock is one step; between them a process waits for the sleep-lock of its
buffer or for the disk. `virtio_disk_rw` looks at the number of the block only, not at the device.
-/

namespace FogOS.Kernel

open Ring

/-- `&bcache.head`, among the buffers `0` to `NBUF - 1`. -/
def bhead : Nat := nbuf

/-- A device and the number of a block on it. -/
abbrev BlockId : Type := Nat × Nat

/-- `struct buf`, for blocks with contents `α`. The lock is held by the call with that number. -/
structure Buf (α : Type) where
  valid : Bool
  dev : Nat
  blockno : Nat
  lock : Option Nat
  refcnt : Nat
  data : α

/-- The block that a buffer is for. -/
def Buf.block {α : Type} (b : Buf α) : BlockId := (b.dev, b.blockno)

/-- `bcache`: the buffers, and the links of the list through them and its head. -/
structure Bcache (α : Type) where
  buf : Nat → Buf α
  next : Nat → Nat
  prev : Nat → Nat

namespace Bcache

variable {α : Type}

/-- Put a buffer at the front of the list. -/
def link (c : Bcache α) (b : Nat) : Bcache α :=
  let next := Function.update c.next b (c.next bhead)
  let prev := Function.update c.prev b bhead
  { c with prev := Function.update prev (next bhead) b, next := Function.update next bhead b }

/-- Take a buffer off the list. -/
def unlink (c : Bcache α) (b : Nat) : Bcache α :=
  let prev := Function.update c.prev (c.next b) (c.prev b)
  { c with prev := prev, next := Function.update c.next (prev b) (c.next b) }

def binit (c : Bcache α) : Bcache α :=
  (List.range nbuf).foldl link
    { c with prev := Function.update c.prev bhead bhead, next := Function.update c.next bhead bhead }

def setBuf (c : Bcache α) (b : Nat) (v : Buf α) : Bcache α := { c with buf := Function.update c.buf b v }

lemma setBuf_self (c : Bcache α) (b : Nat) (v : Buf α) : (c.setBuf b v).buf b = v := Function.update_self _ _ _

lemma setBuf_of_ne {b b' : Nat} (c : Bcache α) (v : Buf α) (h : b' ≠ b) : (c.setBuf b v).buf b' = c.buf b' :=
  Function.update_of_ne h _ _

/-- What the new buffer has in common with the old. -/
lemma setBuf_proj {β : Type} {c : Bcache α} {b : Nat} {v : Buf α} (f : Buf α → β) (h : f v = f (c.buf b)) (b' : Nat) :
    f ((c.setBuf b v).buf b') = f (c.buf b') := by
  by_cases heq : b' = b
  · rw [heq, setBuf_self, h]
  · rw [setBuf_of_ne c v heq]

/-- Follow `step` up to the head, and stop at the first buffer with `p`. -/
def scan (step : Nat → Nat) (p : Nat → Bool) : Nat → Nat → Option Nat
  | 0, _ => none
  | fuel + 1, b => if b = bhead then none else if p b then some b else scan step p fuel (step b)

/-- `bget` up to `acquiresleep`. No result is the panic `bget: no buffers`. -/
def bget (c : Bcache α) (dev blockno : Nat) : Option (Nat × Bcache α) :=
  match scan c.next (fun b => (c.buf b).dev == dev && (c.buf b).blockno == blockno) (nbuf + 1) (c.next bhead) with
  | some b => some (b, c.setBuf b { c.buf b with refcnt := u32 ((c.buf b).refcnt + 1) })
  | none =>
    match scan c.prev (fun b => (c.buf b).refcnt == 0) (nbuf + 1) (c.prev bhead) with
    | some b =>
      some (b, c.setBuf b { c.buf b with dev := dev, blockno := blockno, valid := false, refcnt := 1 })
    | none => none

/-- The rest of `bread`, with the lock of the buffer held: read the disk if need be. -/
def fill (c : Bcache α) (disk : Nat → α) (b : Nat) : Bcache α :=
  if (c.buf b).valid then c
  else c.setBuf b { c.buf b with data := disk (c.buf b).blockno, valid := true }

/-- A buffer is filled once. -/
lemma fill_cases (c : Bcache α) (disk : Nat → α) (b : Nat) :
    (c.buf b).valid ∧ c.fill disk b = c ∨
      (c.buf b).valid = false ∧
        c.fill disk b = c.setBuf b { c.buf b with data := disk (c.buf b).blockno, valid := true } := by
  unfold fill
  split
  · next h => exact .inl ⟨h, rfl⟩
  · next h => exact .inr ⟨by simpa using h, rfl⟩

/-- `brelse` after `releasesleep`. -/
def brelse (c : Bcache α) (b : Nat) : Bcache α :=
  let c := c.setBuf b { c.buf b with refcnt := u32 ((c.buf b).refcnt + 2 ^ 32 - 1) }
  if (c.buf b).refcnt = 0 then (c.unlink b).link b else c

def bpin (c : Bcache α) (b : Nat) : Bcache α :=
  c.setBuf b { c.buf b with refcnt := u32 ((c.buf b).refcnt + 1) }

def bunpin (c : Bcache α) (b : Nat) : Bcache α :=
  c.setBuf b { c.buf b with refcnt := u32 ((c.buf b).refcnt + 2 ^ 32 - 1) }

/-- The static variable `bcache`, all zero; what `data` holds does not matter. -/
def zero (data : Nat → α) : Bcache α := ⟨fun b => ⟨false, 0, 0, none, 0, data b⟩, fun _ => 0, fun _ => 0⟩

end Bcache

/-- Where a `bread` of a block is, up to the `brelse` that goes with it: it has buffer `b` and waits for
the lock, has the lock, has returned from `bread`, or has given the lock back. -/
inductive BioCall
  | fresh
  | waiting (k : BlockId) (b : Nat)
  | locked (k : BlockId) (b : Nat)
  | holding (k : BlockId) (b : Nat)
  | releasing (k : BlockId) (b : Nat)
  | done
  deriving DecidableEq

/-- What happens to a block. -/
inductive BioEvent (α : Type)
  | bget (id : Nat) (k : BlockId)
  | acquiresleep (id : Nat) (k : BlockId)
  | bread (id : Nat) (k : BlockId) (v : α)
  | store (id : Nat) (k : BlockId) (v : α)
  | bwrite (id : Nat) (k : BlockId)
  | releasesleep (id : Nat) (k : BlockId)
  | brelse (id : Nat) (k : BlockId)
  | bpin (k : BlockId)
  | bunpin (k : BlockId)

/-- The cache, the disk, the calls, and how often each buffer is pinned. -/
structure Bio (α : Type) where
  cache : Bcache α
  disk : Nat → α
  calls : Nat → BioCall
  pins : Nat → Nat

namespace Bio

variable {α : Type}

/-- A panic is no step; `hlock` is the test of `bwrite` and `brelse` that the lock is held. Users keep to
the interface: devices are numbered from 1, each `bread` has its `brelse`, a buffer is
changed and written by who holds it, pinned by who holds it or while it is pinned, and unpinned only
when it is pinned. -/
inductive Step : Bio α → BioEvent α → Bio α → Prop
  | bget {s : Bio α} {id b : Nat} {k : BlockId} {c : Bcache α} (h : s.calls id = .fresh) (hdev : 1 ≤ k.1)
      (hget : s.cache.bget k.1 k.2 = some (b, c)) :
      Step s (.bget id k) { s with cache := c, calls := Function.update s.calls id (.waiting k b) }
  | acquiresleep {s : Bio α} {id b : Nat} {k : BlockId} (h : s.calls id = .waiting k b)
      (hfree : (s.cache.buf b).lock = none) :
      Step s (.acquiresleep id k)
        { s with
          cache := s.cache.setBuf b { s.cache.buf b with lock := some id }
          calls := Function.update s.calls id (.locked k b) }
  | bread {s : Bio α} {id b : Nat} {k : BlockId} (h : s.calls id = .locked k b) :
      Step s (.bread id k ((s.cache.fill s.disk b).buf b).data)
        { s with cache := s.cache.fill s.disk b, calls := Function.update s.calls id (.holding k b) }
  | store {s : Bio α} {id b : Nat} {k : BlockId} (h : s.calls id = .holding k b) (v : α) :
      Step s (.store id k v) { s with cache := s.cache.setBuf b { s.cache.buf b with data := v } }
  | bwrite {s : Bio α} {id b : Nat} {k : BlockId} (h : s.calls id = .holding k b)
      (hlock : (s.cache.buf b).lock = some id) :
      Step s (.bwrite id k)
        { s with disk := Function.update s.disk (s.cache.buf b).blockno (s.cache.buf b).data }
  | releasesleep {s : Bio α} {id b : Nat} {k : BlockId} (h : s.calls id = .holding k b)
      (hlock : (s.cache.buf b).lock = some id) :
      Step s (.releasesleep id k)
        { s with
          cache := s.cache.setBuf b { s.cache.buf b with lock := none }
          calls := Function.update s.calls id (.releasing k b) }
  | brelse {s : Bio α} {id b : Nat} {k : BlockId} (h : s.calls id = .releasing k b) :
      Step s (.brelse id k) { s with cache := s.cache.brelse b, calls := Function.update s.calls id .done }
  | bpin {s : Bio α} {b : Nat} (h : (∃ id k, s.calls id = .holding k b) ∨ 0 < s.pins b) :
      Step s (.bpin (s.cache.buf b).block)
        { s with cache := s.cache.bpin b, pins := Function.update s.pins b (s.pins b + 1) }
  | bunpin {s : Bio α} {b : Nat} (h : 0 < s.pins b) :
      Step s (.bunpin (s.cache.buf b).block)
        { s with cache := s.cache.bunpin b, pins := Function.update s.pins b (s.pins b - 1) }

/-- After `binit`. -/
def initial (data disk : Nat → α) : Bio α := ⟨(Bcache.zero data).binit, disk, fun _ => .fresh, fun _ => 0⟩

end Bio

/-! ### The list -/

namespace Bcache

variable {α : Type} {c c' : Bcache α} {order : List Nat} {b : Nat}

/-- The buffers are on the list in this order. -/
structure Listed (c : Bcache α) (order : List Nat) : Prop where
  ring : IsRing c.next c.prev bhead order
  nodup : (bhead :: order).Nodup

lemma Listed.ne_bhead (h : c.Listed order) (hb : b ∈ order) : b ≠ bhead := by
  rintro rfl
  exact (List.nodup_cons.mp h.nodup).1 hb

lemma Listed.link (h : c.Listed order) (hb : b ∉ order) (hne : b ≠ bhead) : (c.link b).Listed (b :: order) := by
  have hnodup : (bhead :: ([] ++ b :: order)).Nodup := by
    have := h.nodup
    simp only [List.nil_append, List.nodup_cons, List.mem_cons] at this ⊢
    exact ⟨fun hor => hor.elim (fun heq => hne heq.symm) this.1, hb, this.2⟩
  have hfirst : c.next bhead = order.headD bhead := h.ring.nx_nil
  have hnext : Function.update c.next b (c.next bhead) bhead = order.headD bhead := by
    rw [Function.update_of_ne hne.symm, hfirst]
  have hheadne : b ≠ order.headD bhead := by
    cases order with
    | nil => exact hne
    | cons a order =>
      rintro rfl
      exact hb (by simp)
  refine ⟨IsRing.link hnodup h.ring ?_ ?_ (fun x hx => ?_) (fun x hx => ?_), hnodup⟩
  · dsimp only [Bcache.link]
    rw [Function.update_of_ne hne, Function.update_self, hfirst]
  · dsimp only [Bcache.link]
    rw [hnext, Function.update_of_ne hheadne, Function.update_self]
    rfl
  · have hxb : x ≠ b := by
      rintro rfl
      exact (List.mem_cons.mp hx).elim hne hb
    change Function.update (Function.update c.next b (c.next bhead)) bhead b x = Function.update c.next bhead b x
    by_cases hxh : x = bhead
    · rw [hxh, Function.update_self, Function.update_self]
    · rw [Function.update_of_ne hxh, Function.update_of_ne hxb, Function.update_of_ne hxh]
  · have hxb : x ≠ b := by
      rintro rfl
      exact (List.mem_cons.mp hx).elim hne hb
    dsimp only [Bcache.link]
    rw [hnext]
    by_cases hxh : x = order.headD bhead
    · rw [hxh, Function.update_self, Function.update_self]
    · rw [Function.update_of_ne hxh, Function.update_of_ne hxb, Function.update_of_ne hxh]

lemma Listed.unlink {l r : List Nat} (h : c.Listed (l ++ b :: r)) : (c.unlink b).Listed (l ++ r) := by
  have hnodup : (bhead :: (l ++ r)).Nodup :=
    h.nodup.sublist (List.Sublist.cons_cons bhead (List.Sublist.append_left (by simp) l))
  have hne : b ≠ c.next b := by
    rw [h.ring.nx_eq]
    have hall := h.nodup
    cases r with
    | nil => exact h.ne_bhead (by simp)
    | cons a r =>
      rintro rfl
      simp [List.nodup_append] at hall
  have hprev : Function.update c.prev (c.next b) (c.prev b) b = c.prev b := Function.update_of_ne hne _ _
  refine ⟨IsRing.unlink h.nodup h.ring (fun x _ => ?_) (fun x _ => rfl), hnodup⟩
  dsimp only [Bcache.unlink]
  rw [hprev]

lemma listed_binit (c : Bcache α) : c.binit.Listed (List.range nbuf).reverse ∧ c.binit.buf = c.buf := by
  unfold binit
  generalize hc : (⟨c.buf, Function.update c.next bhead bhead, Function.update c.prev bhead bhead⟩ : Bcache α) = c₀
  have hbuf : c₀.buf = c.buf := by rw [← hc]
  have hall : ∀ n ≤ nbuf, ((List.range n).foldl Bcache.link c₀).Listed (List.range n).reverse ∧
      ((List.range n).foldl Bcache.link c₀).buf = c.buf := by
    intro n hn
    induction n with
    | zero =>
      refine ⟨⟨?_, by simp⟩, hbuf⟩
      rw [← hc]
      exact isRing_nil.mpr ⟨by simp, by simp⟩
    | succ n ih =>
      obtain ⟨hlisted, hsame⟩ := ih (by omega)
      rw [List.range_succ, List.foldl_append, List.reverse_append]
      refine ⟨hlisted.link (by simp) ?_, hsame⟩
      unfold bhead
      omega
  exact hall nbuf (le_refl _)

/-- Along the list, the search finds the first buffer with `p`. -/
lemma Listed.scan_next {p : Nat → Bool} (h : c.Listed order) :
    scan c.next p (order.length + 1) (c.next bhead) = order.find? p := by
  have hall : ∀ r l, order = l ++ r → scan c.next p (r.length + 1) (r.headD bhead) = r.find? p := by
    intro r
    induction r with
    | nil =>
      intro l _
      simp [scan]
    | cons b r ih =>
      intro l hl
      have hnext : c.next b = r.headD bhead := by
        have hring := h.ring
        rw [hl] at hring
        exact hring.nx_eq
      have hrest := ih (l ++ [b]) (by simp [hl])
      rw [List.find?_cons, List.headD_cons, List.length_cons, scan, if_neg (h.ne_bhead (by simp [hl])), hnext, hrest]
      cases p b <;> rfl
  rw [h.ring.nx_nil]
  exact hall order [] rfl

/-- And backwards the last. -/
lemma Listed.scan_prev {p : Nat → Bool} (h : c.Listed order) :
    scan c.prev p (order.length + 1) (c.prev bhead) = order.reverse.find? p := by
  have hall : ∀ l r, order = l ++ r → scan c.prev p (l.length + 1) (l.getLastD bhead) = l.reverse.find? p := by
    intro l
    induction l using List.reverseRecOn with
    | nil =>
      intro r _
      simp [scan]
    | append_singleton l b ih =>
      intro r hr
      have hprev : c.prev b = l.getLastD bhead := by
        have hring := h.ring
        rw [hr, List.append_assoc] at hring
        exact hring.pv_eq
      have hrest := ih (b :: r) (by simp [hr])
      rw [List.reverse_append, List.reverse_singleton, List.singleton_append, List.find?_cons, List.getLastD_concat,
        List.length_append, List.length_singleton, scan, if_neg (h.ne_bhead (by simp [hr])), hprev, hrest]
      cases p b <;> rfl
  rw [h.ring.pv_nil]
  exact hall order [] (by simp)

/-- What `bget` does: it finds the block, or it recycles a buffer that nobody refers to. -/
lemma Listed.bget {k : BlockId} (h : c.Listed order) (hlength : order.length = nbuf)
    (hget : c.bget k.1 k.2 = some (b, c')) :
    b ∈ order ∧
      ((c.buf b).block = k ∧ c' = c.setBuf b { c.buf b with refcnt := u32 ((c.buf b).refcnt + 1) } ∨
        (∀ b' ∈ order, (c.buf b').block ≠ k) ∧ (c.buf b).refcnt = 0 ∧
          c' = c.setBuf b { c.buf b with dev := k.1, blockno := k.2, valid := false, refcnt := 1 }) := by
  unfold Bcache.bget at hget
  rw [← hlength, h.scan_next, h.scan_prev] at hget
  split at hget
  · next b₁ hfind =>
    obtain ⟨rfl, rfl⟩ := Prod.mk.inj (Option.some.inj hget)
    have hmatch := List.find?_some hfind
    simp only [Bool.and_eq_true, beq_iff_eq] at hmatch
    exact ⟨List.mem_of_find?_eq_some hfind, .inl ⟨Prod.ext hmatch.1 hmatch.2, rfl⟩⟩
  · next hnone =>
    split at hget
    · next b₁ hfind =>
      obtain ⟨rfl, rfl⟩ := Prod.mk.inj (Option.some.inj hget)
      have hmatch := List.find?_some hfind
      rw [beq_iff_eq] at hmatch
      refine ⟨List.mem_reverse.mp (List.mem_of_find?_eq_some hfind), .inr ⟨fun b' hb' heq => ?_, hmatch, rfl⟩⟩
      have hno := List.find?_eq_none.mp hnone b' hb'
      rw [← heq] at hno
      simp [Buf.block] at hno
    · cases hget

lemma Listed.setBuf {v : Buf α} (h : c.Listed order) : (c.setBuf b v).Listed order := ⟨h.ring, h.nodup⟩

/-- A buffer that is let go comes to the front. -/
lemma Listed.brelse (h : c.Listed order) (hb : b ∈ order) :
    ∃ order', (c.brelse b).Listed order' ∧ order'.Perm order := by
  unfold Bcache.brelse
  dsimp only
  split
  · obtain ⟨l, r, rfl⟩ := List.append_of_mem hb
    have hnodup := (List.nodup_cons.mp h.nodup).2
    have hout : b ∉ l ++ r := (List.nodup_middle.mp hnodup |> List.nodup_cons.mp).1
    exact ⟨b :: (l ++ r), h.setBuf.unlink.link hout (h.ne_bhead hb), List.perm_middle.symm⟩
  · exact ⟨order, h.setBuf, List.Perm.refl _⟩

lemma brelse_buf (c : Bcache α) (b : Nat) :
    (c.brelse b).buf = Function.update c.buf b { c.buf b with refcnt := u32 ((c.buf b).refcnt + 2 ^ 32 - 1) } := by
  unfold Bcache.brelse
  dsimp only
  split
  · rfl
  · rfl

end Bcache

/-! ### Histories -/

section History

variable {α : Type}

/-- A reference to the block is taken. -/
def BioEvent.takes (k : BlockId) : BioEvent α → Bool
  | .bget _ k' | .bpin k' => k' == k
  | _ => false

/-- A reference to the block is dropped. -/
def BioEvent.drops (k : BlockId) : BioEvent α → Bool
  | .brelse _ k' | .bunpin k' => k' == k
  | _ => false

/-- The `bread`s and pins of a block that are outstanding. -/
def outstandingRefs (k : BlockId) (l : List (BioEvent α)) : Int :=
  l.countP (BioEvent.takes k) - l.countP (BioEvent.drops k)

/-- The block was last modified to `v`, and has been held or pinned at all times since. -/
def KeptSince (k : BlockId) (l : List (BioEvent α)) (v : α) : Prop :=
  ∃ p id q, l = p ++ .store id k v :: q ∧ (∀ id' v', .store id' k v' ∉ q) ∧
    ∀ q', q' <+: q → 0 < outstandingRefs k (p ++ .store id k v :: q')

/-- The cached copy may differ from the disk: the block was modified, or its number written under
another device, and it has not been written since. -/
def Unwritten (k : BlockId) (l : List (BioEvent α)) : Prop :=
  ∃ p e q, l = p ++ e :: q ∧ (∀ id, .bwrite id k ∉ q) ∧
    ((∃ id v, e = .store id k v) ∨ ∃ id k', e = .bwrite id k' ∧ k' ≠ k ∧ k'.2 = k.2)

variable {l : List (BioEvent α)} {e : BioEvent α} {k : BlockId} {v : α}

lemma outstandingRefs_concat (k : BlockId) (l : List (BioEvent α)) (e : BioEvent α) :
    outstandingRefs k (l ++ [e]) =
      outstandingRefs k l + (if e.takes k then 1 else 0) - (if e.drops k then 1 else 0) := by
  unfold outstandingRefs
  rw [List.countP_append, List.countP_append, List.countP_singleton, List.countP_singleton]
  split <;> split <;> push_cast <;> omega

lemma KeptSince.refs_pos (h : KeptSince k l v) : 0 < outstandingRefs k l := by
  obtain ⟨p, id, q, rfl, -, hrefs⟩ := h
  exact hrefs q (List.prefix_refl q)

/-- The last event is the modification, or it was before. -/
lemma KeptSince.of_concat (h : KeptSince k (l ++ [e]) v) :
    (∃ id, e = .store id k v) ∨ (∀ id v', e ≠ .store id k v') ∧ KeptSince k l v := by
  obtain ⟨p, id, q, hl, hlast, hrefs⟩ := h
  rcases List.eq_nil_or_concat q with rfl | ⟨q, e', rfl⟩
  · obtain ⟨-, rfl⟩ := List.append_singleton_inj.mp hl
    exact .inl ⟨id, rfl⟩
  · rw [List.concat_eq_append] at hl hlast hrefs
    rw [← List.cons_append, ← List.append_assoc] at hl
    obtain ⟨rfl, rfl⟩ := List.append_singleton_inj.mp hl
    refine .inr ⟨?_, p, id, q, rfl, fun id' v' hmem => hlast id' v' (by simp [hmem]), fun q' hq' => ?_⟩
    · rintro id' v' rfl
      exact hlast id' v' (by simp)
    · exact hrefs q' (hq'.trans (List.prefix_append _ _))

lemma Unwritten.concat (h : Unwritten k l) (he : ∀ id, e ≠ .bwrite id k) : Unwritten k (l ++ [e]) := by
  obtain ⟨p, e', q, rfl, hlast, he'⟩ := h
  refine ⟨p, e', q ++ [e], by simp, fun id hmem => ?_, he'⟩
  rcases List.mem_append.mp hmem with hmem | hmem
  · exact hlast id hmem
  · exact he id (List.mem_singleton.mp hmem).symm

/-- Nothing has happened to the block, or to one of its number, since it was last written. -/
lemma not_unwritten {l₁ l₂ : List (BioEvent α)} {id : Nat}
    (h : ∀ e ∈ l₂, (∀ id v, e ≠ .store id k v) ∧ ∀ id k', e = .bwrite id k' → k' = k ∨ k'.2 ≠ k.2) :
    ¬ Unwritten k (l₁ ++ .bwrite id k :: l₂) := by
  rintro ⟨p, e, q, heq, hq, he⟩
  have hnot : ∀ e ∈ (BioEvent.bwrite id k :: l₂ : List (BioEvent α)),
      ¬ ((∃ id v, e = .store id k v) ∨ ∃ id k', e = .bwrite id k' ∧ k' ≠ k ∧ k'.2 = k.2) := by
    intro e he
    rcases List.mem_cons.mp he with rfl | he
    · rintro (⟨_, _, ⟨⟩⟩ | ⟨_, k', heq', hne, -⟩)
      cases heq'
      exact hne rfl
    · rintro (⟨id', v, rfl⟩ | ⟨id', k', rfl, hne, heq'⟩)
      · exact (h _ he).1 id' v rfl
      · exact ((h _ he).2 id' k' rfl).elim hne fun hno => hno heq'
  -- the modification lies before the write, which lies behind it then, or among what came after
  rcases List.append_eq_append_iff.mp heq with ⟨m, -, hm⟩ | ⟨m, -, hm⟩
  · exact hnot e (by rw [hm]; simp) he
  · cases m with
    | nil =>
      rw [List.nil_append] at hm
      exact hnot e (by rw [← hm]; simp) he
    | cons x m =>
      rw [List.cons_append, List.cons.injEq] at hm
      exact hq id (by rw [hm.2]; simp)

lemma unwritten_store (l : List (BioEvent α)) (id : Nat) (k : BlockId) (v : α) : Unwritten k (l ++ [.store id k v]) :=
  ⟨l, _, [], rfl, by simp, .inl ⟨id, v, rfl⟩⟩

lemma unwritten_bwrite {k' : BlockId} (l : List (BioEvent α)) (id : Nat) (hne : k' ≠ k) (hnum : k'.2 = k.2) :
    Unwritten k (l ++ [.bwrite id k']) :=
  ⟨l, _, [], rfl, by simp, .inr ⟨id, k', rfl, hne, hnum⟩⟩

end History

/-! ### References -/

section References

variable {α : Type} {c c' : Bcache α} {l : List (BioEvent α)} {e : BioEvent α} {b : Nat} {k : BlockId}

/-- Each block is in one buffer at most, and the counts are right. -/
structure Bcache.Books (c : Bcache α) (l : List (BioEvent α)) : Prop where
  unique : ∀ b b', b < nbuf → b' < nbuf → 1 ≤ (c.buf b).dev → (c.buf b').block = (c.buf b).block → b' = b
  idle : ∀ b, b < nbuf → (c.buf b).dev = 0 → (c.buf b).refcnt = 0
  cached : ∀ b, b < nbuf → outstandingRefs (c.buf b).block l = (c.buf b).refcnt
  uncached : ∀ k, (∀ b, b < nbuf → (c.buf b).block ≠ k) → outstandingRefs k l = 0

/-- One count changes. -/
lemma Bcache.Books.count (h : c.Books l) (hb : b < nbuf) (hdev : 1 ≤ (c.buf b).dev)
    (hblock : ∀ b', (c'.buf b').block = (c.buf b').block)
    (hother : ∀ b', b' ≠ b → (c'.buf b').refcnt = (c.buf b').refcnt)
    (hthis : outstandingRefs (c.buf b).block (l ++ [e]) = (c'.buf b).refcnt)
    (hrest : ∀ k, k ≠ (c.buf b).block → outstandingRefs k (l ++ [e]) = outstandingRefs k l) :
    c'.Books (l ++ [e]) := by
  have hdevs : ∀ b', (c'.buf b').dev = (c.buf b').dev := fun b' => congrArg Prod.fst (hblock b')
  refine ⟨fun b₁ b₂ hb₁ hb₂ hdev₁ heq => ?_, fun b₁ hb₁ hzero => ?_, fun b₁ hb₁ => ?_, fun k hk => ?_⟩
  · rw [hdevs] at hdev₁
    rw [hblock, hblock] at heq
    exact h.unique b₁ b₂ hb₁ hb₂ hdev₁ heq
  · rw [hdevs] at hzero
    have hne : b₁ ≠ b := by
      rintro rfl
      omega
    rw [hother b₁ hne]
    exact h.idle b₁ hb₁ hzero
  · rw [hblock]
    by_cases heq : b₁ = b
    · rw [heq]
      exact hthis
    · rw [hrest _ fun hsame => heq (h.unique b b₁ hb hb₁ hdev hsame), hother b₁ heq]
      exact h.cached b₁ hb₁
  · have hall : ∀ b', b' < nbuf → (c.buf b').block ≠ k := fun b' hb' => hblock b' ▸ hk b' hb'
    rw [hrest k (hall b hb).symm]
    exact h.uncached k hall

/-- A buffer that nobody refers to is given to another block. -/
lemma Bcache.Books.recycle {id : Nat} {v : Buf α} (h : c.Books l) (hb : b < nbuf) (hdev : 1 ≤ k.1)
    (hnone : ∀ b', b' < nbuf → (c.buf b').block ≠ k) (hzero : (c.buf b).refcnt = 0) (hblock : v.block = k)
    (hone : v.refcnt = 1) : (c.setBuf b v).Books (l ++ [.bget id k]) := by
  have hself : (c.setBuf b v).buf b = v := Function.update_self _ _ _
  have hne : ∀ b', b' ≠ b → (c.setBuf b v).buf b' = c.buf b' := fun b' hb' => Function.update_of_ne hb' _ _
  have hdev' : v.dev = k.1 := congrArg Prod.fst hblock
  have hrefs : ∀ k', k' ≠ k → outstandingRefs k' (l ++ [.bget id k]) = outstandingRefs k' l := by
    intro k' hk'
    rw [outstandingRefs_concat]
    simp [BioEvent.takes, BioEvent.drops, Ne.symm hk']
  refine ⟨fun b₁ b₂ hb₁ hb₂ hdev₁ heq => ?_, fun b₁ hb₁ hdev₁ => ?_, fun b₁ hb₁ => ?_, fun k' hk' => ?_⟩
  · by_cases h₁ : b₁ = b
    · subst h₁
      by_contra hb'
      rw [hself, hne b₂ hb', hblock] at heq
      exact hnone b₂ hb₂ heq
    · by_cases h₂ : b₂ = b
      · subst h₂
        rw [hself, hne b₁ h₁, hblock] at heq
        exact absurd heq.symm (hnone b₁ hb₁)
      · rw [hne b₁ h₁, hne b₂ h₂] at heq
        rw [hne b₁ h₁] at hdev₁
        exact h.unique b₁ b₂ hb₁ hb₂ hdev₁ heq
  · by_cases h₁ : b₁ = b
    · subst h₁
      rw [hself] at hdev₁
      omega
    · rw [hne b₁ h₁] at hdev₁ ⊢
      exact h.idle b₁ hb₁ hdev₁
  · by_cases h₁ : b₁ = b
    · subst h₁
      rw [hself, hblock, hone, outstandingRefs_concat, h.uncached k hnone]
      simp [BioEvent.takes, BioEvent.drops]
    · rw [hne b₁ h₁, hrefs _ (hnone b₁ hb₁)]
      exact h.cached b₁ hb₁
  · have hk : k' ≠ k := by
      rintro rfl
      exact hk' b hb (by rw [hself, hblock])
    rw [hrefs k' hk]
    by_cases hwas : (c.buf b).block = k'
    · rw [← hwas, h.cached b hb, hzero]
      rfl
    · refine h.uncached k' fun b' hb' => ?_
      by_cases heq : b' = b
      · rw [heq]
        exact hwas
      · rw [← hne b' heq]
        exact hk' b' hb'

/-- The block and the buffer that a call refers to. -/
def BioCall.ref : BioCall → Option (BlockId × Nat)
  | .waiting k b | .locked k b | .holding k b | .releasing k b => some (k, b)
  | .fresh | .done => none

/-- The buffer that a call refers to. -/
def BioCall.buf (call : BioCall) : Option Nat := call.ref.map Prod.snd

/-- Calls refer to the buffers of their blocks, and the counts are those of the calls and pins. -/
structure Bio.Users (s : Bio α) : Prop where
  calls : ∀ id k b, (s.calls id).ref = some (k, b) → b < nbuf ∧ (s.cache.buf b).block = k ∧ 1 ≤ k.1
  pins : ∀ b, 0 < s.pins b → b < nbuf
  holders : ∃ A : Finset Nat, (∀ id, id ∉ A → (s.calls id).ref = none) ∧
    ∀ b, b < nbuf → (s.cache.buf b).refcnt = Pointers.count A (fun id => (s.calls id).buf) b + s.pins b

namespace Bio.Users

variable {s : Bio α} {id : Nat} {call : BioCall}

lemma refcnt_pos (h : s.Users) (hcall : (s.calls id).ref = some (k, b)) : 0 < (s.cache.buf b).refcnt := by
  obtain ⟨A, hA, hcount⟩ := h.holders
  have hid : id ∈ A := by
    by_contra hid
    rw [hA id hid] at hcall
    cases hcall
  have hpos : 0 < Pointers.count A (fun id => (s.calls id).buf) b :=
    Pointers.count_pos hid (by simp [BioCall.buf, hcall])
  rw [hcount b (h.calls id k b hcall).1]
  omega

lemma refcnt_pos_of_pin (h : s.Users) (hpin : 0 < s.pins b) : 0 < (s.cache.buf b).refcnt := by
  obtain ⟨A, -, hcount⟩ := h.holders
  rw [hcount b (h.pins b hpin)]
  omega

/-- One call goes on, to refer to another buffer or none. -/
lemma move {d : Nat → α} (h : s.Users)
    (hblock : ∀ b, 0 < (s.cache.buf b).refcnt → (c'.buf b).block = (s.cache.buf b).block)
    (hcall : ∀ k b, call.ref = some (k, b) → b < nbuf ∧ (c'.buf b).block = k ∧ 1 ≤ k.1)
    (hcount : ∀ b, b < nbuf → (c'.buf b).refcnt + (if (s.calls id).buf = some b then 1 else 0) =
      (s.cache.buf b).refcnt + (if call.buf = some b then 1 else 0)) :
    Bio.Users { s with cache := c', disk := d, calls := Function.update s.calls id call } := by
  refine ⟨fun id' k b hid' => ?_, h.pins, ?_⟩
  · dsimp only at hid'
    by_cases heq : id' = id
    · subst heq
      rw [Function.update_self] at hid'
      exact hcall k b hid'
    · rw [Function.update_of_ne heq] at hid'
      obtain ⟨hb, hk, hdev⟩ := h.calls id' k b hid'
      exact ⟨hb, (hblock b (h.refcnt_pos hid')).trans hk, hdev⟩
  · obtain ⟨A, hA, hrefs⟩ := h.holders
    refine ⟨insert id A, fun id' hid' => ?_, fun b hb => ?_⟩
    · rw [Finset.mem_insert, not_or] at hid'
      dsimp only
      rw [Function.update_of_ne hid'.1]
      exact hA id' hid'.2
    · have hgrow : Pointers.count (insert id A) (fun id => (s.calls id).buf) b =
          Pointers.count A (fun id => (s.calls id).buf) b := by
        by_cases hid : id ∈ A
        · rw [Finset.insert_eq_of_mem hid]
        · exact Pointers.count_insert (by simp [BioCall.buf, hA id hid])
      have hupdate := Pointers.count_update (g := fun id => (s.calls id).buf) (Finset.mem_insert_self id A) call.buf b
      have hfun : Function.update (fun id => (s.calls id).buf) id call.buf =
          fun id' => (Function.update s.calls id call id').buf :=
        (Function.comp_update BioCall.buf s.calls id call).symm
      rw [hgrow, hfun] at hupdate
      have hthis := hcount b hb
      rw [hrefs b hb] at hthis
      dsimp only at hupdate hthis ⊢
      omega

/-- The pins of one buffer change. -/
lemma pin {n : Nat} (h : s.Users) (hb : b < nbuf) (hblock : ∀ b', (c'.buf b').block = (s.cache.buf b').block)
    (hother : ∀ b', b' ≠ b → (c'.buf b').refcnt = (s.cache.buf b').refcnt)
    (hthis : (c'.buf b).refcnt + s.pins b = (s.cache.buf b).refcnt + n) :
    Bio.Users { s with cache := c', pins := Function.update s.pins b n } := by
  obtain ⟨A, hA, hrefs⟩ := h.holders
  refine ⟨fun id k b' hid => ?_, fun b' hb' => ?_, A, hA, fun b' hb' => ?_⟩
  · obtain ⟨hb', hk, hdev⟩ := h.calls id k b' hid
    exact ⟨hb', (hblock b').trans hk, hdev⟩
  · by_cases heq : b' = b
    · rw [heq]
      exact hb
    · refine h.pins b' ?_
      dsimp only at hb'
      rwa [Function.update_of_ne heq] at hb'
  · dsimp only
    by_cases heq : b' = b
    · subst heq
      rw [Function.update_self]
      have := hrefs b' hb'
      omega
    · rw [Function.update_of_ne heq, hother b' heq]
      exact hrefs b' hb'

end Bio.Users

end References

/-! ### Contents -/

section Contents

variable {α : Type} {s t : Bio α} {l : List (BioEvent α)} {e : BioEvent α}

/-- What the buffers hold. -/
structure Bio.Contents (s : Bio α) (l : List (BioEvent α)) : Prop where
  written : ∀ b, b < nbuf → 1 ≤ (s.cache.buf b).dev → (s.cache.buf b).valid → ¬ Unwritten (s.cache.buf b).block l →
    (s.cache.buf b).data = s.disk (s.cache.buf b).blockno
  kept : ∀ k v, KeptSince k l v → ∃ b, b < nbuf ∧ (s.cache.buf b).block = k ∧ (s.cache.buf b).valid ∧
    (s.cache.buf b).data = v

/-- Buffers that are as before, or recycled or filled. -/
lemma Bio.Contents.keep (h : s.Contents l) (hdisk : t.disk = s.disk)
    (hstore : ∀ id k v, e ≠ .store id k v) (hwrite : ∀ id k, e ≠ .bwrite id k)
    (hsame : ∀ b, b < nbuf → (t.cache.buf b).valid → ((t.cache.buf b).block = (s.cache.buf b).block ∧
        (s.cache.buf b).valid ∧ (t.cache.buf b).data = (s.cache.buf b).data) ∨
      (t.cache.buf b).data = s.disk (t.cache.buf b).blockno)
    (hkept : ∀ k v, KeptSince k l v → ∀ b, b < nbuf → (s.cache.buf b).block = k → (s.cache.buf b).valid →
      (t.cache.buf b).block = k ∧ (t.cache.buf b).valid ∧ (t.cache.buf b).data = (s.cache.buf b).data) :
    t.Contents (l ++ [e]) := by
  refine ⟨fun b hb hdev hvalid hclean => ?_, fun k v hk => ?_⟩
  · rw [hdisk]
    rcases hsame b hb hvalid with ⟨hblock, hwas, hdata⟩ | hload
    · have hdev' : (t.cache.buf b).dev = (s.cache.buf b).dev := congrArg Prod.fst hblock
      have hblockno : (t.cache.buf b).blockno = (s.cache.buf b).blockno := congrArg Prod.snd hblock
      rw [hdata, hblockno]
      rw [hdev'] at hdev
      rw [hblock] at hclean
      exact h.written b hb hdev hwas fun hold => hclean (hold.concat fun id => hwrite id _)
    · exact hload
  · rcases hk.of_concat with ⟨id, rfl⟩ | ⟨-, hold⟩
    · exact absurd rfl (hstore id k v)
    · obtain ⟨b, hb, hblock, hvalid, hdata⟩ := h.kept k v hold
      obtain ⟨hblock', hvalid', hdata'⟩ := hkept k v hold b hb hblock hvalid
      exact ⟨b, hb, hblock', hvalid', hdata'.trans hdata⟩

/-- Nothing changes but locks, links and counts. -/
lemma Bio.Contents.same (h : s.Contents l) (hdisk : t.disk = s.disk)
    (hstore : ∀ id k v, e ≠ .store id k v) (hwrite : ∀ id k, e ≠ .bwrite id k)
    (hsame : ∀ b, (t.cache.buf b).block = (s.cache.buf b).block ∧ (t.cache.buf b).valid = (s.cache.buf b).valid ∧
      (t.cache.buf b).data = (s.cache.buf b).data) : t.Contents (l ++ [e]) := by
  refine h.keep hdisk hstore hwrite (fun b _ hvalid => ?_) (fun k v _ b _ hblock hvalid => ?_)
  · obtain ⟨hblock, hvalid', hdata⟩ := hsame b
    rw [hvalid'] at hvalid
    exact .inl ⟨hblock, hvalid, hdata⟩
  · obtain ⟨hblock', hvalid', hdata⟩ := hsame b
    rw [hvalid']
    exact ⟨hblock'.trans hblock, hvalid, hdata⟩

end Contents

/-! ### Runs -/

structure Bio.Inv {α : Type} (s : Bio α) (l : List (BioEvent α)) : Prop where
  list : ∃ order, s.cache.Listed order ∧ order.Perm (List.range nbuf)
  books : s.cache.Books l
  users : s.Users
  held : ∀ id k b, s.calls id = .holding k b → (s.cache.buf b).valid
  contents : s.Contents l

namespace Bio

variable {α : Type} {s t : Bio α} {l : List (BioEvent α)} {e : BioEvent α} {id b : Nat} {k : BlockId}

/-- No count reaches `2 ^ 32`. -/
def Bounded (l : List (BioEvent α)) : Prop := ∀ p, p <+: l → ∀ k, outstandingRefs k p < 2 ^ 32

lemma Bounded.of_concat (h : Bounded (l ++ [e])) : Bounded l := fun p hp => h p (hp.trans (List.prefix_append _ _))

lemma u32_pred {n : Nat} (hpos : 0 < n) (hn : n < 2 ^ 32) : u32 (n + 2 ^ 32 - 1) = n - 1 := by
  unfold u32
  omega

/-- An event that is no reference. -/
lemma outstandingRefs_neutral (htakes : e.takes k = false) (hdrops : e.drops k = false) :
    outstandingRefs k (l ++ [e]) = outstandingRefs k l := by
  rw [outstandingRefs_concat, htakes, hdrops]
  simp

namespace Inv

lemma refcnt_lt (h : s.Inv l) (hl : Bounded l) (hb : b < nbuf) : (s.cache.buf b).refcnt < 2 ^ 32 := by
  have := hl l (List.prefix_refl l) (s.cache.buf b).block
  rw [h.books.cached b hb] at this
  exact_mod_cast this

lemma mem_order {order : List Nat} (hperm : order.Perm (List.range nbuf)) : b ∈ order ↔ b < nbuf := by
  rw [hperm.mem_iff, List.mem_range]

/-- A call goes on with its buffer; blocks and counts stay. -/
lemma neutral (h : s.Inv l) (hcalls : ∀ id, (t.calls id).ref = (s.calls id).ref) (hpins : t.pins = s.pins)
    (hnext : t.cache.next = s.cache.next) (hprev : t.cache.prev = s.cache.prev)
    (hblock : ∀ b, (t.cache.buf b).block = (s.cache.buf b).block)
    (hrefcnt : ∀ b, (t.cache.buf b).refcnt = (s.cache.buf b).refcnt)
    (htakes : ∀ k, e.takes k = false) (hdrops : ∀ k, e.drops k = false)
    (hheld : ∀ id k b, t.calls id = .holding k b → (t.cache.buf b).valid) (hcontents : t.Contents (l ++ [e])) :
    t.Inv (l ++ [e]) := by
  obtain ⟨order, hlisted, hperm⟩ := h.list
  have hrefs : ∀ k, outstandingRefs k (l ++ [e]) = outstandingRefs k l :=
    fun k => outstandingRefs_neutral (htakes k) (hdrops k)
  refine ⟨⟨order, ⟨?_, hlisted.nodup⟩, hperm⟩, ⟨fun b₁ b₂ hb₁ hb₂ hdev heq => ?_, fun b hb hdev => ?_,
    fun b hb => ?_, fun k hk => ?_⟩, ⟨fun id k b hid => ?_, ?_, ?_⟩, hheld, hcontents⟩
  · rw [hnext, hprev]
    exact hlisted.ring
  · rw [hblock, hblock] at heq
    rw [show (t.cache.buf b₁).dev = (s.cache.buf b₁).dev from congrArg Prod.fst (hblock b₁)] at hdev
    exact h.books.unique b₁ b₂ hb₁ hb₂ hdev heq
  · rw [show (t.cache.buf b).dev = (s.cache.buf b).dev from congrArg Prod.fst (hblock b)] at hdev
    rw [hrefcnt]
    exact h.books.idle b hb hdev
  · rw [hblock, hrefs, hrefcnt]
    exact h.books.cached b hb
  · rw [hrefs]
    exact h.books.uncached k fun b hb => hblock b ▸ hk b hb
  · rw [hcalls] at hid
    rw [hblock]
    exact h.users.calls id k b hid
  · rw [hpins]
    exact h.users.pins
  · obtain ⟨A, hA, hcount⟩ := h.users.holders
    refine ⟨A, fun id hid => ?_, fun b hb => ?_⟩
    · rw [hcalls]
      exact hA id hid
    · have hbufs : (fun id => (t.calls id).buf) = fun id => (s.calls id).buf := by
        funext id
        rw [BioCall.buf, BioCall.buf, hcalls]
      rw [hrefcnt, hpins, hbufs]
      exact hcount b hb

/-- The calls refer to what they did. -/
lemma ref_update {call : BioCall} (h : call.ref = (s.calls id).ref) (id' : Nat) :
    (Function.update s.calls id call id').ref = (s.calls id').ref := by
  by_cases heq : id' = id
  · rw [heq, Function.update_self, h]
  · rw [Function.update_of_ne heq]

/-- A call that is not one that holds goes on. -/
lemma held_update {call : BioCall} {c : Bcache α} (h : s.Inv l) (hcall : ∀ k b, call ≠ .holding k b)
    (hvalid : ∀ b, (s.cache.buf b).valid → 0 < (s.cache.buf b).refcnt → (c.buf b).valid) (id' : Nat) (k : BlockId)
    (b : Nat) (hid : Function.update s.calls id call id' = .holding k b) : (c.buf b).valid := by
  by_cases heq : id' = id
  · rw [heq, Function.update_self] at hid
    exact absurd hid (hcall k b)
  · rw [Function.update_of_ne heq] at hid
    have href : (s.calls id').ref = some (k, b) := by
      rw [hid]
      rfl
    exact hvalid b (h.held id' k b hid) (h.users.refcnt_pos href)

/-- The lock of a buffer changes hands. -/
lemma relock {call : BioCall} {lock : Option Nat} (h : s.Inv l) (href : call.ref = (s.calls id).ref)
    (hcall : ∀ k b, call ≠ .holding k b) (htakes : ∀ k, e.takes k = false) (hdrops : ∀ k, e.drops k = false)
    (hstore : ∀ id k v, e ≠ .store id k v) (hwrite : ∀ id k, e ≠ .bwrite id k) :
    Inv { s with
      cache := s.cache.setBuf b { s.cache.buf b with lock := lock }
      calls := Function.update s.calls id call } (l ++ [e]) := by
  have hproj := fun {β : Type} (f : Buf α → β) => @Bcache.setBuf_proj α β s.cache b
    { s.cache.buf b with lock := lock } f
  refine h.neutral (ref_update href) rfl rfl rfl (hproj Buf.block rfl) (hproj Buf.refcnt rfl) htakes hdrops ?_ ?_
  · exact h.held_update hcall fun b' hvalid _ => (hproj Buf.valid rfl b').trans hvalid
  · exact h.contents.same rfl hstore hwrite fun b' =>
      ⟨hproj Buf.block rfl b', hproj Buf.valid rfl b', hproj Buf.data rfl b'⟩

lemma store (h : s.Inv l) (hcall : s.calls id = .holding k b) (v : α) :
    Inv { s with cache := s.cache.setBuf b { s.cache.buf b with data := v } } (l ++ [.store id k v]) := by
  obtain ⟨hb, hk, hdev⟩ := h.users.calls id k b (by rw [hcall]; rfl)
  have hvalid := h.held id k b hcall
  have hproj := fun {β : Type} (f : Buf α → β) => @Bcache.setBuf_proj α β s.cache b
    { s.cache.buf b with data := v } f
  have hother : ∀ b', b' ≠ b → (s.cache.setBuf b { s.cache.buf b with data := v }).buf b' = s.cache.buf b' :=
    fun b' => Bcache.setBuf_of_ne _ _
  refine h.neutral (fun _ => rfl) rfl rfl rfl (hproj Buf.block rfl) (hproj Buf.refcnt rfl) (fun _ => rfl)
    (fun _ => rfl) (fun id' k' b' hid => (hproj Buf.valid rfl b').trans (h.held id' k' b' hid)) ?_
  refine ⟨fun b' hb' hdev' hvalid' hclean => ?_, fun k' v' hk' => ?_⟩
  · dsimp only at hdev' hvalid' hclean ⊢
    by_cases heq : b' = b
    · subst heq
      rw [Bcache.setBuf_self] at hclean
      exact absurd (hk ▸ unwritten_store l id _ v) hclean
    · rw [hother b' heq] at hdev' hvalid' hclean ⊢
      exact h.contents.written b' hb' hdev' hvalid' fun hold => hclean (hold.concat (by simp))
  · dsimp only
    rcases hk'.of_concat with ⟨id', hsame⟩ | ⟨hnot, hold⟩
    · cases hsame
      exact ⟨b, hb, (hproj Buf.block rfl b).trans hk, (hproj Buf.valid rfl b).trans hvalid, by rw [Bcache.setBuf_self]⟩
    · obtain ⟨b', hb', hblock, hvalid', hdata⟩ := h.contents.kept k' v' hold
      have hne : b' ≠ b := by
        rintro rfl
        obtain rfl : k' = k := hblock.symm.trans hk
        exact hnot id v rfl
      refine ⟨b', hb', ?_⟩
      rw [hother b' hne]
      exact ⟨hblock, hvalid', hdata⟩

lemma bwrite (h : s.Inv l) (hcall : s.calls id = .holding k b) :
    Inv { s with disk := Function.update s.disk (s.cache.buf b).blockno (s.cache.buf b).data }
      (l ++ [.bwrite id k]) := by
  obtain ⟨hb, hk, hdev⟩ := h.users.calls id k b (by rw [hcall]; rfl)
  refine h.neutral (fun _ => rfl) rfl rfl rfl (fun _ => rfl) (fun _ => rfl) (fun _ => rfl) (fun _ => rfl) h.held ?_
  refine ⟨fun b' hb' hdev' hvalid' hclean => ?_, fun k' v' hk' => ?_⟩
  · dsimp only at hdev' hvalid' hclean ⊢
    by_cases heq : b' = b
    · rw [heq, Function.update_self]
    · have hne : k ≠ (s.cache.buf b').block := by
        intro hsame
        exact heq (h.books.unique b b' hb hb' (by rw [← hk] at hdev; exact hdev) (hsame.symm.trans hk.symm))
      have hblockno : (s.cache.buf b').blockno ≠ (s.cache.buf b).blockno := by
        intro hnum
        exact hclean (unwritten_bwrite l id hne (by rw [← hk]; exact hnum.symm))
      rw [Function.update_of_ne hblockno]
      refine h.contents.written b' hb' hdev' hvalid' fun hold => hclean (hold.concat fun id' hid' => hne ?_)
      cases hid'
      rfl
  · rcases hk'.of_concat with ⟨id', hsame⟩ | ⟨-, hold⟩
    · cases hsame
    · exact h.contents.kept k' v' hold

lemma bread (h : s.Inv l) (hcall : s.calls id = .locked k b) (v : α) :
    Inv { s with cache := s.cache.fill s.disk b, calls := Function.update s.calls id (.holding k b) }
      (l ++ [.bread id k v]) := by
  have hupdate : ∀ id', (Function.update s.calls id (.holding k b) id').ref = (s.calls id').ref :=
    ref_update (by rw [hcall]; rfl)
  rcases s.cache.fill_cases s.disk b with ⟨hvalid, hfill⟩ | ⟨hinvalid, hfill⟩
  · rw [hfill]
    refine h.neutral hupdate rfl rfl rfl (fun _ => rfl) (fun _ => rfl) (fun _ => rfl) (fun _ => rfl) ?_ ?_
    · intro id' k' b' hid
      dsimp only at hid
      by_cases heq : id' = id
      · rw [heq, Function.update_self] at hid
        cases hid
        exact hvalid
      · rw [Function.update_of_ne heq] at hid
        exact h.held id' k' b' hid
    · exact h.contents.same rfl (by simp) (by simp) fun _ => ⟨rfl, rfl, rfl⟩
  · rw [hfill]
    have hproj := fun {β : Type} (f : Buf α → β) => @Bcache.setBuf_proj α β s.cache b
      { s.cache.buf b with data := s.disk (s.cache.buf b).blockno, valid := true } f
    have hother : ∀ b', b' ≠ b → (s.cache.setBuf b
        { s.cache.buf b with data := s.disk (s.cache.buf b).blockno, valid := true }).buf b' = s.cache.buf b' :=
      fun b' => Bcache.setBuf_of_ne _ _
    have hvalid : ∀ b', (s.cache.buf b').valid → (s.cache.buf b').valid ∧ b' ≠ b := by
      intro b' hb'
      refine ⟨hb', ?_⟩
      rintro rfl
      rw [hinvalid] at hb'
      cases hb'
    refine h.neutral hupdate rfl rfl rfl (hproj Buf.block rfl) (hproj Buf.refcnt rfl) (fun _ => rfl) (fun _ => rfl)
      ?_ ?_
    · intro id' k' b' hid
      dsimp only at hid ⊢
      by_cases heq : id' = id
      · rw [heq, Function.update_self] at hid
        cases hid
        rw [Bcache.setBuf_self]
      · rw [Function.update_of_ne heq] at hid
        obtain ⟨hvalid', hne⟩ := hvalid b' (h.held id' k' b' hid)
        rw [hother b' hne]
        exact hvalid'
    · refine h.contents.keep rfl (by simp) (by simp) (fun b' _ hvalid' => ?_) fun k' v' _ b' _ hblock hvalid' => ?_
      · dsimp only at hvalid' ⊢
        by_cases heq : b' = b
        · rw [heq, Bcache.setBuf_self]
          exact .inr rfl
        · rw [hother b' heq] at hvalid' ⊢
          exact .inl ⟨rfl, hvalid', rfl⟩
      · obtain ⟨hvalid'', hne⟩ := hvalid b' hvalid'
        dsimp only
        rw [hother b' hne]
        exact ⟨hblock, hvalid'', rfl⟩

/-- One count is set; everything else of the buffers stays. -/
lemma proj_of_recount {β : Type} {c : Bcache α} {n : Nat} (f : Buf α → β)
    (hbuf : c.buf = Function.update s.cache.buf b { s.cache.buf b with refcnt := n })
    (hf : f { s.cache.buf b with refcnt := n } = f (s.cache.buf b)) (b' : Nat) : f (c.buf b') = f (s.cache.buf b') := by
  rw [hbuf]
  by_cases heq : b' = b
  · rw [heq, Function.update_self, hf]
  · rw [Function.update_of_ne heq]

lemma block_of_recount {c : Bcache α} {n : Nat}
    (hbuf : c.buf = Function.update s.cache.buf b { s.cache.buf b with refcnt := n }) (b' : Nat) :
    (c.buf b').block = (s.cache.buf b').block :=
  proj_of_recount Buf.block hbuf rfl b'

lemma refcnt_of_recount {c : Bcache α} {n : Nat}
    (hbuf : c.buf = Function.update s.cache.buf b { s.cache.buf b with refcnt := n }) :
    (c.buf b).refcnt = n ∧ ∀ b', b' ≠ b → (c.buf b').refcnt = (s.cache.buf b').refcnt := by
  rw [hbuf]
  exact ⟨by rw [Function.update_self], fun b' hne => by rw [Function.update_of_ne hne]⟩

/-- The count of one buffer changes, and with it what refers to it. -/
lemma recount {c : Bcache α} {n : Nat} (h : s.Inv l) (hb : b < nbuf) (hdev : 1 ≤ (s.cache.buf b).dev)
    (hbuf : c.buf = Function.update s.cache.buf b { s.cache.buf b with refcnt := n })
    (hlist : ∃ order, c.Listed order ∧ order.Perm (List.range nbuf))
    (hthis : outstandingRefs (s.cache.buf b).block (l ++ [e]) = n)
    (hrest : ∀ k, k ≠ (s.cache.buf b).block → outstandingRefs k (l ++ [e]) = outstandingRefs k l)
    (hstore : ∀ id k v, e ≠ .store id k v) (hwrite : ∀ id k, e ≠ .bwrite id k)
    (hcache : t.cache = c) (hdisk : t.disk = s.disk) (husers : t.Users)
    (hheld : ∀ id k b, t.calls id = .holding k b → s.calls id = .holding k b) : t.Inv (l ++ [e]) := by
  obtain ⟨hself, hother⟩ := refcnt_of_recount hbuf
  subst hcache
  refine ⟨hlist, ?_, husers, fun id k b' hid => ?_, ?_⟩
  · refine h.books.count hb hdev (block_of_recount hbuf) hother ?_ hrest
    rw [hself]
    exact hthis
  · exact (proj_of_recount Buf.valid hbuf rfl b').trans (h.held id k b' (hheld id k b' hid))
  · exact h.contents.same hdisk hstore hwrite fun b' =>
      ⟨block_of_recount hbuf b', proj_of_recount Buf.valid hbuf rfl b', proj_of_recount Buf.data hbuf rfl b'⟩

/-- The counts after a reference is dropped, and after one is taken. -/
lemma drop_refs (h : s.Inv l) (hb : b < nbuf) (hl : Bounded l) (hpos : 0 < (s.cache.buf b).refcnt)
    (htakes : ∀ k, e.takes k = false) (hdrops : ∀ k, e.drops k = ((s.cache.buf b).block == k)) :
    outstandingRefs (s.cache.buf b).block (l ++ [e]) = u32 ((s.cache.buf b).refcnt + 2 ^ 32 - 1) ∧
      ∀ k, k ≠ (s.cache.buf b).block → outstandingRefs k (l ++ [e]) = outstandingRefs k l := by
  refine ⟨?_, fun k hk => ?_⟩
  · rw [outstandingRefs_concat, htakes, hdrops, h.books.cached b hb, u32_pred hpos (h.refcnt_lt hl hb)]
    simp
    omega
  · exact outstandingRefs_neutral (htakes k) (by rw [hdrops]; simpa using hk.symm)

lemma take_refs (h : s.Inv l) (hb : b < nbuf) (hl : Bounded (l ++ [e]))
    (htakes : ∀ k, e.takes k = ((s.cache.buf b).block == k)) (hdrops : ∀ k, e.drops k = false) :
    outstandingRefs (s.cache.buf b).block (l ++ [e]) = u32 ((s.cache.buf b).refcnt + 1) ∧
      u32 ((s.cache.buf b).refcnt + 1) = (s.cache.buf b).refcnt + 1 ∧
      ∀ k, k ≠ (s.cache.buf b).block → outstandingRefs k (l ++ [e]) = outstandingRefs k l := by
  have hrefs : outstandingRefs (s.cache.buf b).block (l ++ [e]) = ((s.cache.buf b).refcnt + 1 : Nat) := by
    rw [outstandingRefs_concat, htakes, hdrops, h.books.cached b hb]
    simp
  have hlt := hl (l ++ [e]) (List.prefix_refl _) (s.cache.buf b).block
  rw [hrefs] at hlt
  have hu32 : u32 ((s.cache.buf b).refcnt + 1) = (s.cache.buf b).refcnt + 1 := by
    unfold u32
    exact Nat.mod_eq_of_lt (by exact_mod_cast hlt)
  refine ⟨?_, hu32, fun k hk => ?_⟩
  · rw [hu32, hrefs]
  · exact outstandingRefs_neutral (by rw [htakes]; simpa using hk.symm) (hdrops k)

lemma dev_pos (h : s.Inv l) (hb : b < nbuf) (hpos : 0 < (s.cache.buf b).refcnt) : 1 ≤ (s.cache.buf b).dev := by
  by_contra hzero
  rw [h.books.idle b hb (by omega)] at hpos
  omega

lemma brelse (h : s.Inv l) (hl : Bounded l) (hcall : s.calls id = .releasing k b) :
    Inv { s with cache := s.cache.brelse b, calls := Function.update s.calls id .done } (l ++ [.brelse id k]) := by
  have href : (s.calls id).ref = some (k, b) := by
    rw [hcall]
    rfl
  obtain ⟨hb, hk, -⟩ := h.users.calls id k b href
  have hpos := h.users.refcnt_pos href
  have hlt := h.refcnt_lt hl hb
  obtain ⟨hthis, hrest⟩ := h.drop_refs (e := .brelse id k) hb hl hpos (fun _ => rfl) fun k' => by rw [hk]; rfl
  obtain ⟨order, hlisted, hperm⟩ := h.list
  obtain ⟨order', hlisted', hperm'⟩ := hlisted.brelse ((mem_order hperm).mpr hb)
  have hbuf := s.cache.brelse_buf b
  refine h.recount hb (h.dev_pos hb hpos) hbuf ⟨order', hlisted', hperm'.trans hperm⟩ hthis hrest (by simp) (by simp)
    rfl rfl ?_ fun id' k' b' hid => ?_
  · obtain ⟨hself, hother⟩ := refcnt_of_recount hbuf
    refine h.users.move (fun b' _ => block_of_recount hbuf b') (by rintro k' b' ⟨⟩) fun b' hb' => ?_
    have hcalls : (s.calls id).buf = some b := by
      rw [BioCall.buf, href]
      rfl
    rw [hcalls]
    by_cases heq : b' = b
    · rw [heq, hself, u32_pred hpos hlt]
      simp [BioCall.buf, BioCall.ref]
      omega
    · rw [hother b' heq]
      simp [BioCall.buf, BioCall.ref, Ne.symm heq]
  · dsimp only at hid
    by_cases heq : id' = id
    · rw [heq, Function.update_self] at hid
      cases hid
    · rwa [Function.update_of_ne heq] at hid

lemma bpin (h : s.Inv l) (hl : Bounded (l ++ [.bpin (s.cache.buf b).block]))
    (hb : b < nbuf) (hpos : 0 < (s.cache.buf b).refcnt) :
    Inv { s with cache := s.cache.bpin b, pins := Function.update s.pins b (s.pins b + 1) }
      (l ++ [.bpin (s.cache.buf b).block]) := by
  obtain ⟨hthis, hu32, hrest⟩ := h.take_refs hb hl (fun _ => rfl) (fun _ => rfl)
  obtain ⟨order, hlisted, hperm⟩ := h.list
  refine h.recount hb (h.dev_pos hb hpos) rfl ⟨order, hlisted.setBuf, hperm⟩ hthis hrest (by simp) (by simp) rfl rfl ?_
    fun _ _ _ hid => hid
  have hbuf : (s.cache.bpin b).buf = _ := rfl
  obtain ⟨hself, hother⟩ := refcnt_of_recount hbuf
  refine h.users.pin hb (block_of_recount hbuf) hother ?_
  rw [hself, hu32]
  omega

lemma bunpin (h : s.Inv l) (hl : Bounded l) (hpin : 0 < s.pins b) :
    Inv { s with cache := s.cache.bunpin b, pins := Function.update s.pins b (s.pins b - 1) }
      (l ++ [.bunpin (s.cache.buf b).block]) := by
  have hb := h.users.pins b hpin
  have hpos := h.users.refcnt_pos_of_pin hpin
  have hlt := h.refcnt_lt hl hb
  obtain ⟨hthis, hrest⟩ := h.drop_refs (e := .bunpin (s.cache.buf b).block) hb hl hpos (fun _ => rfl) fun _ => rfl
  obtain ⟨order, hlisted, hperm⟩ := h.list
  refine h.recount hb (h.dev_pos hb hpos) rfl ⟨order, hlisted.setBuf, hperm⟩ hthis hrest (by simp) (by simp) rfl rfl ?_
    fun _ _ _ hid => hid
  have hbuf : (s.cache.bunpin b).buf = _ := rfl
  obtain ⟨hself, hother⟩ := refcnt_of_recount hbuf
  refine h.users.pin hb (block_of_recount hbuf) hother ?_
  rw [hself, u32_pred hpos hlt]
  omega

/-- The block is in the cache. -/
lemma hit (h : s.Inv l) (hl : Bounded (l ++ [.bget id k])) (hcall : s.calls id = .fresh) (hdev : 1 ≤ k.1)
    (hb : b < nbuf) (hk : (s.cache.buf b).block = k) :
    Inv { s with
      cache := s.cache.setBuf b { s.cache.buf b with refcnt := u32 ((s.cache.buf b).refcnt + 1) }
      calls := Function.update s.calls id (.waiting k b) } (l ++ [.bget id k]) := by
  obtain ⟨hthis, hu32, hrest⟩ := h.take_refs hb hl (fun k' => by rw [hk]; rfl) (fun _ => rfl)
  obtain ⟨order, hlisted, hperm⟩ := h.list
  have hdev' : 1 ≤ (s.cache.buf b).dev := by
    rw [← hk] at hdev
    exact hdev
  refine h.recount hb hdev' rfl ⟨order, hlisted.setBuf, hperm⟩ hthis hrest (by simp) (by simp) rfl rfl ?_
    fun id' k' b' hid => ?_
  · have hbuf : (s.cache.setBuf b { s.cache.buf b with refcnt := u32 ((s.cache.buf b).refcnt + 1) }).buf = _ := rfl
    obtain ⟨hself, hother⟩ := refcnt_of_recount hbuf
    refine h.users.move (fun b' _ => block_of_recount hbuf b') (fun k' b' hk' => ?_) fun b' hb' => ?_
    · cases hk'
      exact ⟨hb, (block_of_recount hbuf b).trans hk, hdev⟩
    · have hcalls : (s.calls id).buf = none := by
        rw [hcall]
        rfl
      rw [hcalls]
      by_cases heq : b' = b
      · rw [heq, hself, hu32]
        simp [BioCall.buf, BioCall.ref]
      · rw [hother b' heq]
        simp [BioCall.buf, BioCall.ref, Ne.symm heq]
  · dsimp only at hid
    by_cases heq : id' = id
    · rw [heq, Function.update_self] at hid
      cases hid
    · rwa [Function.update_of_ne heq] at hid

/-- The block is not in the cache, and a buffer without references is recycled. -/
lemma miss (h : s.Inv l) (hcall : s.calls id = .fresh) (hdev : 1 ≤ k.1) (hb : b < nbuf)
    (hnone : ∀ b', b' < nbuf → (s.cache.buf b').block ≠ k) (hzero : (s.cache.buf b).refcnt = 0) :
    Inv { s with
      cache := s.cache.setBuf b { s.cache.buf b with dev := k.1, blockno := k.2, valid := false, refcnt := 1 }
      calls := Function.update s.calls id (.waiting k b) } (l ++ [.bget id k]) := by
  obtain ⟨order, hlisted, hperm⟩ := h.list
  have hother : ∀ b', 0 < (s.cache.buf b').refcnt → b' ≠ b := by
    rintro b' hpos rfl
    omega
  refine ⟨⟨order, hlisted.setBuf, hperm⟩, h.books.recycle hb hdev hnone hzero rfl rfl, ?_, ?_, ?_⟩
  · refine h.users.move (fun b' hpos => ?_) (fun k' b' hk' => ?_) fun b' hb' => ?_
    · rw [Bcache.setBuf_of_ne _ _ (hother b' hpos)]
    · cases hk'
      rw [Bcache.setBuf_self]
      exact ⟨hb, rfl, hdev⟩
    · have hcalls : (s.calls id).buf = none := by
        rw [hcall]
        rfl
      rw [hcalls]
      by_cases heq : b' = b
      · rw [heq, Bcache.setBuf_self, hzero]
        simp [BioCall.buf, BioCall.ref]
      · rw [Bcache.setBuf_of_ne _ _ heq]
        simp [BioCall.buf, BioCall.ref, Ne.symm heq]
  · refine h.held_update (by simp) fun b' hvalid hpos => ?_
    rw [Bcache.setBuf_of_ne _ _ (hother b' hpos)]
    exact hvalid
  · refine h.contents.keep rfl (by simp) (by simp) (fun b' _ hvalid => ?_) fun k' v' hk' b' hb' hblock hvalid => ?_
    · dsimp only at hvalid ⊢
      by_cases heq : b' = b
      · rw [heq, Bcache.setBuf_self] at hvalid
        cases hvalid
      · rw [Bcache.setBuf_of_ne _ _ heq] at hvalid ⊢
        exact .inl ⟨rfl, hvalid, rfl⟩
    · have hpos : 0 < (s.cache.buf b').refcnt := by
        have := hk'.refs_pos
        rw [← hblock, h.books.cached b' hb'] at this
        exact_mod_cast this
      dsimp only
      rw [Bcache.setBuf_of_ne _ _ (hother b' hpos)]
      exact ⟨hblock, hvalid, rfl⟩

lemma step (h : s.Inv l) (hl : Bounded (l ++ [e])) (hstep : Step s e t) : t.Inv (l ++ [e]) := by
  cases hstep with
  | @bget id b k c hcall hdev hget =>
    obtain ⟨order, hlisted, hperm⟩ := h.list
    have hlength : order.length = nbuf := by rw [hperm.length_eq, List.length_range]
    obtain ⟨hb, ⟨hk, rfl⟩ | ⟨hnone, hzero, rfl⟩⟩ := hlisted.bget hlength hget
    · exact h.hit hl hcall hdev ((mem_order hperm).mp hb) hk
    · exact h.miss hcall hdev ((mem_order hperm).mp hb) (fun b' hb' => hnone b' ((mem_order hperm).mpr hb')) hzero
  | @acquiresleep id b k hcall hfree =>
    exact h.relock (by rw [hcall]; rfl) (by simp) (fun _ => rfl) (fun _ => rfl) (by simp) (by simp)
  | @bread id b k hcall => exact h.bread hcall _
  | @store id b k hcall v => exact h.store hcall v
  | @bwrite id b k hcall hlock => exact h.bwrite hcall
  | @releasesleep id b k hcall hlock =>
    exact h.relock (by rw [hcall]; rfl) (by simp) (fun _ => rfl) (fun _ => rfl) (by simp) (by simp)
  | @brelse id b k hcall => exact h.brelse hl.of_concat hcall
  | @bpin b hwho =>
    rcases hwho with ⟨id, k, hcall⟩ | hpin
    · have href : (s.calls id).ref = some (k, b) := by
        rw [hcall]
        rfl
      exact h.bpin hl (h.users.calls id k b href).1 (h.users.refcnt_pos href)
    · exact h.bpin hl (h.users.pins b hpin) (h.users.refcnt_pos_of_pin hpin)
  | @bunpin b hpin => exact h.bunpin hl.of_concat hpin

end Inv

/-- A buffer with a count stays with its block. -/
lemma Inv.block_step (h : s.Inv l) (hpos : 0 < (s.cache.buf b).refcnt) (hstep : Step s e t) :
    (t.cache.buf b).block = (s.cache.buf b).block := by
  cases hstep with
  | @bget id b' k c hcall hdev hget =>
    obtain ⟨order, hlisted, hperm⟩ := h.list
    have hlength : order.length = nbuf := by rw [hperm.length_eq, List.length_range]
    obtain ⟨-, ⟨hk, rfl⟩ | ⟨hnone, hzero, rfl⟩⟩ := hlisted.bget hlength hget
    · exact Inv.block_of_recount (s := s) rfl b
    · have hne : b ≠ b' := by
        rintro rfl
        omega
      exact congrArg Buf.block (Bcache.setBuf_of_ne _ _ hne)
  | @acquiresleep id b' k hcall hfree => exact Bcache.setBuf_proj Buf.block (by rfl) b
  | @bread id b' k hcall =>
    rcases s.cache.fill_cases s.disk b' with ⟨-, hfill⟩ | ⟨-, hfill⟩
    · exact congrArg (fun c : Bcache α => (c.buf b).block) hfill
    · exact (congrArg (fun c : Bcache α => (c.buf b).block) hfill).trans (Bcache.setBuf_proj Buf.block (by rfl) b)
  | @store id b' k hcall v => exact Bcache.setBuf_proj Buf.block (by rfl) b
  | @bwrite id b' k hcall hlock => rfl
  | @releasesleep id b' k hcall hlock => exact Bcache.setBuf_proj Buf.block (by rfl) b
  | @brelse id b' k hcall => exact Inv.block_of_recount (s.cache.brelse_buf b') b
  | @bpin b' hwho => exact Inv.block_of_recount (s := s) (c := s.cache.bpin b') rfl b
  | @bunpin b' hpin => exact Inv.block_of_recount (s := s) (c := s.cache.bunpin b') rfl b

/-- What `bread` returns. -/
lemma Inv.bread_value {v : α} (h : s.Inv l) (hstep : Step s (.bread id k v) t) :
    (∀ x, KeptSince k l x → v = x) ∧ (¬ Unwritten k l → v = s.disk k.2) ∧
      (v = s.disk k.2 ∨ ∃ b, b < nbuf ∧ (s.cache.buf b).block = k ∧ (s.cache.buf b).valid ∧
        v = (s.cache.buf b).data) := by
  generalize he : BioEvent.bread id k v = e at hstep
  cases hstep with
  | @bread id b k hcall =>
    cases he
    obtain ⟨hb, hk, hdev⟩ := h.users.calls id k b (by rw [hcall]; rfl)
    have hdev' : 1 ≤ (s.cache.buf b).dev := by
      rw [← hk] at hdev
      exact hdev
    have hblockno : (s.cache.buf b).blockno = k.2 := congrArg Prod.snd hk
    have hkept : ∀ x, KeptSince k l x → (s.cache.buf b).valid ∧ (s.cache.buf b).data = x := by
      intro x hx
      obtain ⟨b', hb', hk', hvalid, hdata⟩ := h.contents.kept k x hx
      obtain rfl := h.books.unique b b' hb hb' hdev' (hk'.trans hk.symm)
      exact ⟨hvalid, hdata⟩
    rcases s.cache.fill_cases s.disk b with ⟨hvalid, hfill⟩ | ⟨hinvalid, hfill⟩
    · rw [hfill]
      refine ⟨fun x hx => (hkept x hx).2, fun hclean => ?_, .inr ⟨b, hb, hk, hvalid, rfl⟩⟩
      rw [← hblockno]
      exact h.contents.written b hb hdev' hvalid (hk ▸ hclean)
    · rw [hfill, Bcache.setBuf_self]
      have hload : s.disk (s.cache.buf b).blockno = s.disk k.2 := by rw [hblockno]
      refine ⟨fun x hx => ?_, fun _ => hload, .inl hload⟩
      have hvalid := (hkept x hx).1
      rw [hinvalid] at hvalid
      cases hvalid
  | _ => cases he

lemma inv_initial (data disk : Nat → α) : (initial data disk).Inv [] := by
  obtain ⟨hlisted, hbuf⟩ := (Bcache.zero data).listed_binit
  have hzero : ∀ b, (initial data disk).cache.buf b = ⟨false, 0, 0, none, 0, data b⟩ := fun b => congrFun hbuf b
  refine ⟨⟨_, hlisted, List.reverse_perm _⟩, ⟨?_, ?_, ?_, ?_⟩, ⟨?_, ?_, ?_⟩, ?_, ⟨?_, ?_⟩⟩
  · intro b b' _ _ hdev
    rw [hzero] at hdev
    exact absurd hdev (Nat.not_succ_le_zero 0)
  · intro b _ _
    rw [hzero]
  · intro b _
    rw [hzero]
    rfl
  · intro k _
    rfl
  · rintro id k b ⟨⟩
  · intro b hb
    exact absurd hb (Nat.lt_irrefl 0)
  · refine ⟨∅, fun _ _ => rfl, fun b _ => ?_⟩
    rw [hzero]
    rfl
  · rintro id k b ⟨⟩
  · intro b _ hdev
    rw [hzero] at hdev
    exact absurd hdev (Nat.not_succ_le_zero 0)
  · rintro k v ⟨p, id, q, hnil, -⟩
    simp at hnil

lemma inv_of_steps {data disk : Nat → α} (h : Steps Step (initial data disk) l s) (hl : Bounded l) : s.Inv l := by
  induction h with
  | nil => exact inv_initial data disk
  | snoc _ hstep ih => exact (ih hl.of_concat).step hl hstep

end Bio

/-- Coherence of the cache. As long as no count reaches `2 ^ 32`, in every interleaving: a block is in
one buffer at most; the list goes through all buffers; the counts are those of the references; no
buffer with a count is recycled; and `bread` returns what the block was last modified to if the block
was held or pinned ever since, what is on the disk if it has been written since, and otherwise what is on
the disk or was left in the buffer. -/
theorem bcache_coherent {α : Type} {data disk : Nat → α} {l : List (BioEvent α)} {s : Bio α}
    (h : Steps Bio.Step (Bio.initial data disk) l s) (hl : Bio.Bounded l) :
    (∀ b b', b < nbuf → b' < nbuf → 1 ≤ (s.cache.buf b).dev → (s.cache.buf b').block = (s.cache.buf b).block →
        b' = b) ∧
      (∃ order, order.Perm (List.range nbuf) ∧ IsRing s.cache.next s.cache.prev bhead order) ∧
      (∀ b, b < nbuf → outstandingRefs (s.cache.buf b).block l = (s.cache.buf b).refcnt) ∧
      ∀ e t, Bio.Step s e t →
        (∀ b, b < nbuf → 0 < (s.cache.buf b).refcnt → (t.cache.buf b).block = (s.cache.buf b).block) ∧
        ∀ id k v, e = .bread id k v → (∀ x, KeptSince k l x → v = x) ∧ (¬ Unwritten k l → v = s.disk k.2) ∧
          (v = s.disk k.2 ∨ ∃ b, b < nbuf ∧ (s.cache.buf b).block = k ∧ (s.cache.buf b).valid ∧
            v = (s.cache.buf b).data) := by
  have hinv := Bio.inv_of_steps h hl
  obtain ⟨order, hlisted, hperm⟩ := hinv.list
  refine ⟨hinv.books.unique, ⟨order, hperm, hlisted.ring⟩, hinv.books.cached, fun e t hstep => ⟨?_, ?_⟩⟩
  · intro b _ hpos
    exact hinv.block_step hpos hstep
  · rintro id k v rfl
    exact hinv.bread_value hstep

/-! ### Runs that are computed -/

namespace Bio

variable {α : Type} [DecidableEq α] {s t : Bio α} {e : BioEvent α}

/-- The state after an event, if it can happen; pins are left out. -/
def next (s : Bio α) : BioEvent α → Option (Bio α)
  | .bget id k =>
    match s.calls id, s.cache.bget k.1 k.2 with
    | .fresh, some (b, c) =>
      if 1 ≤ k.1 then some { s with cache := c, calls := Function.update s.calls id (.waiting k b) } else none
    | _, _ => none
  | .acquiresleep id k =>
    match s.calls id with
    | .waiting k' b =>
      if k' = k ∧ (s.cache.buf b).lock = none then
        some { s with
          cache := s.cache.setBuf b { s.cache.buf b with lock := some id }
          calls := Function.update s.calls id (.locked k b) }
      else none
    | _ => none
  | .bread id k v =>
    match s.calls id with
    | .locked k' b =>
      if k' = k ∧ ((s.cache.fill s.disk b).buf b).data = v then
        some { s with cache := s.cache.fill s.disk b, calls := Function.update s.calls id (.holding k b) }
      else none
    | _ => none
  | .store id k v =>
    match s.calls id with
    | .holding k' b =>
      if k' = k then some { s with cache := s.cache.setBuf b { s.cache.buf b with data := v } } else none
    | _ => none
  | .bwrite id k =>
    match s.calls id with
    | .holding k' b =>
      if k' = k ∧ (s.cache.buf b).lock = some id then
        some { s with disk := Function.update s.disk (s.cache.buf b).blockno (s.cache.buf b).data }
      else none
    | _ => none
  | .releasesleep id k =>
    match s.calls id with
    | .holding k' b =>
      if k' = k ∧ (s.cache.buf b).lock = some id then
        some { s with
          cache := s.cache.setBuf b { s.cache.buf b with lock := none }
          calls := Function.update s.calls id (.releasing k b) }
      else none
    | _ => none
  | .brelse id k =>
    match s.calls id with
    | .releasing k' b =>
      if k' = k then some { s with cache := s.cache.brelse b, calls := Function.update s.calls id .done } else none
    | _ => none
  | .bpin _ | .bunpin _ => none

lemma step_of_next (h : s.next e = some t) : Step s e t := by
  unfold next at h
  split at h
  · next id k =>
    split at h
    · next b c hcall hget =>
      split at h
      · next hdev =>
        cases h
        exact .bget hcall hdev hget
      · cases h
    · cases h
  · next id k =>
    split at h
    · next k' b hcall =>
      split at h
      · next hok =>
        obtain ⟨rfl, hfree⟩ := hok
        cases h
        exact .acquiresleep hcall hfree
      · cases h
    · cases h
  · next id k v =>
    split at h
    · next k' b hcall =>
      split at h
      · next hok =>
        obtain ⟨rfl, rfl⟩ := hok
        cases h
        exact .bread hcall
      · cases h
    · cases h
  · next id k v =>
    split at h
    · next k' b hcall =>
      split at h
      · next hok =>
        subst hok
        cases h
        exact .store hcall v
      · cases h
    · cases h
  · next id k =>
    split at h
    · next k' b hcall =>
      split at h
      · next hok =>
        obtain ⟨rfl, hlock⟩ := hok
        cases h
        exact .bwrite hcall hlock
      · cases h
    · cases h
  · next id k =>
    split at h
    · next k' b hcall =>
      split at h
      · next hok =>
        obtain ⟨rfl, hlock⟩ := hok
        cases h
        exact .releasesleep hcall hlock
      · cases h
    · cases h
  · next id k =>
    split at h
    · next k' b hcall =>
      split at h
      · next hok =>
        subst hok
        cases h
        exact .brelse hcall
      · cases h
    · cases h
  · cases h
  · cases h

omit [DecidableEq α] in
/-- Who holds a buffer pins it `n` times. -/
lemma steps_bpin {id b : Nat} {k : BlockId} (hcall : s.calls id = .holding k b) (hk : (s.cache.buf b).block = k)
    (hlt : (s.cache.buf b).refcnt < 2 ^ 32) (n : Nat) :
    ∃ t, Steps Step s (List.replicate n (.bpin k)) t ∧ t.calls = s.calls ∧ (t.cache.buf b).block = k ∧
      (t.cache.buf b).refcnt = u32 ((s.cache.buf b).refcnt + n) := by
  induction n with
  | zero =>
    refine ⟨s, .nil s, rfl, hk, ?_⟩
    rw [Nat.add_zero, u32, Nat.mod_eq_of_lt hlt]
  | succ n ih =>
    obtain ⟨t, hsteps, hcalls, hk', hrefcnt⟩ := ih
    have hpin : Step t (.bpin k) { t with cache := t.cache.bpin b, pins := Function.update t.pins b (t.pins b + 1) } := by
      rw [← hk']
      exact .bpin (.inl ⟨id, k, by rw [hcalls, hcall]⟩)
    rw [List.replicate_succ']
    refine ⟨_, hsteps.snoc hpin, hcalls, (Inv.block_of_recount (s := t) (c := t.cache.bpin b) rfl b).trans hk', ?_⟩
    rw [(Inv.refcnt_of_recount (s := t) (c := t.cache.bpin b) rfl).1, hrefcnt]
    unfold u32
    omega

end Bio

/-- A block is read, modified, let go unwritten, and read again: the second `bread` gives what was left,
not what is on the disk. -/
def bioUnwritten : List (BioEvent Nat) :=
  [.bget 0 (1, 5), .acquiresleep 0 (1, 5), .bread 0 (1, 5) 0, .store 0 (1, 5) 7, .releasesleep 0 (1, 5),
    .brelse 0 (1, 5), .bget 1 (1, 5), .acquiresleep 1 (1, 5)]

/-- A block is read and held. -/
def bioHeld : List (BioEvent Nat) := [.bget 0 (1, 5), .acquiresleep 0 (1, 5), .bread 0 (1, 5) 0]

lemma outstandingRefs_le {α : Type} (k : BlockId) (l : List (BioEvent α)) : outstandingRefs k l ≤ l.length := by
  have := List.countP_le_length (p := BioEvent.takes k) (l := l)
  unfold outstandingRefs
  omega

/-- A run that has been computed and a test of where it ends. -/
lemma Bio.exists_run {α : Type} [DecidableEq α] {s : Bio α} {l : List (BioEvent α)} {p : Bio α → Bool}
    (h : (l.foldlM Bio.next s).any p = true) : ∃ t, Steps Bio.Step s l t ∧ p t = true := by
  cases ht : l.foldlM Bio.next s with
  | none =>
    rw [ht] at h
    cases h
  | some t =>
    rw [ht] at h
    exact ⟨t, Steps.of_foldlM (fun _ _ _ hnext => Bio.step_of_next hnext) ht, h⟩

/-- After `n` calls of `bget` for different blocks: the buffers are taken in order. -/
def bioBusy (n : Nat) : Bio Nat where
  cache :=
    { buf := fun b => if b < n then ⟨false, 1, b + 5, none, 1, 0⟩ else ⟨false, 0, 0, none, 0, 0⟩
      next := fun b => if b = 0 then bhead else if b ≤ bhead then b - 1 else 0
      prev := fun b => if b < bhead then b + 1 else 0 }
  disk := fun _ => 0
  calls := fun i => if i < n then .waiting (1, i + 5) i else .fresh
  pins := fun _ => 0

/-- The links after `n` rounds of the loop of `binit`. -/
lemma foldl_link (n : Nat) (hn : n ≤ nbuf) :
    (List.range n).foldl Bcache.link
      ⟨fun _ => ⟨false, 0, 0, none, 0, 0⟩, Function.update (fun _ => 0) bhead bhead,
        Function.update (fun _ => 0) bhead bhead⟩ =
      (⟨fun _ => ⟨false, 0, 0, none, 0, 0⟩,
        fun b => if b = bhead then (if n = 0 then bhead else n - 1)
          else if b < n then (if b = 0 then bhead else b - 1) else 0,
        fun b => if b = bhead then (if n = 0 then bhead else 0)
          else if b < n then (if b + 1 = n then bhead else b + 1) else 0⟩ : Bcache Nat) := by
  unfold bhead
  induction n with
  | zero =>
    refine congrArg₂ _ (funext fun b => ?_) (funext fun b => ?_) <;> simp [Function.update_apply]
  | succ n ih =>
    rw [List.range_succ, List.foldl_append, ih (by omega), List.foldl_cons, List.foldl_nil]
    refine congrArg₂ _ (funext fun b => ?_) (funext fun b => ?_) <;>
      simp only [bhead, Function.update_apply] <;> grind

lemma initial_busy : Bio.initial (fun _ => 0) (fun _ => 0) = bioBusy 0 := by
  have hlinks := foldl_link nbuf le_rfl
  unfold Bio.initial Bcache.binit Bcache.zero bioBusy
  dsimp only
  rw [hlinks]
  unfold bhead nbuf
  congr 2
  · funext b
    grind
  · funext b
    grind

lemma steps_busy (n : Nat) (hn : n ≤ nbuf) :
    Steps Bio.Step (bioBusy 0) ((List.range n).map fun i => .bget i (1, i + 5)) (bioBusy n) := by
  induction n with
  | zero => exact .nil _
  | succ n ih =>
    rw [List.range_succ, List.map_append]
    refine (ih (by omega)).append (.cons ?_ (.nil _))
    have hlisted : (bioBusy n).cache.Listed (List.range nbuf).reverse := by
      have hinit := ((Bcache.zero fun _ => (0 : Nat)).listed_binit).1
      have hlinks : ((Bcache.zero fun _ => (0 : Nat)).binit) = (bioBusy 0).cache :=
        congrArg Bio.cache initial_busy
      rw [hlinks] at hinit
      exact ⟨hinit.ring, hinit.nodup⟩
    have hbuf : ∀ b, (bioBusy n).cache.buf b =
        if b < n then ⟨false, 1, b + 5, none, 1, 0⟩ else ⟨false, 0, 0, none, 0, 0⟩ := fun _ => rfl
    have hnext := hlisted.scan_next (p := fun b =>
      ((bioBusy n).cache.buf b).dev == 1 && ((bioBusy n).cache.buf b).blockno == n + 5)
    have hprev := hlisted.scan_prev (p := fun b => ((bioBusy n).cache.buf b).refcnt == 0)
    have hnone : (List.range nbuf).reverse.find? (fun b =>
        ((bioBusy n).cache.buf b).dev == 1 && ((bioBusy n).cache.buf b).blockno == n + 5) = none := by
      refine List.find?_eq_none.mpr fun b _ => ?_
      rw [hbuf]
      split
      · simp
        omega
      · simp
    have hfirst : (List.range nbuf).find? (fun b => ((bioBusy n).cache.buf b).refcnt == 0) = some n := by
      refine List.find?_range_eq_some.mpr ⟨?_, List.mem_range.mpr (by omega), fun b hb => ?_⟩
      · rw [hbuf, if_neg (lt_irrefl n)]
        rfl
      · rw [hbuf, if_pos hb]
        rfl
    rw [List.length_reverse, List.length_range] at hnext hprev
    rw [hnone] at hnext
    rw [List.reverse_reverse, hfirst] at hprev
    have hget : (bioBusy n).cache.bget 1 (n + 5) = some (n, (bioBusy n).cache.setBuf n
        { (bioBusy n).cache.buf n with dev := 1, blockno := n + 5, valid := false, refcnt := 1 }) := by
      unfold Bcache.bget
      rw [hnext, hprev]
    have hstep : Bio.Step (bioBusy n) (.bget n (1, n + 5)) _ :=
      .bget (by simp [bioBusy]) le_rfl hget
    have hstate : { bioBusy n with
        cache := (bioBusy n).cache.setBuf n { (bioBusy n).cache.buf n with
          dev := 1, blockno := n + 5, valid := false, refcnt := 1 }
        calls := Function.update (bioBusy n).calls n (.waiting (1, n + 5) n) } = bioBusy (n + 1) := by
      unfold bioBusy Bcache.setBuf
      simp only [lt_irrefl, if_false, Bio.mk.injEq, Bcache.mk.injEq, and_true, true_and]
      refine ⟨funext fun b => ?_, funext fun b => ?_⟩
      · rw [Function.update_apply]
        grind
      · rw [Function.update_apply]
        grind
    rw [hstate] at hstep
    exact hstep

/-- With all buffers referred to, one of them serves a block that is written, another block, and the
first one again. -/
def bioRecycled : List (BioEvent Nat) :=
  [.bget 32 (1, 6), .acquiresleep 0 (1, 5), .acquiresleep 32 (1, 6), .bread 0 (1, 5) 0,
    .store 0 (1, 5) 7, .bread 32 (1, 6) 0] ++
  .bwrite 0 (1, 5) ::
    [.releasesleep 0 (1, 5), .brelse 0 (1, 5), .bget 30 (1, 40), .acquiresleep 30 (1, 40),
      .bread 30 (1, 40) 0, .store 30 (1, 40) 9, .releasesleep 30 (1, 40), .brelse 30 (1, 40),
      .bget 31 (1, 5), .acquiresleep 31 (1, 5)]

/-- The first block comes back from the disk as it was written, and two calls refer to the next one. -/
theorem bcache_coherent_recycled : ∃ l s t,
    Steps Bio.Step (Bio.initial (fun _ => 0) fun _ => 0) (l ++ bioRecycled) s ∧
    (s.cache.buf 1).block = (1, 6) ∧ (s.cache.buf 1).refcnt = 2 ∧
    Bio.Step s (.bread 31 (1, 5) 7) t ∧ s.disk 5 = 7 := by
  obtain ⟨s, hreused, hs⟩ := Bio.exists_run (s := bioBusy nbuf) (l := bioRecycled)
    (p := fun s => (s.cache.buf 1).block == (1, 6) && (s.next (.bread 31 (1, 5) 7)).isSome)
    (by decide +kernel)
  rw [Bool.and_eq_true, beq_iff_eq] at hs
  obtain ⟨t, ht⟩ := Option.isSome_iff_exists.mp hs.2
  have hrun := (steps_busy nbuf le_rfl).append hreused
  rw [← initial_busy] at hrun
  obtain ⟨l, hl⟩ : ∃ l : List (BioEvent Nat), (List.range nbuf).map (fun i => .bget i (1, i + 5)) = l :=
    ⟨_, rfl⟩
  have hlength : l.length = nbuf := by simp [← hl]
  have htakes : l.countP (BioEvent.takes (1, 6)) = 1 ∧ l.countP (BioEvent.drops (1, 6)) = 0 := by
    rw [← hl]
    decide
  rw [hl] at hrun
  have hbounded : Bio.Bounded (l ++ bioRecycled) := by
    intro p hp k
    have hle := outstandingRefs_le k p
    have hle' := hp.length_le
    rw [List.length_append, hlength, show bioRecycled.length = 17 from rfl] at hle'
    unfold nbuf at hle'
    omega
  have hread := Bio.step_of_next ht
  obtain ⟨-, -, hcached, hnext⟩ := bcache_coherent hrun hbounded
  refine ⟨l, s, t, hrun, hs.1, ?_, hread, ?_⟩
  · have hcount := hcached 1 (by decide)
    have hrest : bioRecycled.countP (BioEvent.takes (1, 6)) = 1 ∧
        bioRecycled.countP (BioEvent.drops (1, 6)) = 0 := by decide
    rw [hs.1, outstandingRefs, List.countP_append, List.countP_append, htakes.1, htakes.2, hrest.1,
      hrest.2] at hcount
    omega
  · -- the last event that concerns the block is the write
    refine (((hnext _ _ hread).2 31 (1, 5) 7 rfl).2.1 ?_).symm
    rw [bioRecycled, ← List.append_assoc]
    refine not_unwritten fun e he => ?_
    simp only [List.mem_cons, List.not_mem_nil, or_false] at he
    rcases he with rfl | rfl | rfl | rfl | rfl | rfl | rfl | rfl | rfl | rfl <;> simp

/-- What was left unwritten in a buffer is not what is on the disk; and a buffer that is pinned
`2 ^ 32 - 1` times has the count of one to which nobody refers. -/
theorem bcache_not_coherent :
    (∃ s t, Steps Bio.Step (Bio.initial (fun _ => 0) fun _ => 0) bioUnwritten s ∧
        Bio.Step s (.bread 1 (1, 5) 7) t ∧ (¬ ∃ x, KeptSince (1, 5) bioUnwritten x) ∧ s.disk 5 = 0) ∧
      ∃ l s b, Steps Bio.Step (Bio.initial (fun _ => 0) fun _ => 0) l s ∧ b < nbuf ∧
        outstandingRefs (s.cache.buf b).block l ≠ (s.cache.buf b).refcnt := by
  constructor
  · obtain ⟨s, hrun, hs⟩ := Bio.exists_run (s := Bio.initial (fun _ => 0) fun _ => 0) (l := bioUnwritten)
      (p := fun s => (s.next (.bread 1 (1, 5) 7)).isSome && s.disk 5 == 0) (by decide +kernel)
    rw [Bool.and_eq_true, beq_iff_eq] at hs
    obtain ⟨t, ht⟩ := Option.isSome_iff_exists.mp hs.1
    refine ⟨s, t, hrun, Bio.step_of_next ht, ?_, hs.2⟩
    rintro ⟨x, hx⟩
    -- after the `brelse` nobody held the block
    rcases KeptSince.of_concat (l := bioUnwritten.take 7) hx with ⟨_, h⟩ | ⟨-, hx⟩
    · cases h
    rcases KeptSince.of_concat (l := bioUnwritten.take 6) hx with ⟨_, h⟩ | ⟨-, hx⟩
    · cases h
    exact absurd hx.refs_pos (by decide)
  · obtain ⟨s, hrun, hs⟩ := Bio.exists_run (s := Bio.initial (fun _ => 0) fun _ => 0) (l := bioHeld)
      (p := fun s => s.calls 0 == .holding (1, 5) 0 && (s.cache.buf 0).block == (1, 5) && (s.cache.buf 0).refcnt == 1)
      (by decide +kernel)
    simp only [Bool.and_eq_true, beq_iff_eq] at hs
    obtain ⟨⟨hcall, hblock⟩, hone⟩ := hs
    obtain ⟨n, hn⟩ : ∃ n, n + 1 = 2 ^ 32 := ⟨2 ^ 32 - 1, rfl⟩
    obtain ⟨t, hpins, -, hblock', hrefcnt⟩ := Bio.steps_bpin hcall hblock (by rw [hone]; decide) n
    refine ⟨_, t, 0, hrun.append hpins, by decide, ?_⟩
    have hzero : (t.cache.buf 0).refcnt = 0 := by
      rw [hrefcnt, hone, add_comm, hn]
      rfl
    have htakes : (List.replicate n (BioEvent.bpin (1, 5) : BioEvent Nat)).countP (BioEvent.takes (1, 5)) = n := by
      simp [List.countP_replicate, BioEvent.takes]
    have hdrops : (List.replicate n (BioEvent.bpin (1, 5) : BioEvent Nat)).countP (BioEvent.drops (1, 5)) = 0 := by
      simp [List.countP_replicate, BioEvent.drops]
    have hheld : bioHeld.countP (BioEvent.takes (1, 5)) = 1 ∧ bioHeld.countP (BioEvent.drops (1, 5)) = 0 := by decide
    rw [hblock', hzero, outstandingRefs, List.countP_append, List.countP_append, htakes, hdrops, hheld.1, hheld.2]
    omega

end FogOS.Kernel
