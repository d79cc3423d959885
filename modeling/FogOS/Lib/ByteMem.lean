import Mathlib.Tactic

/-!
# Byte-addressed memory

A memory is a function from addresses to bytes. Words are stored little-endian, eight bytes
each. The lemmas say what a load sees after a store, and which bytes a store leaves alone.
-/

namespace ByteMem

/-- Wrap-around of 32-bit words. -/
def u32 (n : Nat) : Nat := n % 2 ^ 32

/-- A flat memory: one byte for every address. -/
def Mem : Type := Nat → UInt8

namespace Mem

/-- Store one byte. -/
def write (m : Mem) (a : Nat) (v : UInt8) : Mem :=
  fun x => if x = a then v else m x

/-- Load a little-endian 64-bit word. -/
def load64 (m : Mem) (a : Nat) : Nat :=
  (m a).toNat + 256 * ((m (a + 1)).toNat + 256 * ((m (a + 2)).toNat + 256 * ((m (a + 3)).toNat +
    256 * ((m (a + 4)).toNat + 256 * ((m (a + 5)).toNat + 256 * ((m (a + 6)).toNat +
    256 * (m (a + 7)).toNat))))))

/-- Store a little-endian 64-bit word. -/
def store64 (m : Mem) (a v : Nat) : Mem :=
  fun x => if a ≤ x ∧ x < a + 8 then UInt8.ofNat (v / 256 ^ (x - a)) else m x

/-- Load a little-endian 32-bit word. -/
def load32 (m : Mem) (a : Nat) : Nat :=
  (m a).toNat + 256 * ((m (a + 1)).toNat + 256 * ((m (a + 2)).toNat + 256 * (m (a + 3)).toNat))

/-- Store a little-endian 32-bit word. -/
def store32 (m : Mem) (a v : Nat) : Mem :=
  fun x => if a ≤ x ∧ x < a + 4 then UInt8.ofNat (v / 256 ^ (x - a)) else m x

/-- Store the byte `c` at the `n` addresses from `a` on. -/
def fill (m : Mem) (a n : Nat) (c : UInt8) : Mem :=
  fun x => if a ≤ x ∧ x < a + n then c else m x

/-- Copy `n` bytes from `s` to `d`, as they were before the copy. -/
def copy (m : Mem) (d s n : Nat) : Mem :=
  fun x => if d ≤ x ∧ x < d + n then m (s + (x - d)) else m x

/-- The bytes outside `P` are the same in both memories. -/
def Frame (P : Nat → Prop) (m m' : Mem) : Prop :=
  ∀ x, ¬ P x → m' x = m x

/-! ### Words -/

lemma load64_lt (m : Mem) (a : Nat) : load64 m a < 2 ^ 64 := by
  have h := fun i => (m (a + i)).toNat_lt
  have h0 := h 0; have h1 := h 1; have h2 := h 2; have h3 := h 3
  have h4 := h 4; have h5 := h 5; have h6 := h 6; have h7 := h 7
  simp only [Nat.add_zero] at h0
  unfold load64
  omega

/-- A load reads eight bytes only. -/
lemma load64_congr {m m' : Mem} {a : Nat} (h : ∀ x, a ≤ x → x < a + 8 → m' x = m x) :
    load64 m' a = load64 m a := by
  unfold load64
  rw [h a (by omega) (by omega), h (a + 1) (by omega) (by omega), h (a + 2) (by omega) (by omega),
    h (a + 3) (by omega) (by omega), h (a + 4) (by omega) (by omega),
    h (a + 5) (by omega) (by omega), h (a + 6) (by omega) (by omega),
    h (a + 7) (by omega) (by omega)]

private lemma store64_byte (m : Mem) (a v i : Nat) (hi : i < 8) :
    (store64 m a v (a + i)).toNat = v / 256 ^ i % 256 := by
  have hin : a ≤ a + i ∧ a + i < a + 8 := by omega
  simp only [store64, if_pos hin, Nat.add_sub_cancel_left]
  simp

lemma load64_store64_same (m : Mem) (a v : Nat) (hv : v < 2 ^ 64) :
    load64 (store64 m a v) a = v := by
  have h := store64_byte m a v
  have h0 := h 0 (by omega)
  simp only [Nat.add_zero] at h0
  simp only [load64, h0, h 1 (by omega), h 2 (by omega), h 3 (by omega), h 4 (by omega),
    h 5 (by omega), h 6 (by omega), h 7 (by omega)]
  omega

lemma store64_apply_ne (m : Mem) (a v x : Nat) (h : x < a ∨ a + 8 ≤ x) :
    store64 m a v x = m x := by
  have hout : ¬ (a ≤ x ∧ x < a + 8) := by omega
  simp only [store64, if_neg hout]

lemma load64_store64_ne (m : Mem) (a b v : Nat) (h : b + 8 ≤ a ∨ a + 8 ≤ b) :
    load64 (store64 m a v) b = load64 m b := by
  apply load64_congr
  intro x hx hx'
  exact store64_apply_ne m a v x (by omega)

lemma load32_store32_same (m : Mem) (a v : Nat) (hv : v < 2 ^ 32) :
    load32 (store32 m a v) a = v := by
  have h : ∀ i < 4, (store32 m a v (a + i)).toNat = v / 256 ^ i % 256 := by
    intro i hi
    have hin : a ≤ a + i ∧ a + i < a + 4 := by omega
    simp only [store32, if_pos hin, Nat.add_sub_cancel_left]
    simp
  have h0 := h 0 (by omega)
  simp only [Nat.add_zero] at h0
  simp only [load32, h0, h 1 (by omega), h 2 (by omega), h 3 (by omega)]
  omega

lemma load32_store32_ne (m : Mem) (a b v : Nat) (h : b + 4 ≤ a ∨ a + 4 ≤ b) :
    load32 (store32 m a v) b = load32 m b := by
  have hout : ∀ i < 4, store32 m a v (b + i) = m (b + i) := by
    intro i hi
    exact if_neg (by omega)
  have h0 := hout 0 (by omega)
  simp only [Nat.add_zero] at h0
  simp only [load32, h0, hout 1 (by omega), hout 2 (by omega), hout 3 (by omega)]

/-! ### Byte ranges -/

lemma fill_apply_in (m : Mem) (a n : Nat) (c : UInt8) {x : Nat} (h : a ≤ x) (h' : x < a + n) :
    fill m a n c x = c := if_pos ⟨h, h'⟩

lemma fill_apply_ne (m : Mem) (a n : Nat) (c : UInt8) {x : Nat} (h : x < a ∨ a + n ≤ x) :
    fill m a n c x = m x := if_neg (by omega)

/-! ### Frames -/

lemma Frame.refl (P : Nat → Prop) (m : Mem) : Frame P m m := fun _ _ => rfl

lemma Frame.trans {P : Nat → Prop} {m m' m'' : Mem} (h : Frame P m m') (h' : Frame P m' m'') :
    Frame P m m'' := by
  intro x hx
  rw [h' x hx, h x hx]

lemma Frame.mono {P Q : Nat → Prop} {m m' : Mem} (h : Frame P m m') (hPQ : ∀ x, P x → Q x) :
    Frame Q m m' := fun x hx => h x fun hp => hx (hPQ x hp)

lemma Frame.store64 {P : Nat → Prop} {m : Mem} {a v : Nat}
    (h : ∀ x, a ≤ x → x < a + 8 → P x) : Frame P m (store64 m a v) := by
  intro x hx
  apply store64_apply_ne
  by_contra hc
  exact hx (h x (by omega) (by omega))

end Mem

end ByteMem
