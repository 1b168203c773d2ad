import Mathlib.Data.List.Basic
import Mathlib.Data.Nat.ModEq
import Mathlib.Logic.Function.Basic
import Mathlib.Tactic.SplitIfs

/-! Rings addressed by masked counters of `w` bits that wrap around. A counter is `BitVec.ofNat w a` for
the number `a` of steps it has made; the size of the ring divides `2 ^ w`, so the slot of a counter is
that of `a`. -/

namespace Ring

variable {α : Type} {size w a : Nat} {m : Nat → α} {l l' : List α} {x : α}

/-- The values `l` are in the ring, in order from position `a` on. -/
def Holds (size : Nat) (m : Nat → α) (a : Nat) (l : List α) : Prop :=
  ∀ i (h : i < l.length), m ((a + i) % size) = l[i]

/-- The slot of a counter. -/
def slot (size : Nat) (c : BitVec w) : Nat := c.toNat % size

/-- The values between two counters. -/
def between (size : Nat) (m : Nat → α) (c c' : BitVec w) : List α :=
  (List.range (c' - c).toNat).map fun i => m ((c.toNat + i) % size)

theorem holds_nil : Holds size m a [] := nofun

theorem Holds.head (h : Holds size m a (x :: l)) : m (a % size) = x := h 0 (Nat.zero_lt_succ _)

theorem Holds.tail (h : Holds size m a (x :: l)) : Holds size m (a + 1) l := by
  intro i hi
  have := h (i + 1) (Nat.succ_lt_succ hi)
  rwa [← Nat.add_assoc, Nat.add_right_comm] at this

theorem Holds.left (h : Holds size m a (l ++ l')) : Holds size m a l := by
  intro i hi
  have := h i (by rw [List.length_append]; omega)
  rwa [List.getElem_append_left hi] at this

theorem Holds.drop {b : Nat} (h : Holds size m a (l.drop a)) (hab : a ≤ b) : Holds size m b (l.drop b) := by
  intro i hi
  rw [List.length_drop] at hi
  have := h (b - a + i) (by rw [List.length_drop]; omega)
  rw [← Nat.add_assoc, Nat.add_sub_cancel' hab, List.getElem_drop] at this
  rw [this, List.getElem_drop]
  congr 1
  omega

/-- Two positions of one turn of the ring have different slots. -/
theorem mod_ne {i j : Nat} (hij : i < j) (hj : j < size) : (a + i) % size ≠ (a + j) % size := by
  intro h
  have hmod : i % size = j % size := Nat.ModEq.add_left_cancel' a h
  rw [Nat.mod_eq_of_lt (hij.trans hj), Nat.mod_eq_of_lt hj] at hmod
  omega

/-- A store behind the last value, in a ring that is not full. -/
theorem Holds.push (h : Holds size m a l) (hl : l.length < size) (x : α) :
    Holds size (Function.update m ((a + l.length) % size) x) a (l ++ [x]) := by
  intro i hi
  rw [List.length_append, List.length_singleton] at hi
  rcases Nat.lt_succ_iff_lt_or_eq.mp hi with hlt | rfl
  · rw [Function.update_of_ne (mod_ne hlt hl), List.getElem_append_left hlt]
    exact h i hlt
  · rw [Function.update_self, List.getElem_append_right le_rfl]
    simp

theorem slot_ofNat (hs : size ∣ 2 ^ w) : slot size (BitVec.ofNat w a) = a % size := by
  unfold slot
  rw [BitVec.toNat_ofNat, Nat.mod_mod_of_dvd _ hs]

theorem ofNat_succ : BitVec.ofNat w a + 1 = BitVec.ofNat w (a + 1) := by
  rw [BitVec.ofNat_add]
  rfl

/-- Counters tell distances below `2 ^ w`. -/
theorem toNat_sub {n : Nat} (hn : n < 2 ^ w) :
    (BitVec.ofNat w (a + n) - BitVec.ofNat w a).toNat = n := by
  rw [BitVec.ofNat_add, BitVec.add_comm, BitVec.add_sub_cancel, BitVec.toNat_ofNat, Nat.mod_eq_of_lt hn]

theorem ofNat_add_eq_iff {n : Nat} (hn : n < 2 ^ w) :
    BitVec.ofNat w (a + n) = BitVec.ofNat w a ↔ n = 0 := by
  constructor
  · intro h
    have hsub := toNat_sub (a := a) hn
    rw [h, BitVec.sub_self] at hsub
    exact hsub.symm
  · rintro rfl
    rfl

theorem Holds.between (h : Holds size m a l) (hs : size ∣ 2 ^ w) (hl : l.length < 2 ^ w) :
    between size m (BitVec.ofNat w a) (BitVec.ofNat w (a + l.length)) = l := by
  unfold Ring.between
  rw [toNat_sub hl]
  apply List.ext_getElem
  · simp
  · intro i h₁ h₂
    rw [List.getElem_map, List.getElem_range, ← h i h₂, BitVec.toNat_ofNat, Nat.add_mod,
      Nat.mod_mod_of_dvd _ hs, ← Nat.add_mod]

end Ring
