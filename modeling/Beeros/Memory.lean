import Mathlib.Data.Nat.Bits
import Mathlib.Logic.Function.Basic
import Mathlib.Tactic.Ring

/-! Byte-addressed memories and little-endian words in them. A memory is a total function from
addresses to bytes; a word of `n` bytes at `a` is read with `loadLE` and written with `storeLE`.
Frame facts are stated as agreement of two memories on a range of addresses. -/

namespace Memory

/-- The bytes of an address space, a disk or a buffer. -/
abbrev Bytes := Nat → UInt8

/-- The `n`-byte little-endian word at `a`. -/
def loadLE (m : Bytes) : Nat → Nat → Nat
  | 0, _ => 0
  | n + 1, a => (m a).toNat + 256 * loadLE m n (a + 1)

/-- Byte `i` of the little-endian encoding of `v`. -/
def byteLE (v i : Nat) : UInt8 := UInt8.ofNat (v / 256 ^ i)

/-- `m` with the low `n` bytes of `v` stored at `a`. -/
def storeLE (m : Bytes) (n a v : Nat) : Bytes :=
  fun i => if a ≤ i ∧ i < a + n then byteLE v (i - a) else m i

/-- `m` with the `n` bytes of `src` from `s` copied to `d`. -/
def copy (m : Bytes) (d : Nat) (src : Bytes) (s n : Nat) : Bytes :=
  fun i => if d ≤ i ∧ i < d + n then src (s + (i - d)) else m i

/-- `m` with `n` bytes from `a` set to `b`. -/
def fill (m : Bytes) (a n : Nat) (b : UInt8) : Bytes :=
  fun i => if a ≤ i ∧ i < a + n then b else m i

/-- The two memories hold the same bytes at `a, …, a + n - 1`. -/
def AgreeOn (m m' : Bytes) (a n : Nat) : Prop := ∀ i, a ≤ i → i < a + n → m' i = m i

theorem AgreeOn.trans {m m' m'' : Bytes} {a n : Nat} (h : AgreeOn m m' a n)
    (h' : AgreeOn m' m'' a n) : AgreeOn m m'' a n :=
  fun i hi hn => (h' i hi hn).trans (h i hi hn)

theorem AgreeOn.mono {m m' : Bytes} {a n b k : Nat} (h : AgreeOn m m' a n) (hb : a ≤ b)
    (hk : b + k ≤ a + n) : AgreeOn m m' b k :=
  fun i hi hn => h i (hb.trans hi) (hn.trans_le hk)

theorem loadLE_lt (m : Bytes) (n a : Nat) : loadLE m n a < 256 ^ n := by
  induction n generalizing a with
  | zero => simp [loadLE]
  | succ n ih =>
      have hbyte := (m a).toNat_lt
      have hrest := ih (a + 1)
      rw [loadLE, pow_succ]
      omega

/-- A word depends on its own bytes only. -/
theorem loadLE_congr {m m' : Bytes} {n a : Nat} (h : AgreeOn m m' a n) :
    loadLE m' n a = loadLE m n a := by
  induction n generalizing a with
  | zero => rfl
  | succ n ih =>
      rw [loadLE, loadLE, h a le_rfl (by omega), ih (h.mono (by omega) (by omega))]

theorem agreeOn_storeLE {m : Bytes} {n a v b k : Nat} (h : b + k ≤ a ∨ a + n ≤ b) :
    AgreeOn m (storeLE m n a v) b k := by
  intro i hi hk
  rw [storeLE, if_neg (by omega)]

theorem agreeOn_copy {m src : Bytes} {d s n b k : Nat} (h : b + k ≤ d ∨ d + n ≤ b) :
    AgreeOn m (copy m d src s n) b k := by
  intro i hi hk
  rw [copy, if_neg (by omega)]

theorem agreeOn_fill {m : Bytes} {a n b k : Nat} {x : UInt8} (h : b + k ≤ a ∨ a + n ≤ b) :
    AgreeOn m (fill m a n x) b k := by
  intro i hi hk
  rw [fill, if_neg (by omega)]

/-- The two memories differ inside `[a, e)` only. -/
def AgreeOutside (m m' : Bytes) (a e : Nat) : Prop := ∀ i, i < a ∨ e ≤ i → m' i = m i

theorem AgreeOutside.agreeOn {m m' : Bytes} {a e b k : Nat} (h : AgreeOutside m m' a e)
    (hd : b + k ≤ a ∨ e ≤ b) : AgreeOn m m' b k :=
  fun i hi hk => h i (by omega)

theorem AgreeOutside.trans {m m' m'' : Bytes} {a e : Nat} (h : AgreeOutside m m' a e)
    (h' : AgreeOutside m' m'' a e) : AgreeOutside m m'' a e :=
  fun i hi => (h' i hi).trans (h i hi)

theorem AgreeOutside.mono {m m' : Bytes} {a e a' e' : Nat} (h : AgreeOutside m m' a e)
    (ha : a' ≤ a) (he : e ≤ e') : AgreeOutside m m' a' e' :=
  fun i hi => h i (by omega)

theorem agreeOutside_storeLE {m : Bytes} {n a v b e : Nat} (hb : b ≤ a) (he : a + n ≤ e) :
    AgreeOutside m (storeLE m n a v) b e := by
  intro i hi
  rw [storeLE, if_neg (by omega)]

theorem agreeOutside_copy {m src : Bytes} {d s n b e : Nat} (hb : b ≤ d) (he : d + n ≤ e) :
    AgreeOutside m (copy m d src s n) b e := by
  intro i hi
  rw [copy, if_neg (by omega)]

theorem agreeOutside_fill {m : Bytes} {a n b e : Nat} {x : UInt8} (hb : b ≤ a) (he : a + n ≤ e) :
    AgreeOutside m (fill m a n x) b e := by
  intro i hi
  rw [fill, if_neg (by omega)]

theorem copy_apply {m src : Bytes} {d s n i : Nat} (hi : i < n) :
    copy m d src s n (d + i) = src (s + i) := by
  rw [copy, if_pos (by omega), Nat.add_sub_cancel_left]

theorem toNat_byteLE (v i : Nat) : (byteLE v i).toNat = v / 256 ^ i % 256 := by
  simp [byteLE]

theorem byteLE_succ (v i : Nat) : byteLE v (i + 1) = byteLE (v / 256) i := by
  rw [byteLE, byteLE, Nat.div_div_eq_div_mul, pow_succ']

theorem loadLE_of_byteLE {m : Bytes} {n a v : Nat} (h : ∀ i < n, m (a + i) = byteLE v i) :
    loadLE m n a = v % 256 ^ n := by
  induction n generalizing a v with
  | zero => simp [loadLE, Nat.mod_one]
  | succ n ih =>
      have htail : ∀ i < n, m (a + 1 + i) = byteLE (v / 256) i := by
        intro i hi
        rw [← byteLE_succ, ← h (i + 1) (by omega)]
        congr 1
        omega
      have hhead : (m a).toNat = v % 256 := by
        have h0 := h 0 (by omega)
        rw [Nat.add_zero] at h0
        rw [h0, toNat_byteLE, pow_zero, Nat.div_one]
      rw [loadLE, ih htail, hhead, pow_succ', Nat.mod_mul]

/-- A stored word reads back modulo its width. -/
theorem loadLE_storeLE (m : Bytes) (n a v : Nat) :
    loadLE (storeLE m n a v) n a = v % 256 ^ n := by
  apply loadLE_of_byteLE
  intro i hi
  rw [storeLE, if_pos (by omega), Nat.add_sub_cancel_left]

theorem loadLE_storeLE_of_lt {m : Bytes} {n a v : Nat} (hv : v < 256 ^ n) :
    loadLE (storeLE m n a v) n a = v := by
  rw [loadLE_storeLE, Nat.mod_eq_of_lt hv]

theorem loadLE_storeLE_of_disjoint {m : Bytes} {n a v k b : Nat} (h : b + k ≤ a ∨ a + n ≤ b) :
    loadLE (storeLE m n a v) k b = loadLE m k b :=
  loadLE_congr (agreeOn_storeLE h)

/-! ### Windows -/

/-- The `n` bytes from `a` as a memory of their own, zero behind them. -/
def window (m : Bytes) (a n : Nat) : Bytes := fun i => if i < n then m (a + i) else 0

theorem window_apply {m : Bytes} {a n i : Nat} (h : i < n) : window m a n i = m (a + i) := if_pos h

theorem loadLE_window {m : Bytes} {a n k j : Nat} (h : j + k ≤ n) :
    loadLE (window m a n) k j = loadLE m k (a + j) := by
  induction k generalizing j with
  | zero => rfl
  | succ k ih =>
      rw [loadLE, loadLE, window_apply (by omega), ih (by omega), Nat.add_assoc]

theorem window_congr {m m' : Bytes} {a n : Nat} (h : AgreeOn m m' a n) :
    window m' a n = window m a n := by
  funext i
  unfold window
  split_ifs with hi
  · exact h _ (by omega) (by omega)
  · rfl

theorem window_window {m : Bytes} {a n b k : Nat} (h : b + k ≤ n) :
    window (window m a n) b k = window m (a + b) k := by
  funext i
  unfold window
  split_ifs with hi hb
  · rw [Nat.add_assoc]
  · omega
  · rfl

/-- A store at an offset inside a window is a store into the window. -/
theorem window_storeLE {m : Bytes} {a n k j v : Nat} (h : j + k ≤ n) :
    window (storeLE m k (a + j) v) a n = storeLE (window m a n) k j v := by
  funext i
  unfold window storeLE
  by_cases hi : i < n
  · by_cases hj : j ≤ i ∧ i < j + k
    · rw [if_pos hi, if_pos (by omega), if_pos hj]
      congr 1
      omega
    · rw [if_pos hi, if_neg (by omega), if_neg hj]
      exact (if_pos hi).symm
  · rw [if_neg hi, if_neg (by omega)]
    exact (if_neg hi).symm

theorem window_fill {m : Bytes} {a n : Nat} : window (fill m a n 0) a n = fun _ => 0 := by
  funext i
  unfold window fill
  split_ifs with hi ha
  · rfl
  · omega
  · rfl

theorem window_copy {m src : Bytes} {a n j s k : Nat} (h : j + k ≤ n) :
    window (copy m (a + j) src s k) a n = copy (window m a n) j src s k := by
  funext i
  unfold window copy
  by_cases hi : i < n
  · by_cases hj : j ≤ i ∧ i < j + k
    · rw [if_pos hi, if_pos (by omega), if_pos hj]
      congr 1
      omega
    · rw [if_pos hi, if_neg (by omega), if_neg hj]
      exact (if_pos hi).symm
  · rw [if_neg hi, if_neg (by omega)]
    exact (if_neg hi).symm

/-- A whole window copied over. -/
theorem window_copy_self {m src : Bytes} {a n : Nat} :
    window (copy m a src 0 n) a n = window src 0 n := by
  funext i
  unfold window copy
  by_cases hi : i < n
  · rw [if_pos hi, if_pos (by omega), if_pos hi]
    congr 1
    omega
  · rw [if_neg hi, if_neg hi]

end Memory
