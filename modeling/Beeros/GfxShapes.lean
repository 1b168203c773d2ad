import Mathlib.Analysis.Real.Sqrt
import Mathlib.Data.List.Nodup
import Mathlib.Data.List.Range
import Mathlib.Tactic.Linarith
import Mathlib.Tactic.Ring
import Beeros.Beerlang
import Beeros.Gfx

/-! `line!` and `circle!` of `lib/gfx.beer`. What they do to the screen is a sequence of calls of `set-pixel!`, so they
are stated for any `set-pixel!`; the theorems name the pixels it is called for, in order. -/

namespace Beeros.Gfx

open Beerlang

/-! ### Lines -/

section Line

/-- One round of the loop of `line!`; `setPixel` is `set-pixel!` with the color. -/
def lineRound {σ : Type} (setPixel : Pos → σ → σ) (x1 y1 x2 y2 : Int) :
    Int × Int × Int × σ → Except Error (σ ⊕ (Int × Int × Int × σ))
  | (x, y, err, s) =>
      let dx : Int := (x2 - x1).natAbs
      let dy : Int := (y2 - y1).natAbs
      let sx : Int := if x1 < x2 then 1 else -1
      let sy : Int := if y1 < y2 then 1 else -1
      let s := setPixel (x, y) s
      if x = x2 ∧ y = y2 then .ok (.inl s)
      else
        let e2 := 2 * err
        .ok (.inr (if e2 > -dy then x + sx else x, if e2 < dx then y + sy else y,
          err + (if e2 > -dy then -dy else 0) + (if e2 < dx then dx else 0), s))

def line {σ : Type} (setPixel : Pos → σ → σ) (x1 y1 x2 y2 : Int) (fuel : Nat) (s : σ) : Except Error σ :=
  loop (lineRound setPixel x1 y1 x2 y2) fuel (x1, y1, (x2 - x1).natAbs - (y2 - y1).natAbs, s)

/-- The distances from the first point along both axes and `err`, after each round. -/
def offsets (dx dy : Int) : Nat → Int × Int × Int
  | 0 => (0, 0, dx - dy)
  | k + 1 =>
      let o := offsets dx dy k
      (if 2 * o.2.2 > -dy then o.1 + 1 else o.1, if 2 * o.2.2 < dx then o.2.1 + 1 else o.2.1,
        o.2.2 + (if 2 * o.2.2 > -dy then -dy else 0) + (if 2 * o.2.2 < dx then dx else 0))

variable {dx dy : Int} {k : Nat}

/-- The axes change places. -/
theorem offsets_swap (dx dy : Int) (k : Nat) :
    offsets dy dx k = ((offsets dx dy k).2.1, (offsets dx dy k).1, -(offsets dx dy k).2.2) := by
  induction k with
  | zero => simp only [offsets, Int.neg_sub]
  | succ k ih =>
      simp only [offsets, ih]
      refine Prod.ext ?_ (Prod.ext ?_ ?_) <;> dsimp only <;> split_ifs <;> omega

/-- Along the longer axis each round goes on by one, along the other one the point stays within half a pixel, and `err`
is what it says. -/
structure Follows (dx dy : Int) (k : Nat) : Prop where
  major : (offsets dx dy k).1 = k
  err : (offsets dx dy k).2.2 = ((offsets dx dy k).2.1 + 1) * dx - (k + 1) * dy
  below : -dx ≤ 2 * ((offsets dx dy k).2.1 * dx - k * dy)
  above : 2 * ((offsets dx dy k).2.1 * dx - k * dy) ≤ dx

theorem follows (hdy : 0 ≤ dy) (hle : dy ≤ dx) (hk : (k : Int) ≤ dx) : Follows dx dy k := by
  induction k with
  | zero =>
      refine ⟨rfl, ?_, ?_, ?_⟩ <;> simp only [offsets] <;> push_cast <;> linarith
  | succ k ih =>
      obtain ⟨hmajor, herr, hbelow, habove⟩ := ih (by omega)
      generalize hy : (offsets dx dy k).2.1 = y at herr hbelow habove
      have hdist : y * dx + dx - (k * dy + dy) = (offsets dx dy k).2.2 := by
        rw [herr]
        ring
      -- the test for the longer axis always holds
      have hmove : 2 * (offsets dx dy k).2.2 > -dy := by
        rcases Int.lt_or_eq_of_le hle with hlt | rfl
        · omega
        · have hgap : (k : Int) ≤ y := by
            by_contra hlt
            have := Int.mul_le_mul_of_nonneg_right (show y + 1 ≤ k by omega) hdy
            rw [Int.add_mul] at this
            omega
          have := Int.mul_le_mul_of_nonneg_right hgap hdy
          omega
      have hnext : (offsets dx dy (k + 1)).2.1 * dx - (k + 1 : Nat) * dy =
          if 2 * (offsets dx dy k).2.2 < dx then y * dx + dx - (k * dy + dy) else y * dx - (k * dy + dy) := by
        simp only [offsets, hy]
        push_cast
        split_ifs <;> ring
      refine ⟨?_, ?_, ?_, ?_⟩
      · simp only [offsets, if_pos hmove, hmajor]
        push_cast
        rfl
      · simp only [offsets, if_pos hmove, hy]
        rw [herr]
        push_cast
        split_ifs <;> ring
      · rw [hnext]
        split_ifs <;> omega
      · rw [hnext]
        split_ifs <;> omega

/-- The point is between the ends, and within half a pixel of the line. -/
structure Between (dx dy : Int) (k : Nat) : Prop where
  x : 0 ≤ (offsets dx dy k).1 ∧ (offsets dx dy k).1 ≤ dx
  y : 0 ≤ (offsets dx dy k).2.1 ∧ (offsets dx dy k).2.1 ≤ dy
  near : (2 * ((offsets dx dy k).2.1 * dx - (offsets dx dy k).1 * dy)).natAbs ≤ max dx dy
  major : (if dy ≤ dx then (offsets dx dy k).1 else (offsets dx dy k).2.1) = k
  at_end : (k : Int) = max dx dy ↔ (offsets dx dy k).1 = dx ∧ (offsets dx dy k).2.1 = dy

theorem offsets_nonneg (dx dy : Int) (k : Nat) : 0 ≤ (offsets dx dy k).1 ∧ 0 ≤ (offsets dx dy k).2.1 := by
  induction k with
  | zero => exact ⟨Int.le_refl 0, Int.le_refl 0⟩
  | succ k ih =>
      simp only [offsets]
      split_ifs <;> omega

theorem Follows.between (h : Follows dx dy k) (hdy : 0 ≤ dy) (hle : dy ≤ dx) (hk : (k : Int) ≤ dx) :
    Between dx dy k := by
  have hmax : max dx dy = dx := max_eq_left hle
  rcases Int.le_iff_lt_or_eq.mp (Int.le_trans hdy hle) with hdx | rfl
  · obtain ⟨hmajor, -, hbelow, habove⟩ := h
    obtain ⟨y, hy⟩ : ∃ y, (offsets dx dy k).2.1 = y := ⟨_, rfl⟩
    have hnonneg := (offsets_nonneg dx dy k).2
    rw [hy] at hbelow habove hnonneg
    have hky := Int.mul_le_mul_of_nonneg_right hk hdy
    have htop : y ≤ dy := by
      by_contra hlt
      have := Int.mul_le_mul_of_nonneg_right (show dy + 1 ≤ y by omega) hdx.le
      rw [Int.add_mul, Int.mul_comm dy dx] at this
      omega
    have hend (heq : (k : Int) = dx) : y = dy := by
      by_contra hne
      have := Int.mul_le_mul_of_nonneg_right (show y + 1 ≤ dy by omega) hdx.le
      rw [Int.add_mul, Int.mul_comm dy dx] at this
      rw [heq] at hbelow
      omega
    refine ⟨?_, ?_, ?_, ?_, ?_⟩
    · rw [hmajor]
      omega
    · rw [hy]
      exact ⟨hnonneg, htop⟩
    · rw [hmajor, hy, hmax]
      omega
    · rw [if_pos hle, hmajor]
    · rw [hmajor, hy, hmax]
      exact ⟨fun heq => ⟨heq, hend heq⟩, fun heq => heq.1⟩
  · obtain rfl : k = 0 := by omega
    obtain rfl : dy = 0 := by omega
    exact ⟨⟨le_rfl, le_rfl⟩, ⟨le_rfl, le_rfl⟩, le_rfl, rfl, iff_of_true rfl ⟨rfl, rfl⟩⟩

theorem between (hdx : 0 ≤ dx) (hdy : 0 ≤ dy) (hk : (k : Int) ≤ max dx dy) : Between dx dy k := by
  by_cases hle : dy ≤ dx
  · rw [max_eq_left hle] at hk
    exact (follows hdy hle hk).between hdy hle hk
  · have hlt : dx < dy := Int.not_le.mp hle
    rw [max_eq_right hlt.le] at hk
    obtain ⟨hx, hy, hnear, hmajor, hend⟩ := (follows hdx hlt.le hk).between hdx hlt.le hk
    rw [offsets_swap dx dy k] at hx hy hnear hmajor hend
    rw [if_pos hlt.le] at hmajor
    refine ⟨hy, hx, ?_, by rw [if_neg hle, hmajor], ?_⟩
    · rw [max_comm, ← Int.natAbs_neg]
      convert hnear using 3
      ring
    · rw [max_comm, hend, and_comm]

/-- The pixel of each round. -/
def linePoint (x1 y1 x2 y2 : Int) (k : Nat) : Pos :=
  let o := offsets (x2 - x1).natAbs (y2 - y1).natAbs k
  (x1 + (if x1 < x2 then 1 else -1) * o.1, y1 + (if y1 < y2 then 1 else -1) * o.2.1)

variable {x1 y1 x2 y2 : Int}

theorem linePoint_between (hk : k ≤ max (x2 - x1).natAbs (y2 - y1).natAbs) :
    Between (x2 - x1).natAbs (y2 - y1).natAbs k :=
  between (Int.natCast_nonneg _) (Int.natCast_nonneg _) (by omega)

theorem linePoint_eq_end (hk : k ≤ max (x2 - x1).natAbs (y2 - y1).natAbs) :
    linePoint x1 y1 x2 y2 k = (x2, y2) ↔ k = max (x2 - x1).natAbs (y2 - y1).natAbs := by
  have h := linePoint_between hk
  have hend := h.at_end
  have hx := h.x
  have hy := h.y
  unfold linePoint
  dsimp only
  rw [Prod.mk.injEq]
  split_ifs <;> omega

theorem lineRound_end {σ : Type} (setPixel : Pos → σ → σ) (err : Int) (s : σ) :
    lineRound setPixel x1 y1 x2 y2 (x2, y2, err, s) = .ok (.inl (setPixel (x2, y2) s)) :=
  if_pos ⟨rfl, rfl⟩

theorem lineRound_next {σ : Type} (setPixel : Pos → σ → σ) (hk : k < max (x2 - x1).natAbs (y2 - y1).natAbs) (s : σ) :
    lineRound setPixel x1 y1 x2 y2 ((linePoint x1 y1 x2 y2 k).1, (linePoint x1 y1 x2 y2 k).2,
        (offsets (x2 - x1).natAbs (y2 - y1).natAbs k).2.2, s) =
      .ok (.inr ((linePoint x1 y1 x2 y2 (k + 1)).1, (linePoint x1 y1 x2 y2 (k + 1)).2,
        (offsets (x2 - x1).natAbs (y2 - y1).natAbs (k + 1)).2.2, setPixel (linePoint x1 y1 x2 y2 k) s)) := by
  have hne : ¬((linePoint x1 y1 x2 y2 k).1 = x2 ∧ (linePoint x1 y1 x2 y2 k).2 = y2) := by
    rw [← Prod.mk.injEq, linePoint_eq_end hk.le]
    exact hk.ne
  unfold lineRound
  dsimp only
  rw [if_neg hne]
  refine congrArg (Except.ok ∘ Sum.inr) (Prod.ext ?_ (Prod.ext ?_ rfl))
  · simp only [linePoint, offsets]
    generalize (if x1 < x2 then (1 : Int) else -1) = sx
    split_ifs <;> ring
  · simp only [linePoint, offsets]
    generalize (if y1 < y2 then (1 : Int) else -1) = sy
    split_ifs <;> ring

/-- The loop from one of its pixels on. -/
theorem line_from {σ : Type} (setPixel : Pos → σ → σ) {n fuel : Nat}
    (hn : k + n = max (x2 - x1).natAbs (y2 - y1).natAbs) (hfuel : n < fuel) (s : σ) :
    loop (lineRound setPixel x1 y1 x2 y2) fuel
        ((linePoint x1 y1 x2 y2 k).1, (linePoint x1 y1 x2 y2 k).2,
          (offsets (x2 - x1).natAbs (y2 - y1).natAbs k).2.2, s) =
      .ok (((List.range' k (n + 1)).map (linePoint x1 y1 x2 y2)).foldl (fun s p => setPixel p s) s) := by
  induction n generalizing k fuel s with
  | zero =>
      obtain ⟨fuel, rfl⟩ : ∃ f, fuel = f + 1 := ⟨fuel - 1, by omega⟩
      have hend := (linePoint_eq_end (Nat.le_of_eq hn)).mpr hn
      rw [Nat.add_zero] at hend
      rw [loop, List.range'_one, List.map_singleton, List.foldl_cons, List.foldl_nil, hend, lineRound_end]
      rfl
  | succ n ih =>
      obtain ⟨fuel, rfl⟩ : ∃ f, fuel = f + 1 := ⟨fuel - 1, by omega⟩
      rw [loop, lineRound_next setPixel (by omega), ok_bind, List.range'_succ, List.map_cons, List.foldl_cons]
      exact ih (by omega) (by omega) _

/-- What is drawn for a line: the pixels in order. Each step goes on by at most one pixel and not away from the end;
twice the distance from the line along the shorter axis, times the length along the longer one, is at most that
length. -/
structure Traced (x1 y1 x2 y2 : Int) (ps : List Pos) : Prop where
  length : ps.length = max (x2 - x1).natAbs (y2 - y1).natAbs + 1
  nodup : ps.Nodup
  first : ps.head? = some (x1, y1)
  last : ps.getLast? = some (x2, y2)
  steps : ps.IsChain fun p q => (q.1 - p.1).natAbs ≤ 1 ∧ (q.2 - p.2).natAbs ≤ 1 ∧
    (x2 - q.1).natAbs ≤ (x2 - p.1).natAbs ∧ (y2 - q.2).natAbs ≤ (y2 - p.2).natAbs
  near : ∀ p ∈ ps, (2 * ((p.2 - y1) * (x2 - x1) - (p.1 - x1) * (y2 - y1))).natAbs ≤
    max (x2 - x1).natAbs (y2 - y1).natAbs

theorem linePoint_injOn {i j : Nat} (hi : i ≤ max (x2 - x1).natAbs (y2 - y1).natAbs)
    (hj : j ≤ max (x2 - x1).natAbs (y2 - y1).natAbs) (h : linePoint x1 y1 x2 y2 i = linePoint x1 y1 x2 y2 j) :
    i = j := by
  have hmi := (linePoint_between hi).major
  have hmj := (linePoint_between hj).major
  unfold linePoint at h
  dsimp only at h
  rw [Prod.mk.injEq] at h
  split_ifs at h hmi hmj <;> omega

theorem linePoint_step (hk : k < max (x2 - x1).natAbs (y2 - y1).natAbs) :
    let p := linePoint x1 y1 x2 y2 k
    let q := linePoint x1 y1 x2 y2 (k + 1)
    (q.1 - p.1).natAbs ≤ 1 ∧ (q.2 - p.2).natAbs ≤ 1 ∧
      (x2 - q.1).natAbs ≤ (x2 - p.1).natAbs ∧ (y2 - q.2).natAbs ≤ (y2 - p.2).natAbs := by
  have h := linePoint_between (Nat.succ_le_of_lt hk)
  have hx := h.x
  have hy := h.y
  simp only [linePoint, offsets] at hx hy ⊢
  refine ⟨?_, ?_, ?_, ?_⟩ <;> split_ifs at hx hy ⊢ <;> omega

theorem linePoint_near (hk : k ≤ max (x2 - x1).natAbs (y2 - y1).natAbs) :
    (2 * (((linePoint x1 y1 x2 y2 k).2 - y1) * (x2 - x1) - ((linePoint x1 y1 x2 y2 k).1 - x1) * (y2 - y1))).natAbs ≤
      max (x2 - x1).natAbs (y2 - y1).natAbs := by
  have h := (linePoint_between hk).near
  have hx : x2 - x1 = (if x1 < x2 then 1 else -1) * ((x2 - x1).natAbs : Int) := by split_ifs <;> omega
  have hy : y2 - y1 = (if y1 < y2 then 1 else -1) * ((y2 - y1).natAbs : Int) := by split_ifs <;> omega
  have hsign : ∀ p : Prop, [Decidable p] → (if p then (1 : Int) else -1).natAbs = 1 := by
    intro p _
    split_ifs <;> rfl
  have hcross : 2 * (((linePoint x1 y1 x2 y2 k).2 - y1) * (x2 - x1) - ((linePoint x1 y1 x2 y2 k).1 - x1) * (y2 - y1)) =
      (if x1 < x2 then 1 else -1) * (if y1 < y2 then 1 else -1) *
        (2 * ((offsets (x2 - x1).natAbs (y2 - y1).natAbs k).2.1 * (x2 - x1).natAbs -
          (offsets (x2 - x1).natAbs (y2 - y1).natAbs k).1 * (y2 - y1).natAbs)) := by
    simp only [linePoint]
    generalize offsets (x2 - x1).natAbs (y2 - y1).natAbs k = o
    generalize (if x1 < x2 then (1 : Int) else -1) = sx at hx ⊢
    generalize (if y1 < y2 then (1 : Int) else -1) = sy at hy ⊢
    generalize ((x2 - x1).natAbs : Int) = dx at hx ⊢
    generalize ((y2 - y1).natAbs : Int) = dy at hy ⊢
    rw [hx, hy]
    ring
  rw [hcross, Int.natAbs_mul, Int.natAbs_mul, hsign, hsign, Nat.one_mul]
  omega

/-- `line!` comes to its end, and the pixels it sets are the line. -/
theorem line_traced (x1 y1 x2 y2 : Int) : ∃ ps, Traced x1 y1 x2 y2 ps ∧
    ∀ (σ : Type) (setPixel : Pos → σ → σ) (s : σ) (fuel : Nat), ps.length ≤ fuel →
      line setPixel x1 y1 x2 y2 fuel s = .ok (ps.foldl (fun s p => setPixel p s) s) := by
  refine ⟨(List.range (max (x2 - x1).natAbs (y2 - y1).natAbs + 1)).map (linePoint x1 y1 x2 y2),
    ⟨?_, ?_, ?_, ?_, ?_, ?_⟩, fun σ setPixel s fuel hfuel => ?_⟩
  · rw [List.length_map, List.length_range]
  · refine List.Nodup.map_on (fun i hi j hj h => ?_) List.nodup_range
    rw [List.mem_range] at hi hj
    exact linePoint_injOn (by omega) (by omega) h
  · rw [List.range_succ_eq_map, List.map_cons, List.head?_cons]
    simp only [linePoint, offsets, Int.mul_zero, Int.add_zero]
  · rw [List.range_succ, List.map_append, List.map_singleton, List.getLast?_concat,
      (linePoint_eq_end le_rfl).mpr rfl]
  · rw [List.isChain_map, List.isChain_range_succ]
    exact fun k hk => linePoint_step hk
  · intro p hp
    obtain ⟨k, hk, rfl⟩ := List.mem_map.mp hp
    rw [List.mem_range] at hk
    exact linePoint_near (by omega)
  · rw [List.length_map, List.length_range] at hfuel
    have h := line_from setPixel (k := 0) (Nat.zero_add (max (x2 - x1).natAbs (y2 - y1).natAbs)) hfuel s
    rw [List.range_eq_range', ← h]
    simp only [linePoint, offsets, line, Int.mul_zero, Int.add_zero]

end Line

/-! ### Circles -/

section Circle

/-- The eight pixels for one point of the first octant. -/
def octants (cx cy x y : Int) : List Pos :=
  [(cx + x, cy + y), (cx + y, cy + x), (cx - x, cy + y), (cx - y, cy + x),
    (cx + x, cy - y), (cx + y, cy - x), (cx - x, cy - y), (cx - y, cy - x)]

/-- One round of the loop of `circle!`. -/
def circleRound {σ : Type} (setPixel : Pos → σ → σ) (cx cy : Int) :
    Int × Int × Int × σ → Except Error (σ ⊕ (Int × Int × Int × σ))
  | (x, y, d, s) =>
      if x ≤ y then
        let s := (octants cx cy x y).foldl (fun s p => setPixel p s) s
        if d < 0 then .ok (.inr (x + 1, y, d + 2 * x + 3, s))
        else .ok (.inr (x + 1, y - 1, d + 2 * (x - y) + 5, s))
      else .ok (.inl s)

/-- `circle!`. -/
def circle {σ : Type} (setPixel : Pos → σ → σ) (cx cy r : Int) (fuel : Nat) (s : σ) : Except Error σ :=
  loop (circleRound setPixel cx cy) fuel (0, r, 1 - r, s)

/-- `y` and `d` after each round. -/
def column (r : Int) : Nat → Int × Int
  | 0 => (r, 1 - r)
  | k + 1 =>
      let c := column r k
      if c.2 < 0 then (c.1, c.2 + 2 * k + 3) else (c.1 - 1, c.2 + 2 * (k - c.1) + 5)

/-- `y` is the integer nearest to the circle above `x`. -/
def Nearest (r x y : Int) : Prop := x ^ 2 + y ^ 2 - y < r ^ 2 ∧ r ^ 2 ≤ x ^ 2 + y ^ 2 + y

variable {r x y y' : Int} {k : Nat}

theorem column_d (r : Int) (k : Nat) :
    (column r k).2 = (k + 1) ^ 2 + (column r k).1 ^ 2 - (column r k).1 - r ^ 2 := by
  induction k with
  | zero =>
      simp only [column]
      push_cast
      ring
  | succ k ih =>
      simp only [column]
      split_ifs <;> dsimp only <;> rw [ih] <;> push_cast <;> ring

theorem column_succ_le (r : Int) (k : Nat) : (column r (k + 1)).1 ≤ (column r k).1 := by
  simp only [column]
  split_ifs <;> dsimp only <;> omega

/-- The points that are drawn are nearest to the circle. -/
theorem column_nearest (hr : 1 ≤ r) (hk : (k : Int) ≤ (column r k).1) : Nearest r k (column r k).1 := by
  induction k with
  | zero =>
      show (0 : Int) ^ 2 + r ^ 2 - r < r ^ 2 ∧ r ^ 2 ≤ (0 : Int) ^ 2 + r ^ 2 + r
      constructor <;> linarith
  | succ k ih =>
      have hle := column_succ_le r k
      push_cast at hk ⊢
      obtain ⟨hlow, hup⟩ := ih (by omega)
      have hd := column_d r k
      simp only [column] at hk ⊢
      generalize (column r k).1 = y at *
      unfold Nearest
      split_ifs at hk ⊢ with hneg <;> dsimp only at hk ⊢
      · constructor <;> nlinarith
      · constructor <;> nlinarith

theorem Nearest.unique (hy : 0 ≤ y) (hy' : 0 ≤ y') (h : Nearest r x y) (h' : Nearest r x y') : y = y' := by
  have hle : ∀ {a b : Int}, 0 ≤ a → 0 ≤ b → Nearest r x a → Nearest r x b → a ≤ b := by
    intro a b _ hb ha hb'
    by_contra hlt
    have := ha.1
    have := hb'.2
    nlinarith
  exact le_antisymm (hle hy hy' h h') (hle hy' hy h' h)

/-- Where the columns end no point of the first octant is left. -/
theorem Nearest.le_column (hr : 1 ≤ r) (hk : (column r k).1 < k) (h : Nearest r x y) (hxy : x ≤ y) : x < k := by
  induction k with
  | zero =>
      have : r < 0 := hk
      omega
  | succ j ih =>
      by_cases hj : (column r j).1 < j
      · have := ih hj
        push_cast
        omega
      · obtain ⟨hlow, hup⟩ := column_nearest hr (Int.not_lt.mp hj)
        have hd := column_d r j
        have hbound : r ^ 2 ≤ (j + 1) ^ 2 + (j + 1) * j := by
          simp only [column] at hk
          generalize (column r j).1 = z at *
          split_ifs at hk with hneg <;> dsimp only at hk <;> push_cast at hk <;> nlinarith
        by_contra hle
        have hlow' := h.1
        push_cast at hle
        have hx : (j : Int) + 1 ≤ x := Int.not_lt.mp hle
        nlinarith

theorem mem_octants {cx cy u v : Int} : (cx + u, cy + v) ∈ octants cx cy x y ↔
    (u = x ∨ u = -x) ∧ (v = y ∨ v = -y) ∨ (u = y ∨ u = -y) ∧ (v = x ∨ v = -x) := by
  unfold octants
  simp only [List.mem_cons, List.not_mem_nil, or_false, Prod.mk.injEq]
  omega

theorem column_le (r : Int) (k : Nat) : (column r k).1 ≤ r := by
  induction k with
  | zero => exact le_rfl
  | succ k ih => exact (column_succ_le r k).trans ih

theorem circleRound_next {σ : Type} (setPixel : Pos → σ → σ) (cx cy : Int) (hk : (k : Int) ≤ (column r k).1) (s : σ) :
    circleRound setPixel cx cy (k, (column r k).1, (column r k).2, s) =
      .ok (.inr ((k + 1 : Nat), (column r (k + 1)).1, (column r (k + 1)).2,
        (octants cx cy k (column r k).1).foldl (fun s p => setPixel p s) s)) := by
  unfold circleRound
  dsimp only
  rw [if_pos hk]
  simp only [column]
  split_ifs <;> rfl

/-- The loop from one of its columns on. -/
theorem circle_from {σ : Type} (setPixel : Pos → σ → σ) (cx cy : Int) {n fuel : Nat}
    (hend : (column r (k + n)).1 < (k + n : Nat)) (hbefore : ∀ j < k + n, (j : Int) ≤ (column r j).1)
    (hfuel : n < fuel) (s : σ) :
    loop (circleRound setPixel cx cy) fuel (k, (column r k).1, (column r k).2, s) =
      .ok (((List.range' k n).flatMap fun j : Nat => octants cx cy j (column r j).1).foldl (fun s p => setPixel p s) s) := by
  induction n generalizing k fuel s with
  | zero =>
      obtain ⟨fuel, rfl⟩ : ∃ f, fuel = f + 1 := ⟨fuel - 1, by omega⟩
      have hstop : circleRound setPixel cx cy (k, (column r k).1, (column r k).2, s) = .ok (.inl s) :=
        if_neg (Int.not_le.mpr hend)
      rw [loop, hstop]
      rfl
  | succ n ih =>
      obtain ⟨fuel, rfl⟩ : ∃ f, fuel = f + 1 := ⟨fuel - 1, by omega⟩
      rw [loop, circleRound_next setPixel cx cy (hbefore k (by omega)), ok_bind, List.range'_succ, List.flatMap_cons,
        List.foldl_append]
      rw [← Nat.succ_add_eq_add_succ] at hend hbefore
      exact ih hend hbefore (by omega) _

/-- The points of the first octant, in order: one in each column from 0 up to the diagonal, the nearest to the
circle. -/
structure Octant (r : Int) (os : List Pos) : Prop where
  mem : ∀ p, p ∈ os ↔ 0 ≤ p.1 ∧ p.1 ≤ p.2 ∧ Nearest r p.1 p.2
  columns : os.map Prod.fst = (List.range os.length).map Nat.cast
  near : ∀ p ∈ os, |(p.2 : ℝ) - √((r : ℝ) ^ 2 - (p.1 : ℝ) ^ 2)| < 1 / 2

/-- The pixels for the points of the first octant. -/
def circlePixels (cx cy : Int) (os : List Pos) : List Pos := os.flatMap fun p => octants cx cy p.1 p.2

/-- Offsets from the centre can change places and signs. -/
def Symmetric (cx cy : Int) (ps : List Pos) : Prop :=
  ∀ u v, ((cx + u, cy + v) ∈ ps ↔ (cx + v, cy + u) ∈ ps) ∧ ((cx + u, cy + v) ∈ ps ↔ (cx - u, cy + v) ∈ ps) ∧
    ((cx + u, cy + v) ∈ ps ↔ (cx + u, cy - v) ∈ ps)

theorem symmetric_circlePixels (cx cy : Int) (os : List Pos) : Symmetric cx cy (circlePixels cx cy os) := by
  intro u v
  unfold circlePixels
  rw [sub_eq_add_neg cx, sub_eq_add_neg cy]
  simp only [List.mem_flatMap, mem_octants]
  refine ⟨?_, ?_, ?_⟩ <;> exact exists_congr fun p => and_congr_right fun _ => by omega

/-- The nearest integer is less than half a pixel away. -/
theorem Nearest.sqrt (hy : 1 ≤ y) (h : Nearest r x y) : |(y : ℝ) - √((r : ℝ) ^ 2 - (x : ℝ) ^ 2)| < 1 / 2 := by
  obtain ⟨hlow, hup⟩ := h
  have hlow' : (x : ℝ) ^ 2 + (y : ℝ) ^ 2 - y + 1 ≤ (r : ℝ) ^ 2 := by exact_mod_cast hlow
  have hup' : (r : ℝ) ^ 2 ≤ (x : ℝ) ^ 2 + (y : ℝ) ^ 2 + y := by exact_mod_cast hup
  have hy' : (1 : ℝ) ≤ y := by exact_mod_cast hy
  have habove : (y : ℝ) - 1 / 2 < √((r : ℝ) ^ 2 - (x : ℝ) ^ 2) := Real.lt_sqrt_of_sq_lt (by nlinarith)
  have hbelow : √((r : ℝ) ^ 2 - (x : ℝ) ^ 2) < (y : ℝ) + 1 / 2 := (Real.sqrt_lt' (by linarith)).mpr (by nlinarith)
  rw [abs_lt]
  constructor <;> linarith

/-- `circle!` comes to its end, and the pixels it sets are those for the nearest points of the first octant. -/
theorem circle_traced (cx cy : Int) (hr : 1 ≤ r) : ∃ os, Octant r os ∧ Symmetric cx cy (circlePixels cx cy os) ∧
    ∀ (σ : Type) (setPixel : Pos → σ → σ) (s : σ) (fuel : Nat), os.length < fuel →
      circle setPixel cx cy r fuel s = .ok ((circlePixels cx cy os).foldl (fun s p => setPixel p s) s) := by
  have hstop : ∃ k : Nat, (column r k).1 < k := by
    refine ⟨r.toNat + 1, ?_⟩
    have := column_le r (r.toNat + 1)
    omega
  obtain ⟨n, hend, hbefore⟩ : ∃ n : Nat, (column r n).1 < n ∧ ∀ k < n, (k : Int) ≤ (column r k).1 :=
    ⟨Nat.find hstop, Nat.find_spec hstop, fun k hk => Int.not_lt.mp (Nat.find_min hstop hk)⟩
  have hmem (p : Pos) : p ∈ (List.range n).map (fun k : Nat => ((k : Int), (column r k).1)) ↔
      0 ≤ p.1 ∧ p.1 ≤ p.2 ∧ Nearest r p.1 p.2 := by
    rw [List.mem_map]
    constructor
    · rintro ⟨k, hk, rfl⟩
      have hle := hbefore k (List.mem_range.mp hk)
      exact ⟨Int.natCast_nonneg k, hle, column_nearest hr hle⟩
    · rintro ⟨h0, hle, hnear⟩
      obtain ⟨k, hk⟩ := Int.eq_ofNat_of_zero_le h0
      have hlt := hnear.le_column hr hend hle
      refine ⟨k, List.mem_range.mpr (by omega), Prod.ext hk.symm ?_⟩
      have hk' := hbefore k (by omega)
      rw [hk] at hle hnear
      exact Nearest.unique (by omega) (by omega) (column_nearest hr hk') hnear
  refine ⟨(List.range n).map fun k : Nat => ((k : Int), (column r k).1), ⟨hmem, ?_, fun p hp => ?_⟩,
    symmetric_circlePixels _ _ _, fun σ setPixel s fuel hfuel => ?_⟩
  · rw [List.map_map, List.length_map, List.length_range]
    rfl
  · obtain ⟨h0, hle, hnear⟩ := (hmem p).mp hp
    refine hnear.sqrt ?_
    by_contra hlt
    have hp1 : p.1 = 0 := by omega
    have hp2 : p.2 = 0 := by omega
    have hup := hnear.2
    rw [hp1, hp2] at hup
    nlinarith
  · rw [List.length_map, List.length_range] at hfuel
    have h := circle_from setPixel cx cy (r := r) (k := 0) (n := n) (by rwa [Nat.zero_add])
      (by rwa [Nat.zero_add]) hfuel s
    unfold circle circlePixels
    rw [List.flatMap_map, List.range_eq_range', ← h]
    rfl

theorem circle_traced_two : ∃ os, Octant 2 os ∧ Symmetric 0 0 (circlePixels 0 0 os) ∧
    ∀ (σ : Type) (setPixel : Pos → σ → σ) (s : σ) (fuel : Nat), os.length < fuel →
      circle setPixel 0 0 2 fuel s = .ok ((circlePixels 0 0 os).foldl (fun s p => setPixel p s) s) :=
  circle_traced 0 0 (by decide)

end Circle

end Beeros.Gfx
