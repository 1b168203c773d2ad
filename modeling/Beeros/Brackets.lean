import Mathlib.Algebra.BigOperators.Group.List.Basic
import Mathlib.Algebra.Ring.Int.Defs
import Mathlib.Data.List.Infix

/-! Nested brackets. One pass with a stack of the places that are still open finds, for every closing bracket, the
opening bracket with which it encloses a balanced text. -/

namespace Beeros.Brackets

/-- What a character of a text is. -/
inductive Side
  | opens
  | closes
  | other
  deriving DecidableEq

def Side.value : Side → Int
  | opens => 1
  | closes => -1
  | other => 0

/-- Opening less closing brackets. -/
def depth (bs : List Side) : Int := (bs.map Side.value).sum

/-- No prefix closes more than it opens, and all that is opened is closed. -/
def Balanced (bs : List Side) : Prop := depth bs = 0 ∧ ∀ pre, pre <+: bs → 0 ≤ depth pre

def Side.push (k : Nat) (stack : List Nat) : Side → List Nat
  | opens => k :: stack
  | closes => stack.tail
  | other => stack

/-- The stack after `bs`, whose first place is `k`. -/
def stackAfter : Nat → List Nat → List Side → List Nat
  | _, stack, [] => stack
  | k, stack, b :: bs => stackAfter (k + 1) (b.push k stack) bs

/-- How many brackets `bs` closes that were open before. -/
def closed : List Side → Nat
  | [] => 0
  | .opens :: bs => closed bs - 1
  | .closes :: bs => closed bs + 1
  | .other :: bs => closed bs

variable {bs : List Side} {b : Side} {k o : Nat}

theorem depth_cons : depth (b :: bs) = b.value + depth bs := by
  rw [depth, List.map_cons, List.sum_cons]
  rfl

theorem depth_append (bs bs' : List Side) : depth (bs ++ bs') = depth bs + depth bs' := by
  rw [depth, List.map_append, List.sum_append]
  rfl

theorem balanced_of_other (h : ∀ b ∈ bs, b = .other) : Balanced bs := by
  have hzero (pre : List Side) (hpre : ∀ b ∈ pre, b = .other) : depth pre = 0 := by
    induction pre with
    | nil => rfl
    | cons b pre ih =>
        rw [List.forall_mem_cons] at hpre
        rw [depth_cons, ih hpre.2, hpre.1]
        rfl
  exact ⟨hzero bs h, fun pre hpre => Int.le_of_eq (hzero pre fun b hb => h b (hpre.subset hb)).symm⟩

theorem Balanced.append {bs' : List Side} (h : Balanced bs) (h' : Balanced bs') : Balanced (bs ++ bs') := by
  refine ⟨by rw [depth_append, h.1, h'.1]; rfl, fun pre hpre => ?_⟩
  rcases List.prefix_or_prefix_of_prefix hpre (List.prefix_append bs bs') with hin | ⟨v, rfl⟩
  · exact h.2 pre hin
  · rw [depth_append, h.1, zero_add]
    exact h'.2 v ((List.prefix_append_right_inj bs).mp hpre)

/-- The depth is zero at the end, and not before it. -/
def Enclosed (bs : List Side) : Prop := depth bs = 0 ∧ ∀ pre, pre <+: bs → pre ≠ [] → pre ≠ bs → depth pre ≠ 0

theorem depth_reverse (bs : List Side) : depth bs.reverse = depth bs := by
  rw [depth, List.map_reverse, List.sum_reverse]
  rfl

theorem Enclosed.reverse (h : Enclosed bs) : Enclosed bs.reverse := by
  refine ⟨(depth_reverse bs).trans h.1, fun v hv hne hall hzero => ?_⟩
  obtain ⟨w, hw⟩ := hv
  have hbs : bs = w.reverse ++ v.reverse := by rw [← List.reverse_append, hw, List.reverse_reverse]
  have hdepth := h.1
  rw [hbs, depth_append, depth_reverse v, hzero, add_zero] at hdepth
  refine h.2 w.reverse ⟨v.reverse, hbs.symm⟩ (fun hnil => hall ?_) (fun heq => hne ?_) hdepth
  · rw [← hw, List.reverse_eq_nil_iff.mp hnil, List.append_nil]
  · rw [heq, List.self_eq_append_right] at hbs
    exact List.reverse_eq_nil_iff.mp hbs

/-- The depth is the same from both ends. -/
theorem enclosed_reverse : Enclosed bs.reverse ↔ Enclosed bs :=
  ⟨fun h => List.reverse_reverse bs ▸ h.reverse, Enclosed.reverse⟩

/-- A balanced text between two brackets. -/
theorem Balanced.enclose (h : Balanced bs) : Enclosed (.opens :: (bs ++ [.closes])) := by
  refine ⟨?_, fun pre hpre hne hall => ?_⟩
  · rw [depth_cons, depth_append, h.1]
    rfl
  · rcases List.prefix_cons_iff.mp hpre with rfl | ⟨v, rfl, hv⟩
    · exact absurd rfl hne
    · rcases List.prefix_concat_iff.mp hv with rfl | hv
      · exact absurd rfl hall
      · have := h.2 v hv
        rw [depth_cons]
        show 1 + depth v ≠ 0
        omega

theorem Balanced.between (h : Balanced bs) : Balanced (.opens :: (bs ++ [.closes])) := by
  refine ⟨h.enclose.1, fun pre hpre => ?_⟩
  rcases List.prefix_cons_iff.mp hpre with rfl | ⟨v, rfl, hv⟩
  · exact Int.le_refl 0
  · rcases List.prefix_concat_iff.mp hv with rfl | hv
    · exact Int.le_of_eq h.enclose.1.symm
    · have := h.2 v hv
      rw [depth_cons]
      show 0 ≤ 1 + depth v
      omega

/-- A pass on a stack is the pass on the empty one above what is left of it. -/
theorem stackAfter_eq (stack : List Nat) : stackAfter k stack bs = stackAfter k [] bs ++ stack.drop (closed bs) := by
  induction bs generalizing k stack with
  | nil => rfl
  | cons b bs ih =>
      rw [stackAfter, stackAfter, ih]
      cases b with
      | opens =>
          show _ ++ (k :: stack).drop (closed bs) = stackAfter (k + 1) [k] bs ++ stack.drop (closed bs - 1)
          rw [ih [k], List.append_assoc]
          cases closed bs with
          | zero => rfl
          | succ n =>
              rw [List.drop_succ_cons, List.drop_succ_cons, List.drop_nil, List.nil_append, Nat.add_sub_cancel]
      | closes =>
          show _ ++ stack.tail.drop (closed bs) = _ ++ stack.drop (closed bs + 1)
          rw [List.drop_tail]
          rfl
      | other => rfl

theorem depth_eq : depth bs = (stackAfter k [] bs).length - closed bs := by
  induction bs generalizing k with
  | nil => rfl
  | cons b bs ih =>
      rw [depth_cons, ih (k := k + 1), stackAfter]
      cases b with
      | opens =>
          show 1 + _ = ((stackAfter (k + 1) [k] bs).length : Int) - (closed bs - 1 : Nat)
          rw [stackAfter_eq [k], List.length_append, List.length_drop, List.length_singleton]
          omega
      | closes =>
          show -1 + _ = ((stackAfter (k + 1) [] bs).length : Int) - (closed bs + 1 : Nat)
          omega
      | other => exact zero_add _

/-- With `d` brackets open before, no prefix closes more than are open. -/
theorem closed_le_iff {d : Nat} : closed bs ≤ d ↔ ∀ pre, pre <+: bs → 0 ≤ d + depth pre := by
  induction bs generalizing d with
  | nil =>
      refine ⟨fun _ pre hpre => ?_, fun _ => Nat.zero_le d⟩
      rw [List.prefix_nil.mp hpre]
      exact Int.natCast_nonneg d
  | cons b bs ih =>
      have hcons : (∀ pre, pre <+: b :: bs → 0 ≤ d + depth pre) ↔
          ∀ pre, pre <+: bs → 0 ≤ d + b.value + depth pre := by
        constructor
        · intro h pre hpre
          have := h (b :: pre) ((List.prefix_cons_inj b).mpr hpre)
          rwa [depth_cons, ← add_assoc] at this
        · intro h pre hpre
          rcases List.prefix_cons_iff.mp hpre with rfl | ⟨pre', rfl, hpre'⟩
          · exact Int.natCast_nonneg d
          · rw [depth_cons, ← add_assoc]
            exact h pre' hpre'
      rw [hcons]
      cases b with
      | opens =>
          rw [closed, Nat.sub_le_iff_le_add, ih]
          rfl
      | other =>
          rw [closed, ih]
          simp only [Side.value, add_zero]
      | closes =>
          rw [closed]
          cases d with
          | zero =>
              refine ⟨fun h => absurd h (by omega), fun h => ?_⟩
              exact absurd (h [] List.nil_prefix) (by decide)
          | succ d =>
              rw [Nat.succ_le_succ_iff, ih, show ((d + 1 : Nat) : Int) + Side.closes.value = d by
                simp only [Side.value]; omega]

theorem balanced_iff (k : Nat) : Balanced bs ↔ stackAfter k [] bs = [] ∧ closed bs = 0 := by
  have hclosed : closed bs = 0 ↔ ∀ pre, pre <+: bs → 0 ≤ depth pre := by
    rw [← Nat.le_zero, closed_le_iff]
    simp only [Int.natCast_zero, zero_add]
  rw [Balanced, ← hclosed, depth_eq (k := k), ← List.length_eq_zero_iff]
  omega

/-- The last bracket that is open is the one behind which the text is balanced. -/
theorem mem_head_iff : (stackAfter k [] bs).head? = some o ↔
    k ≤ o ∧ bs[o - k]? = some .opens ∧ Balanced (bs.drop (o - k + 1)) := by
  induction bs generalizing k with
  | nil => exact ⟨nofun, fun h => nomatch h.2.1⟩
  | cons b bs ih =>
      have hcons : (k ≤ o ∧ (b :: bs)[o - k]? = some .opens ∧ Balanced ((b :: bs).drop (o - k + 1))) ↔
          (o = k ∧ b = .opens ∧ Balanced bs) ∨ (stackAfter (k + 1) [] bs).head? = some o := by
        rw [ih]
        rcases Nat.lt_trichotomy o k with hlt | rfl | hgt
        · exact ⟨fun h => by omega, fun h => by omega⟩
        · rw [Nat.sub_self, List.getElem?_cons_zero, Option.some_inj, List.drop_succ_cons, List.drop_zero]
          exact ⟨fun h => .inl ⟨rfl, h.2⟩, fun h => h.elim (fun h => ⟨Nat.le_refl o, h.2⟩) fun h => by omega⟩
        · rw [show o - k = o - (k + 1) + 1 by omega, List.getElem?_cons_succ, List.drop_succ_cons]
          exact ⟨fun h => .inr ⟨hgt, h.2⟩, fun h => h.elim (fun h => by omega) fun h => ⟨by omega, h.2⟩⟩
      rw [hcons, stackAfter]
      cases b with
      | opens =>
          show (stackAfter (k + 1) [k] bs).head? = some o ↔ _
          rw [stackAfter_eq, List.head?_append, balanced_iff (k + 1)]
          cases hstack : stackAfter (k + 1) [] bs with
          | cons o' rest => simp
          | nil =>
              cases hclosed : closed bs with
              | zero => simp [eq_comm]
              | succ n => simp
      | closes => simp [Side.push]
      | other => simp [Side.push]

end Beeros.Brackets
