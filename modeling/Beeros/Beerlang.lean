import Mathlib.Data.Bool.AllAny
import Mathlib.Data.Char
import Mathlib.Data.List.Basic
import Mathlib.Data.List.Lex

/-! What the programs use of beerlang: vectors and strings whose accessors throw outside their range,
and `loop`/`recur`. A string is a list of characters. -/

namespace Beeros

abbrev Str := List Char

inductive Error
  /-- `nth`, `subs`, `subvec` or `assoc` outside the vector or string. -/
  | outOfRange
  /-- `read-string` of a text that is not one complete form. -/
  | unreadable
  /-- A native function refuses its arguments. -/
  | native
  /-- The loop goes on after the rounds it was given. -/
  | endless
deriving DecidableEq, Repr

namespace Beerlang

variable {α σ : Type}

def nth (v : List α) (i : Int) : Except Error α :=
  match if i < 0 then none else v[i.toNat]? with
  | some a => .ok a
  | none => .error .outOfRange

/-- `(subvec v start end)`, `(subs s start end)`. -/
def subvec (v : List α) (start stop : Int) : Except Error (List α) :=
  if 0 ≤ start ∧ start ≤ stop ∧ stop ≤ v.length then .ok ((v.take stop.toNat).drop start.toNat)
  else .error .outOfRange

/-- `(subvec v start)`, `(subs s start)`. -/
def subvecFrom (v : List α) (start : Int) : Except Error (List α) := subvec v start v.length

/-- `(assoc v i a)` on a vector. -/
def assocAt (v : List α) (i : Nat) (a : α) : Except Error (List α) :=
  if i < v.length then .ok (v.set i a) else if i = v.length then .ok (v ++ [a]) else .error .outOfRange

/-- `(loop ...)`: a round ends the loop or gives the values for the next one. -/
def loop (round : σ → Except Error (α ⊕ σ)) : Nat → σ → Except Error α
  | 0, _ => .error .endless
  | fuel + 1, s => do
      match ← round s with
      | .inl a => pure a
      | .inr s' => loop round fuel s'

@[simp] theorem ok_bind {ε β : Type} (a : α) (f : α → Except ε β) : (Except.ok a >>= f) = f a := rfl

theorem bind_eq_ok {ε β : Type} {x : Except ε α} {f : α → Except ε β} {b : β} :
    (x >>= f) = .ok b ↔ ∃ a, x = .ok a ∧ f a = .ok b := by
  cases x with
  | ok a => exact ⟨fun h => ⟨a, rfl, h⟩, fun ⟨_, ha, h⟩ => by cases ha; exact h⟩
  | error e => exact ⟨nofun, fun ⟨_, ha, _⟩ => by cases ha⟩

/-- `(str n)`. -/
def decimal (n : Nat) : Str := Nat.toDigits 10 n

theorem decimal_injective : Function.Injective decimal := by
  intro m n h
  rw [← Nat.ofDigitChars_ten_toDigits (n := m), ← Nat.ofDigitChars_ten_toDigits (n := n)]
  exact congrArg (fun ds => Nat.ofDigitChars 10 ds 0) h

theorem isDigit_of_mem_decimal {c : Char} {n : Nat} (h : c ∈ decimal n) : c.isDigit = true :=
  Nat.isDigit_of_mem_toDigits (by decide) (by decide) h

/-- Numbers with a separator between them. -/
theorem mem_intercalate_decimal {c sep : Char} {ns : List Nat} (h : c ∈ [sep].intercalate (ns.map decimal)) :
    c.isDigit = true ∨ c = sep := by
  induction ns with
  | nil => cases h
  | cons n ns ih =>
      cases ns with
      | nil =>
          rw [List.map_singleton, List.intercalate_singleton] at h
          exact .inl (isDigit_of_mem_decimal h)
      | cons n' ns =>
          rw [List.map_cons, List.map_cons, List.intercalate_cons_cons, List.append_assoc, List.mem_append,
            List.mem_append, List.mem_singleton] at h
          rcases h with h | h | h
          · exact .inl (isDigit_of_mem_decimal h)
          · exact .inr h
          · exact ih h

theorem splitOn_intercalate_decimal {sep : Char} (hsep : sep.isDigit = false) {ns : List Nat} (hns : ns ≠ []) :
    ([sep].intercalate (ns.map decimal)).splitOn sep = ns.map decimal := by
  refine List.splitOn_intercalate _ (fun l hl hmem => ?_) (mt List.map_eq_nil_iff.mp hns)
  obtain ⟨m, -, rfl⟩ := List.mem_map.mp hl
  rw [isDigit_of_mem_decimal hmem] at hsep
  cases hsep

/-! ### Inside the range -/

theorem nth_ok {v : List α} {i : Nat} (d : α) (h : i < v.length) : nth v i = .ok (v.getD i d) := by
  unfold nth
  rw [if_neg (Int.not_lt.mpr (Int.natCast_nonneg i)), Int.toNat_natCast, List.getElem?_eq_getElem h,
    List.getD_eq_getElem?_getD, List.getElem?_eq_getElem h]
  rfl

theorem nth_error {v : List α} {i : Nat} (h : v.length ≤ i) : nth v i = .error .outOfRange := by
  unfold nth
  rw [if_neg (Int.not_lt.mpr (Int.natCast_nonneg i)), Int.toNat_natCast, List.getElem?_eq_none h]

theorem lt_of_nth {v : List α} {i : Nat} {a : α} (h : nth v i = .ok a) : i < v.length := by
  by_contra hle
  rw [nth_error (by omega)] at h
  cases h

theorem le_of_subvec {v w : List α} {i j : Int} (h : subvec v i j = .ok w) :
    0 ≤ i ∧ i ≤ j ∧ j ≤ v.length := by
  unfold subvec at h
  split_ifs at h with hij
  exact hij

theorem subvec_ok {v : List α} {i j : Nat} (hij : i ≤ j) (hj : j ≤ v.length) :
    subvec v i j = .ok ((v.take j).drop i) := by
  unfold subvec
  rw [if_pos (by omega), Int.toNat_natCast, Int.toNat_natCast]

theorem subvec_zero {v : List α} {j : Nat} (hj : j ≤ v.length) : subvec v 0 j = .ok (v.take j) :=
  subvec_ok (Nat.zero_le j) hj

theorem subvecFrom_ok {v : List α} {i : Nat} (h : i ≤ v.length) : subvecFrom v i = .ok (v.drop i) := by
  unfold subvecFrom
  rw [subvec_ok h (Nat.le_refl _), List.take_length]

theorem assocAt_ok {v : List α} {i : Nat} (h : i < v.length) (a : α) : assocAt v i a = .ok (v.set i a) :=
  if_pos h

/-- A loop whose rounds keep `I` and make `μ` smaller comes to an end. -/
theorem loop_ok {round : σ → Except Error (α ⊕ σ)} (I : σ → Prop) (μ : σ → Nat) (Q : α → Prop)
    (hround : ∀ s, I s → (∃ a, round s = .ok (.inl a) ∧ Q a) ∨
      ∃ s', round s = .ok (.inr s') ∧ I s' ∧ μ s' < μ s)
    {fuel : Nat} {s : σ} (hs : I s) (hfuel : μ s < fuel) : ∃ a, loop round fuel s = .ok a ∧ Q a := by
  induction fuel generalizing s with
  | zero => exact absurd hfuel (Nat.not_lt_zero _)
  | succ fuel ih =>
      rcases hround s hs with ⟨a, ha, hQ⟩ | ⟨s', hs', hI, hμ⟩
      · refine ⟨a, ?_, hQ⟩
        unfold loop
        rw [ha]
        rfl
      · obtain ⟨a, ha, hQ⟩ := ih hI (by omega)
        refine ⟨a, ?_, hQ⟩
        unfold loop
        rw [hs']
        exact ha

/-- A loop that counts up to the first number without `p`. -/
theorem loop_search {p : Nat → Bool} {g : Nat → α} {fuel i j : Nat} (hij : i ≤ j) (hj : j < i + fuel)
    (hp : p j = false) :
    ∃ k, loop (fun i => (pure (if p i then .inr (i + 1) else .inl (g i)) : Except Error (α ⊕ Nat))) fuel i =
      .ok (g k) ∧ p k = false := by
  induction fuel generalizing i with
  | zero => omega
  | succ fuel ih =>
      unfold loop
      cases hi : p i with
      | false => exact ⟨i, rfl, hi⟩
      | true =>
          have hne : i ≠ j := by
            rintro rfl
            rw [hi] at hp
            cases hp
          exact ih (by omega) (by omega)

end Beerlang

end Beeros
