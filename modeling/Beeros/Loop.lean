import Mathlib.Logic.Function.Basic

/-! `for` loops over an interval of integers, and folds that write each cell of a map at most once. -/

namespace Loop

variable {σ τ α β γ : Type}

/-- `for (i = a; i < b; i++) s = f(i, s)`. -/
def forRange (a b : Int) (f : Int → σ → σ) (s : σ) : σ :=
  (List.range (b - a).toNat).foldl (fun s (k : Nat) => f (a + k) s) s

/-- What the first states share and each round keeps, the last states share. -/
theorem foldl_rel {R : σ → τ → Prop} {f : σ → α → σ} {g : τ → α → τ} {l : List α} {s : σ} {t : τ} (h : R s t)
    (hstep : ∀ a ∈ l, ∀ s t, R s t → R (f s a) (g t a)) : R (l.foldl f s) (l.foldl g t) := by
  induction l generalizing s t with
  | nil => exact h
  | cons a l ih =>
      apply ih (hstep a List.mem_cons_self s t h)
      intro a' ha' s t hst
      exact hstep a' (List.mem_cons_of_mem a ha') s t hst

theorem forRange_rel {R : σ → τ → Prop} {a b : Int} {f : Int → σ → σ} {g : Int → τ → τ} {s : σ} {t : τ}
    (h : R s t) (hstep : ∀ i, a ≤ i → i < b → ∀ s t, R s t → R (f i s) (g i t)) :
    R (forRange a b f s) (forRange a b g t) := by
  apply foldl_rel h
  intro k hk s t hst
  have := List.mem_range.mp hk
  exact hstep (a + k) (by omega) (by omega) s t hst

theorem forRange_induct {P : σ → Prop} {a b : Int} {f : Int → σ → σ} {s : σ} (h : P s)
    (hstep : ∀ i, a ≤ i → i < b → ∀ s, P s → P (f i s)) : P (forRange a b f s) := by
  exact forRange_rel (R := fun s _ => P s) (g := fun _ (t : Unit) => t) (t := ()) h
    fun i ha hb s _ hs => hstep i ha hb s hs

/-- An invariant that names the round. -/
theorem forRange_index {P : Int → σ → Prop} {a b : Int} {f : Int → σ → σ} {s : σ} (hab : a ≤ b) (h : P a s)
    (hstep : ∀ i, a ≤ i → i < b → ∀ s, P i s → P (i + 1) (f i s)) : P b (forRange a b f s) := by
  have hrounds : ∀ n : Nat, n ≤ (b - a).toNat →
      P (a + n) ((List.range n).foldl (fun s (k : Nat) => f (a + k) s) s) := by
    intro n hn
    induction n with
    | zero =>
        rw [Int.ofNat_zero, Int.add_zero]
        exact h
    | succ n ih =>
        rw [List.range_succ, List.foldl_append, Int.natCast_add, Int.ofNat_one, ← Int.add_assoc]
        exact hstep (a + n) (by omega) (by omega) _ (ih (by omega))
  have hb : a + ((b - a).toNat : Int) = b := by omega
  have hend := hrounds _ (Nat.le_refl _)
  rw [hb] at hend
  exact hend

/-- What one element brings about and every round keeps holds in the end. -/
theorem foldl_reach {P : σ → Prop} {f : σ → α → σ} {l : List α} {a : α} (ha : a ∈ l)
    (hset : ∀ s, P (f s a)) (hkeep : ∀ a ∈ l, ∀ s, P s → P (f s a)) (s : σ) : P (l.foldl f s) := by
  induction l generalizing s with
  | nil => cases ha
  | cons a' l ih =>
      have hkeep' : ∀ a ∈ l, ∀ s, P s → P (f s a) := fun a ha => hkeep a (List.mem_cons_of_mem a' ha)
      rw [List.foldl_cons]
      rcases List.mem_cons.mp ha with rfl | hmem
      · exact foldl_rel (R := fun s (_ : Unit) => P s) (g := fun t _ => t) (t := ()) (hset s)
          fun a ha s _ hs => hkeep' a ha s hs
      · exact ih hmem hkeep' _

theorem forRange_reach {P : σ → Prop} {a b i : Int} {f : Int → σ → σ} (ha : a ≤ i) (hb : i < b)
    (hset : ∀ s, P (f i s)) (hkeep : ∀ i, a ≤ i → i < b → ∀ s, P s → P (f i s)) (s : σ) :
    P (forRange a b f s) := by
  have hmem : (i - a).toNat ∈ List.range (b - a).toNat := by
    rw [List.mem_range]
    omega
  refine foldl_reach hmem ?_ ?_ s
  · intro s
    have hi : a + ((i - a).toNat : Int) = i := by omega
    rw [hi]
    exact hset s
  · intro k hk s hs
    have := List.mem_range.mp hk
    exact hkeep (a + k) (by omega) (by omega) s hs

/-! ### Loops that can fail -/

/-- A loop that stops at the first round that fails. -/
def forRangeM (a b : Int) (f : Int → σ → Option σ) (s : σ) : Option σ :=
  forRange a b (fun i o => o.bind (f i)) (some s)

theorem forRangeM_eq_some {a b : Int} {f : Int → σ → Option σ} {g : Int → σ → σ}
    (h : ∀ i, a ≤ i → i < b → ∀ s, f i s = some (g i s)) (s : σ) :
    forRangeM a b f s = some (forRange a b g s) := by
  refine forRange_rel (R := fun (o : Option σ) s => o = some s) rfl ?_
  rintro i ha hb _ s rfl
  exact h i ha hb s

/-- An invariant carries the rounds. -/
theorem forRangeM_eq_some_of {P : σ → Prop} {a b : Int} {f : Int → σ → Option σ} {g : Int → σ → σ} {s : σ}
    (hs : P s) (h : ∀ i, a ≤ i → i < b → ∀ s, P s → f i s = some (g i s) ∧ P (g i s)) :
    forRangeM a b f s = some (forRange a b g s) := by
  refine (forRange_rel (R := fun (o : Option σ) s => o = some s ∧ P s) ⟨rfl, hs⟩ ?_).1
  rintro i ha hb _ s ⟨rfl, hs⟩
  exact h i ha hb s hs

theorem forRangeM_eq_none {a b i : Int} {f : Int → σ → Option σ} (ha : a ≤ i) (hb : i < b)
    (h : ∀ s, f i s = none) (s : σ) : forRangeM a b f s = none := by
  refine forRange_reach (P := fun o : Option σ => o = none) ha hb ?_ ?_ _
  · intro o
    cases o with
    | none => rfl
    | some s => exact h s
  · rintro i _ _ _ rfl
    rfl

/-- Counting from zero. -/
theorem forRange_shift (a b : Int) (f : Int → σ → σ) (s : σ) :
    forRange a b f s = forRange 0 (b - a) (fun i => f (a + i)) s := by
  unfold forRange
  simp only [Int.sub_zero, Int.zero_add]

theorem forRange_empty {a b : Int} (h : b ≤ a) (f : Int → σ → σ) (s : σ) : forRange a b f s = s := by
  have hlen : (b - a).toNat = 0 := by omega
  unfold forRange
  rw [hlen]
  rfl

section Scatter

variable [DecidableEq β] {key : α → β} {v : α → γ → γ} {m : β → γ} {l : List α}

/-- Each cell `key a` gets `v a` of what it held. -/
def scatter (key : α → β) (v : α → γ → γ) (l : List α) (m : β → γ) : β → γ :=
  l.foldl (fun m a => Function.update m (key a) (v a (m (key a)))) m

theorem scatter_of_ne {b : β} (h : ∀ a ∈ l, key a ≠ b) : scatter key v l m b = m b := by
  induction l generalizing m with
  | nil => rfl
  | cons a l ih =>
      have hrest := ih (m := Function.update m (key a) (v a (m (key a))))
        fun a' ha' => h a' (List.mem_cons_of_mem a ha')
      rw [Function.update_of_ne (h a List.mem_cons_self).symm] at hrest
      exact hrest

/-- A cell that one element names is written once. -/
theorem scatter_of_mem (hkey : l.Pairwise fun a a' => key a ≠ key a') {a : α} (ha : a ∈ l) :
    scatter key v l m (key a) = v a (m (key a)) := by
  induction l generalizing m with
  | nil => cases ha
  | cons a' l ih =>
      rw [List.pairwise_cons] at hkey
      rcases List.mem_cons.mp ha with rfl | hmem
      · have hrest := scatter_of_ne (v := v) (m := Function.update m (key a) (v a (m (key a))))
          fun a' ha' => (hkey.1 a' ha').symm
        rw [Function.update_self] at hrest
        exact hrest
      · have hrest := ih (m := Function.update m (key a') (v a' (m (key a')))) hkey.2 hmem
        rw [Function.update_of_ne (hkey.1 a hmem).symm] at hrest
        exact hrest

end Scatter

end Loop
