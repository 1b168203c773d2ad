import Mathlib.Logic.Basic
import Mathlib.Tactic.SplitIfs

/-! Programs with state and exceptions (`EStateM`): how a finished run of a sequence splits into the
runs of its parts. The state survives an exception. -/

namespace Exec

variable {ε σ α β : Type}

/-- The state in which a run ends. -/
def final : EStateM.Result ε σ α → σ
  | .ok _ s | .error _ s => s

def value : EStateM.Result ε σ α → Option α
  | .ok a _ => some a
  | .error _ _ => none

def thrown : EStateM.Result ε σ α → Option ε
  | .ok _ _ => none
  | .error e _ => some e

theorem eq_ok_of_value {r : EStateM.Result ε σ α} {a : α} (h : value r = some a) :
    r = .ok a (final r) := by
  cases r with
  | ok b s =>
      cases h
      rfl
  | error e s => cases h

theorem bind_apply {m : EStateM ε σ α} {f : α → EStateM ε σ β} {s t : σ} {a : α}
    (h : m s = .ok a t) : (m >>= f) s = f a t := by
  show (match m s with | .ok a t => f a t | .error e t => .error e t) = _
  rw [h]

theorem bind_ok {m : EStateM ε σ α} {f : α → EStateM ε σ β} {s s' : σ} {b : β} :
    (m >>= f) s = .ok b s' ↔ ∃ a t, m s = .ok a t ∧ f a t = .ok b s' := by
  show (match m s with | .ok a t => f a t | .error e t => .error e t) = _ ↔ _
  cases m s with
  | ok a t => simp [and_assoc]
  | error e t => simp

theorem bind_error {m : EStateM ε σ α} {f : α → EStateM ε σ β} {s s' : σ} {e : ε} :
    (m >>= f) s = .error e s' ↔ m s = .error e s' ∨ ∃ a t, m s = .ok a t ∧ f a t = .error e s' := by
  show (match m s with | .ok a t => f a t | .error e t => .error e t) = _ ↔ _
  cases m s with
  | ok a t => simp [and_assoc]
  | error e t => simp

theorem pure_ok {s s' : σ} {a b : α} :
    (pure a : EStateM ε σ α) s = .ok b s' ↔ a = b ∧ s = s' := by
  show EStateM.Result.ok a s = .ok b s' ↔ _
  rw [EStateM.Result.ok.injEq]

theorem throw_ok {s s' : σ} {e : ε} {b : α} :
    ¬(throw e : EStateM ε σ α) s = .ok b s' := by
  intro h
  cases h

/-- `m` leaves the part `f` of the state as it is, however it ends. -/
def Keeps {τ : Type} (f : σ → τ) (m : EStateM ε σ α) : Prop := ∀ s, f (final (m s)) = f s

section Keeps

variable {τ : Type} {f : σ → τ}

theorem Keeps.ok {m : EStateM ε σ α} (h : Keeps f m) {s s' : σ} {a : α} (hm : m s = .ok a s') :
    f s' = f s := by
  have := h s
  rwa [hm] at this

theorem keeps_pure (a : α) : Keeps f (pure a : EStateM ε σ α) := fun _ => rfl

theorem keeps_throw (e : ε) : Keeps f (throw e : EStateM ε σ α) := fun _ => rfl

theorem Keeps.bind {m : EStateM ε σ α} {g : α → EStateM ε σ β} (hm : Keeps f m)
    (hg : ∀ a, Keeps f (g a)) : Keeps f (m >>= g) := by
  intro s
  have h := hm s
  show f (final (match m s with | .ok a t => g a t | .error e t => .error e t)) = f s
  cases hs : m s with
  | ok a t =>
      rw [hs] at h
      exact (hg a t).trans h
  | error e t =>
      rw [hs] at h
      exact h

theorem Keeps.ite {c : Prop} [Decidable c] {m m' : EStateM ε σ α} (h : Keeps f m)
    (h' : Keeps f m') : Keeps f (if c then m else m') := by
  split_ifs
  · exact h
  · exact h'

end Keeps

/-- Every finished run of `m` gives a value with `P`. -/
def Gives (P : α → Prop) (m : EStateM ε σ α) : Prop := ∀ s a s', m s = .ok a s' → P a

section Gives

variable {P : α → Prop}

theorem gives_pure {a : α} (h : P a) : Gives P (pure a : EStateM ε σ α) := by
  intro s b s' hb
  rw [(pure_ok.mp hb).1] at h
  exact h

theorem gives_throw (e : ε) : Gives P (throw e : EStateM ε σ α) :=
  fun _ _ _ h => absurd h throw_ok

theorem Gives.bind {Q : β → Prop} {m : EStateM ε σ α} {f : α → EStateM ε σ β} (hm : Gives P m)
    (hf : ∀ a, P a → Gives Q (f a)) : Gives Q (m >>= f) := by
  intro s b s' hb
  obtain ⟨a, t, ha, hb⟩ := bind_ok.mp hb
  exact hf a (hm s a t ha) t b s' hb

/-- Nothing is known of what the first part gives. -/
theorem gives_bind {m : EStateM ε σ β} {f : β → EStateM ε σ α} (hf : ∀ b, Gives P (f b)) : Gives P (m >>= f) :=
  Gives.bind (P := fun _ => True) (fun _ _ _ _ => trivial) fun b _ => hf b

theorem Gives.ite {c : Prop} [Decidable c] {m m' : EStateM ε σ α} (h : c → Gives P m)
    (h' : ¬c → Gives P m') : Gives P (if c then m else m') := by
  split_ifs with hc
  · exact h hc
  · exact h' hc

theorem Gives.tryCatch {m : EStateM ε σ α} {handler : ε → EStateM ε σ α} (h : Gives P m)
    (h' : ∀ e, Gives P (handler e)) : Gives P (tryCatch m handler) := by
  intro s a s' ha
  change EStateM.tryCatch m handler s = .ok a s' at ha
  unfold EStateM.tryCatch at ha
  cases hs : m s with
  | ok b t =>
      rw [hs] at ha
      cases ha
      exact h s a s' hs
  | error e t =>
      rw [hs] at ha
      exact h' e t a s' ha

end Gives

/-! ### Fuel -/

/-- From some fuel on, the programs `m fuel` run as `m'` does. -/
def Settles (m : Nat → EStateM ε σ α) (m' : EStateM ε σ α) : Prop :=
  ∀ s, ∃ n, ∀ fuel, n ≤ fuel → m fuel s = m' s

section Settles

theorem settles_const (m : EStateM ε σ α) : Settles (fun _ => m) m := fun _ => ⟨0, fun _ _ => rfl⟩

theorem Settles.bind {m : EStateM ε σ α} {f : Nat → α → EStateM ε σ β} {f' : α → EStateM ε σ β}
    (h : ∀ a, Settles (fun fuel => f fuel a) (f' a)) : Settles (fun fuel => m >>= f fuel) (m >>= f') := by
  intro s
  cases hm : m s with
  | ok a t =>
      obtain ⟨n, hn⟩ := h a t
      refine ⟨n, fun fuel hfuel => ?_⟩
      show (m >>= f fuel) s = _
      rw [bind_apply hm, bind_apply hm]
      exact hn fuel hfuel
  | error e t =>
      refine ⟨0, fun fuel _ => ?_⟩
      show (m >>= f fuel) s = _
      rw [bind_error.mpr (.inl hm), bind_error.mpr (.inl hm)]

theorem Settles.ite {c : Prop} [Decidable c] {m₁ m₂ : Nat → EStateM ε σ α}
    {m₁' m₂' : EStateM ε σ α} (h : Settles m₁ m₁') (h' : Settles m₂ m₂') :
    Settles (fun fuel => if c then m₁ fuel else m₂ fuel) (if c then m₁' else m₂') := by
  split_ifs
  · exact h
  · exact h'

/-- A round costs one unit of fuel. -/
theorem Settles.succ {m : Nat → EStateM ε σ α} {m' : EStateM ε σ α}
    (h : Settles (fun fuel => m (fuel + 1)) m') : Settles m m' := by
  intro s
  obtain ⟨n, hn⟩ := h s
  refine ⟨n + 1, fun fuel hfuel => ?_⟩
  obtain ⟨k, rfl⟩ := Nat.exists_eq_add_of_le' hfuel
  exact hn (k + n) (Nat.le_add_left n k)

end Settles

end Exec
