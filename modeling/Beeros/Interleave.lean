import Mathlib.Logic.Function.Basic
import Mathlib.Tactic.SplitIfs

/-! Systems in which several parties take steps in any order: an event happens in a state or it cannot. -/

namespace Interleave

variable {σ ε : Type}

/-- The events lead from one state to another; each of them meets `ok` in the state it happens in. -/
inductive Run (step : ε → σ → Option σ) (ok : ε → σ → Prop) (s : σ) : List ε → σ → Prop
  | nil : Run step ok s [] s
  | snoc {es : List ε} {e : ε} {s' s'' : σ} (h : Run step ok s es s') (hok : ok e s') (hstep : step e s' = some s'') :
      Run step ok s (es ++ [e]) s''

variable {step : ε → σ → Option σ} {ok ok' : ε → σ → Prop} {s s' s'' : σ} {es es' : List ε}

/-- What each event keeps holds after every run. -/
theorem Run.keeps {I : σ → Prop} (h : Run step ok s es s') (hs : I s)
    (hstep : ∀ e s s', e ∈ es → ok e s → step e s = some s' → I s → I s') : I s' := by
  induction h with
  | nil => exact hs
  | @snoc es e s₁ s₂ _ hok hrun ih =>
      apply hstep e s₁ s₂ (List.mem_append_right es (List.mem_singleton_self e)) hok hrun
      apply ih
      intro e' s s' he'
      exact hstep e' s s' (List.mem_append_left [e] he')

theorem Run.append (h : Run step ok s es s') (h' : Run step ok s' es' s'') : Run step ok s (es ++ es') s'' := by
  induction h' with
  | nil =>
      rw [List.append_nil]
      exact h
  | snoc _ hok hrun ih =>
      rw [← List.append_assoc]
      exact .snoc ih hok hrun

theorem Run.mono (h : Run step ok s es s') (hok : ∀ e ∈ es, ∀ s, ok e s → ok' e s) : Run step ok' s es s' := by
  induction h with
  | nil => exact .nil
  | snoc _ hk hstep ih =>
      refine .snoc (ih fun e he => hok e (List.mem_append_left _ he)) ?_ hstep
      exact hok _ (List.mem_append_right _ (List.mem_singleton_self _)) _ hk

/-- A run passes the state between its first events and the others. -/
theorem Run.split (h : Run step ok s (es ++ es') s'') : ∃ s', Run step ok s es s' ∧ Run step ok s' es' s'' := by
  generalize hall : es ++ es' = all at h
  induction h generalizing es' with
  | nil =>
      obtain ⟨rfl, rfl⟩ := List.append_eq_nil_iff.mp hall
      exact ⟨s, .nil, .nil⟩
  | @snoc all e s₁ s₂ hrun hok hstep ih =>
      rcases List.eq_nil_or_concat es' with rfl | ⟨init, last, rfl⟩
      · rw [List.append_nil] at hall
        rw [hall]
        exact ⟨s₂, hrun.snoc hok hstep, .nil⟩
      · rw [List.concat_eq_append, ← List.append_assoc] at hall
        obtain ⟨hinit, hlast⟩ := List.append_inj' hall rfl
        cases hlast
        obtain ⟨s', hfirst, hsecond⟩ := ih hinit
        rw [List.concat_eq_append]
        exact ⟨s', hfirst, hsecond.snoc hok hstep⟩

/-- A run that is carried out. -/
def runEvents (step : ε → σ → Option σ) (s : σ) : List ε → Option σ
  | [] => some s
  | e :: es => (step e s).bind fun s' => runEvents step s' es

theorem runEvents_append (step : ε → σ → Option σ) (s : σ) (es es' : List ε) :
    runEvents step s (es ++ es') = (runEvents step s es).bind fun s' => runEvents step s' es' := by
  induction es generalizing s with
  | nil => rfl
  | cons e es ih =>
      show (step e s).bind _ = ((step e s).bind _).bind _
      rw [Option.bind_assoc]
      congr 1
      funext s'
      exact ih s'

theorem run_of_runEvents (h : runEvents step s es = some s') : Run step (fun _ _ => True) s es s' := by
  induction es generalizing s with
  | nil =>
      cases h
      exact .nil
  | cons e es ih =>
      obtain ⟨s₁, hstep, hrest⟩ := Option.bind_eq_some_iff.mp h
      exact Run.append (.snoc .nil trivial hstep) (ih hrest)

end Interleave
