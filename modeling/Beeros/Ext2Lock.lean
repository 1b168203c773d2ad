import Beeros.Interleave

/-! The write lock of `beer.ext2`: any number of tasks call `locked`, and an interrupt may unwind a task
between two steps. Unwinding runs the `finally` of the `try` that the task has entered. -/

namespace Beeros.Ext2Lock

open Interleave

/-- How far a task is in `locked`. -/
inductive Stage
  /-- Not in `locked`. -/
  | out
  /-- In the loop, before `(compare-and-set! lock nil me)`. -/
  | spinning
  /-- It has set the lock and not yet entered the `try`. -/
  | taken
  /-- In `(f)`. -/
  | body
  /-- In the `finally`, before `(reset! lock nil)`. -/
  | finishing
  deriving DecidableEq

structure State where
  /-- The atom `lock`. -/
  lock : Option Nat
  stage : Nat → Stage

inductive Event
  | call (task : Nat)
  | compareAndSet (task : Nat)
  | enterTry (task : Nat)
  /-- `(f)` returns or throws. -/
  | endBody (task : Nat)
  | resetLock (task : Nat)
  | interrupt (task : Nat)
  deriving DecidableEq

def State.at (s : State) (task : Nat) (stage : Stage) : State :=
  { s with stage := Function.update s.stage task stage }

def step : Event → State → Option State
  | .call t, s => if s.stage t = .out then some (s.at t .spinning) else none
  | .compareAndSet t, s =>
      if s.stage t = .spinning then
        match s.lock with
        | none => some ({ s with lock := some t }.at t .taken)
        | some _ => some s
      else none
  | .enterTry t, s => if s.stage t = .taken then some (s.at t .body) else none
  | .endBody t, s => if s.stage t = .body then some (s.at t .finishing) else none
  | .resetLock t, s => if s.stage t = .finishing then some ({ s with lock := none }.at t .out) else none
  | .interrupt t, s =>
      match s.stage t with
      | .out => none
      | .spinning | .taken => some (s.at t .out)
      | .body => some (s.at t .finishing)
      | .finishing => some s

def init : State := ⟨none, fun _ => .out⟩

/-- The task is behind its `compare-and-set!` and has not reset the lock. -/
def Stage.holds (g : Stage) : Prop := g = .taken ∨ g = .body ∨ g = .finishing

/-- A task that is past its `compare-and-set!` is the one the lock names. -/
def Owned (s : State) : Prop := ∀ t, (s.stage t).holds → s.lock = some t

/-- The task that the lock names is past its `compare-and-set!`. -/
def Held (s : State) : Prop := ∀ t, s.lock = some t → (s.stage t).holds

/-- No interrupt between `compare-and-set!` and the `try`. -/
def Timely : Event → State → Prop
  | .interrupt t, s => s.stage t ≠ .taken
  | _, _ => True

variable {s s' : State} {e : Event} {t t' : Nat} {g : Stage}

theorem stage_at : (s.at t g).stage t' = if t' = t then g else s.stage t' := Function.update_apply _ _ _ _

instance (g : Stage) : Decidable g.holds := inferInstanceAs (Decidable (_ ∨ _))

/-! ### One step -/

theorem owned_at (h : Owned s) (hg : g.holds → s.lock = some t) : Owned (s.at t g) := by
  intro t' ht'
  rw [stage_at] at ht'
  split_ifs at ht' with heq
  · rw [heq]
    exact hg ht'
  · exact h t' ht'

theorem held_at (h : Held s) (hg : s.lock = some t → g.holds) : Held (s.at t g) := by
  intro t' ht'
  rw [stage_at]
  split_ifs with heq
  · rw [heq] at ht'
    exact hg ht'
  · exact h t' ht'

theorem owned_take (h : Owned s) (hlock : s.lock = none) : Owned ({ s with lock := some t }.at t .taken) := by
  intro t' ht'
  rw [stage_at] at ht'
  split_ifs at ht' with heq
  · rw [heq]
    rfl
  · have hother := h t' ht'
    rw [hlock] at hother
    cases hother

theorem held_take : Held ({ s with lock := some t }.at t .taken) := by
  intro t' ht'
  cases ht'
  rw [stage_at, if_pos rfl]
  exact .inl rfl

theorem owned_reset (h : Owned s) (ht : (s.stage t).holds) : Owned ({ s with lock := none }.at t .out) := by
  intro t' ht'
  rw [stage_at] at ht'
  split_ifs at ht' with heq
  · exact absurd ht' (by decide)
  · have hmine := h t ht
    rw [h t' ht'] at hmine
    exact absurd (Option.some.inj hmine) heq

/-- What an event can do. -/
theorem step_cases (h : step e s = some s') :
    s' = s ∨ (∃ t g, s' = s.at t g ∧ (g.holds ↔ (s.stage t).holds)) ∨
      (∃ t, s.lock = none ∧ s' = { s with lock := some t }.at t .taken) ∨
      (∃ t, (s.stage t).holds ∧ s' = { s with lock := none }.at t .out) ∨
      ∃ t, e = .interrupt t ∧ s.stage t = .taken ∧ s' = s.at t .out := by
  cases e with
  | call t =>
      obtain ⟨hstage, rfl⟩ := Option.ite_some_none_eq_some.mp h
      exact .inr (.inl ⟨t, _, rfl, by rw [hstage]; decide⟩)
  | compareAndSet t =>
      simp only [step] at h
      split_ifs at h with hstage
      cases hlock : s.lock with
      | none =>
          rw [hlock] at h
          exact .inr (.inr (.inl ⟨t, rfl, (Option.some.inj h).symm⟩))
      | some _ =>
          rw [hlock] at h
          exact .inl (Option.some.inj h).symm
  | enterTry t =>
      obtain ⟨hstage, rfl⟩ := Option.ite_some_none_eq_some.mp h
      exact .inr (.inl ⟨t, _, rfl, by rw [hstage]; decide⟩)
  | endBody t =>
      obtain ⟨hstage, rfl⟩ := Option.ite_some_none_eq_some.mp h
      exact .inr (.inl ⟨t, _, rfl, by rw [hstage]; decide⟩)
  | resetLock t =>
      obtain ⟨hstage, rfl⟩ := Option.ite_some_none_eq_some.mp h
      exact .inr (.inr (.inr (.inl ⟨t, by rw [hstage]; decide, rfl⟩)))
  | interrupt t =>
      simp only [step] at h
      cases hstage : s.stage t with
      | out =>
          rw [hstage] at h
          cases h
      | spinning =>
          rw [hstage] at h
          exact .inr (.inl ⟨t, .out, (Option.some.inj h).symm, by rw [hstage]; decide⟩)
      | taken =>
          rw [hstage] at h
          exact .inr (.inr (.inr (.inr ⟨t, rfl, hstage, (Option.some.inj h).symm⟩)))
      | body =>
          rw [hstage] at h
          exact .inr (.inl ⟨t, .finishing, (Option.some.inj h).symm, by rw [hstage]; decide⟩)
      | finishing =>
          rw [hstage] at h
          exact .inl (Option.some.inj h).symm

theorem owned_step (h : Owned s) (hstep : step e s = some s') : Owned s' := by
  obtain rfl | ⟨t, g, rfl, hg⟩ | ⟨t, hlock, rfl⟩ | ⟨t, ht, rfl⟩ | ⟨t, -, ht, rfl⟩ := step_cases hstep
  · exact h
  · exact owned_at h fun hold => h t (hg.mp hold)
  · exact owned_take h hlock
  · exact owned_reset h ht
  · exact owned_at h nofun

theorem held_step (h : Held s) (hok : Timely e s) (hstep : step e s = some s') : Held s' := by
  obtain rfl | ⟨t, g, rfl, hg⟩ | ⟨t, hlock, rfl⟩ | ⟨t, ht, rfl⟩ | ⟨t, rfl, ht, rfl⟩ := step_cases hstep
  · exact h
  · exact held_at h fun hlock => hg.mpr (h t hlock)
  · exact held_take
  · exact nofun
  · exact absurd ht hok

/-! ### Runs -/

theorem owned_init : Owned init := by
  intro t ht
  exact absurd ht (by show ¬ Stage.out.holds; decide)

theorem held_init : Held init := nofun

/-- No two tasks are in the body of `locked`, whenever the interrupts come. -/
theorem exclusive_of_run {ok : Event → State → Prop} {es : List Event} (h : Run step ok init es s)
    (ht : s.stage t = .body) (ht' : s.stage t' = .body) : t = t' := by
  have howned := h.keeps owned_init fun _ _ _ _ _ hstep hI => owned_step hI hstep
  have hlock := howned t (by rw [ht]; decide)
  rw [howned t' (by rw [ht']; decide)] at hlock
  exact (Option.some.inj hlock).symm

/-- With no interrupt between `compare-and-set!` and the `try`, one task at a time is in the body, and the task that
the lock names is in `locked`. -/
theorem held_of_run {es : List Event} (h : Run step Timely init es s) :
    (∀ t t', s.stage t = .body → s.stage t' = .body → t = t') ∧ ∀ t, s.lock = some t → s.stage t ≠ .out := by
  refine ⟨fun t t' ht ht' => exclusive_of_run h ht ht', fun t ht hout => ?_⟩
  have hheld := h.keeps held_init fun _ _ _ _ hok hstep hI => held_step hI hok hstep
  have hholds := hheld t ht
  rw [hout] at hholds
  exact absurd hholds (by decide)

/-- A task interrupted in the body. -/
theorem held_of_run_interrupted :
    ∃ s, Run step Timely init [.call 1, .compareAndSet 1, .enterTry 1, .interrupt 1] s ∧ s.lock = some 1 ∧
      ∀ t, s.lock = some t → s.stage t ≠ .out := by
  have hbody : Run step Timely init [.call 1, .compareAndSet 1, .enterTry 1]
      (((({ init.at 1 .spinning with lock := some 1 } : State).at 1 .taken).at 1 .body)) :=
    .snoc (.snoc (.snoc .nil trivial rfl) trivial rfl) trivial rfl
  have hrun := Run.snoc (e := .interrupt 1) hbody (by show Stage.body ≠ .taken; decide) rfl
  exact ⟨_, hrun, rfl, (held_of_run hrun).2⟩

/-- An interrupt right after `compare-and-set!`. -/
theorem not_held_interrupted :
    ¬ ∀ es s, Run step (fun _ _ => True) init es s → ∀ t, s.lock = some t → s.stage t ≠ .out := by
  intro h
  have hrun : Run step (fun _ _ => True) init [.call 1, .compareAndSet 1, .interrupt 1] _ := run_of_runEvents rfl
  exact h _ _ hrun 1 rfl rfl

/-! ### An orphaned lock -/

/-- The lock names a task that will not reset it. -/
def Orphaned (s : State) : Prop := s.lock ≠ none ∧ ∀ t, ¬ (s.stage t).holds

theorem orphaned_step (h : Orphaned s) (hstep : step e s = some s') : Orphaned s' := by
  obtain ⟨hlock, hnone⟩ := h
  obtain rfl | ⟨t, g, rfl, hg⟩ | ⟨t, hfree, rfl⟩ | ⟨t, ht, rfl⟩ | ⟨t, -, ht, rfl⟩ := step_cases hstep
  · exact ⟨hlock, hnone⟩
  · refine ⟨hlock, fun t' ht' => ?_⟩
    rw [stage_at] at ht'
    split_ifs at ht'
    · exact hnone t (hg.mp ht')
    · exact hnone t' ht'
  · exact absurd hfree hlock
  · exact absurd ht (hnone t)
  · exact absurd (by rw [ht]; decide) (hnone t)

/-- After an interrupt between `compare-and-set!` and the `try` no task ever gets into the body again. -/
theorem orphaned_forever {ok ok' : Event → State → Prop} {es es' : List Event} (h : Run step ok init es s)
    (ht : s.stage t = .taken) (hrun : Run step ok' (s.at t .out) es' s') (t' : Nat) : s'.stage t' ≠ .body := by
  have howned := h.keeps owned_init fun _ _ _ _ _ hstep hI => owned_step hI hstep
  have hlock := howned t (by rw [ht]; decide)
  have horphaned : Orphaned (s.at t .out) := by
    refine ⟨by rw [show (s.at t .out).lock = s.lock from rfl, hlock]; exact nofun, fun t' ht' => ?_⟩
    rw [stage_at] at ht'
    split_ifs at ht' with heq
    · exact absurd ht' (by decide)
    · have hother := howned t' ht'
      rw [hlock] at hother
      exact heq (Option.some.inj hother).symm
  have hend := hrun.keeps horphaned fun _ _ _ _ _ hstep hI => orphaned_step hI hstep
  intro hbody
  exact hend.2 t' (by rw [hbody]; decide)

end Beeros.Ext2Lock
