import Beeros.Interleave

/-! The `:in` atom of a terminal (`rootfs/lib/beer/term.beer`): any task queues text with `write!`, one
renderer task takes it with `pending-text`. Both read the atom and change it with `swap!`, at steps that
may come in any order. No capture slots are attached. -/

namespace Beeros.TermQueue

open Interleave

abbrev Str := List Char

/-- Where the renderer is in `pending-text`. -/
inductive Stage
  | idle
  /-- It has read `(:queue @in)`. -/
  | read (q : List Str)
  /-- The `swap!` has dropped what was read. -/
  | dropped (q : List Str)

structure State where
  /-- `:queue` of the `:in` atom. -/
  queue : List Str
  renderer : Stage
  /-- What `pending-text` returned so far, in order. -/
  returned : List Str
  /-- The strings that `write!` queued, in the order of its `swap!`s. -/
  written : List Str

inductive Event
  /-- The `swap!` of a `(write! t s)` by any task. -/
  | write (s : Str)
  /-- `(:queue @in)` in `pending-text`. -/
  | readQueue
  /-- The `swap!` of `pending-text`. -/
  | dropRead
  /-- `pending-text` returns `(apply str q)`. -/
  | giveBack

def step : Event → State → Option State
  | .write s, st => some { st with queue := st.queue ++ [s], written := st.written ++ [s] }
  | .readQueue, st =>
      match st.renderer with
      | .idle => some { st with renderer := .read st.queue }
      | _ => none
  | .dropRead, st =>
      match st.renderer with
      | .read q => if q.isEmpty then none else some { st with queue := st.queue.drop q.length, renderer := .dropped q }
      | _ => none
  | .giveBack, st =>
      match st.renderer with
      | .read q => if q.isEmpty then some { st with renderer := .idle, returned := st.returned ++ [q.flatten] } else none
      | .dropped q => some { st with renderer := .idle, returned := st.returned ++ [q.flatten] }
      | .idle => none

def init : State := ⟨[], .idle, [], []⟩

/-- What was taken out of the queue and not yet returned. -/
def State.inHand (st : State) : List Str :=
  match st.renderer with
  | .dropped q => q
  | _ => []

/-- `batches`: the strings of each text that was returned. What the renderer has read is still the head of the
queue. -/
structure Accounted (st : State) (batches : List (List Str)) : Prop where
  returned : st.returned = batches.map List.flatten
  written : batches.flatten ++ st.inHand ++ st.queue = st.written
  read : ∀ q, st.renderer = .read q → q <+: st.queue

variable {st st' : State} {e : Event} {batches : List (List Str)}

theorem accounted_step (h : Accounted st batches) (hstep : step e st = some st') :
    ∃ batches', Accounted st' batches' := by
  obtain ⟨queue, renderer, returned, written⟩ := st
  obtain ⟨hret, hwr, hread⟩ := h
  cases e with
  | write s =>
      cases hstep
      refine ⟨batches, hret, ?_, fun q hq => (hread q hq).trans (List.prefix_append _ _)⟩
      show _ ++ (queue ++ [s]) = written ++ [s]
      rw [← List.append_assoc]
      exact congrArg (· ++ [s]) hwr
  | readQueue =>
      cases renderer with
      | idle =>
          cases hstep
          refine ⟨batches, hret, hwr, fun q hq => ?_⟩
          cases hq
          exact List.prefix_rfl
      | read q => cases hstep
      | dropped q => cases hstep
  | dropRead =>
      cases renderer with
      | idle => cases hstep
      | read q =>
          obtain ⟨-, he⟩ := Option.ite_none_left_eq_some.mp hstep
          cases he
          refine ⟨batches, hret, ?_, nofun⟩
          obtain ⟨rest, hrest⟩ := hread q rfl
          change q ++ rest = queue at hrest
          rw [← hwr]
          show batches.flatten ++ q ++ queue.drop q.length = batches.flatten ++ [] ++ queue
          rw [← hrest, List.drop_left, List.append_nil, List.append_assoc]
      | dropped q => cases hstep
  | giveBack =>
      cases renderer with
      | idle => cases hstep
      | read q =>
          obtain ⟨hempty, he⟩ := Option.ite_none_right_eq_some.mp hstep
          cases he
          cases List.isEmpty_iff.mp hempty
          refine ⟨batches ++ [[]], ?_, ?_, nofun⟩
          · show returned ++ [[]] = _
            rw [List.map_append, ← hret]
            rfl
          · rw [List.flatten_append]
            show batches.flatten ++ [] ++ [] ++ queue = written
            rw [List.append_nil]
            exact hwr
      | dropped q =>
          cases hstep
          refine ⟨batches ++ [q], ?_, ?_, nofun⟩
          · show returned ++ [q.flatten] = _
            rw [List.map_append, ← hret]
            rfl
          · rw [List.flatten_append]
            show batches.flatten ++ (q ++ []) ++ [] ++ queue = written
            rw [List.append_nil, List.append_nil]
            exact hwr

/-- The strings that a run's `write!`s queue, in the order of their `swap!`s. -/
def queued (es : List Event) : List Str :=
  es.filterMap fun
    | .write s => some s
    | _ => none

theorem written_step (hstep : step e st = some st') : st'.written = st.written ++ queued [e] := by
  obtain ⟨queue, renderer, returned, written⟩ := st
  cases e with
  | write s =>
      cases hstep
      rfl
  | readQueue =>
      cases renderer with
      | idle =>
          cases hstep
          exact (List.append_nil _).symm
      | read q => cases hstep
      | dropped q => cases hstep
  | dropRead =>
      cases renderer with
      | idle => cases hstep
      | read q =>
          obtain ⟨-, he⟩ := Option.ite_none_left_eq_some.mp hstep
          cases he
          exact (List.append_nil _).symm
      | dropped q => cases hstep
  | giveBack =>
      cases renderer with
      | idle => cases hstep
      | read q =>
          obtain ⟨-, he⟩ := Option.ite_none_right_eq_some.mp hstep
          cases he
          exact (List.append_nil _).symm
      | dropped q =>
          cases hstep
          exact (List.append_nil _).symm

theorem written_of_run {es : List Event} (h : Run step (fun _ _ => True) init es st) : st.written = queued es := by
  induction h with
  | nil => rfl
  | snoc _ _ hstep ih =>
      rw [written_step hstep, ih]
      exact List.filterMap_append.symm

/-- Every string that was written is in exactly one place, in the order of the `swap!`s: in a text that
`pending-text` returned, in the one it is about to return, or in the queue. -/
theorem accounted_of_run {es : List Event} (h : Run step (fun _ _ => True) init es st) :
    ∃ batches : List (List Str), st.returned = batches.map List.flatten ∧
      batches.flatten ++ st.inHand ++ st.queue = queued es ∧
      (st.inHand = [] → st.returned.flatten ++ st.queue.flatten = (queued es).flatten) := by
  have hacc : ∃ batches, Accounted st batches := by
    apply h.keeps (I := fun st => ∃ batches, Accounted st batches)
    · exact ⟨[], rfl, rfl, nofun⟩
    · intro e s s' _ _ hstep ⟨batches, hacc⟩
      exact accounted_step hacc hstep
  obtain ⟨batches, hret, hwr, -⟩ := hacc
  rw [written_of_run h] at hwr
  refine ⟨batches, hret, hwr, fun hnone => ?_⟩
  rw [hnone, List.append_nil] at hwr
  rw [← hwr, hret, List.flatten_append, List.flatten_flatten]

/-- A string that is written between the read and the `swap!`. -/
theorem accounted_of_run_between :
    ∃ st, Run step (fun _ _ => True) init
        [.write ['a'], .readQueue, .write ['b'], .dropRead, .giveBack] st ∧ st.returned = [['a']] ∧ st.queue = [['b']] ∧
      ∃ batches : List (List Str), st.returned = batches.map List.flatten ∧
        batches.flatten ++ st.inHand ++ st.queue = [['a'], ['b']] := by
  have hrun : Run step (fun _ _ => True) init
      [.write ['a'], .readQueue, .write ['b'], .dropRead, .giveBack] _ := run_of_runEvents rfl
  obtain ⟨batches, hret, hwr, -⟩ := accounted_of_run hrun
  exact ⟨_, hrun, rfl, rfl, batches, hret, hwr⟩

end Beeros.TermQueue
