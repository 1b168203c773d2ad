import Beeros.CaptureSlots
import Beeros.Interleave

/-! What a terminal draws (`pending-text` in `rootfs/lib/beer/term.beer`): what programs print to the capture streams
attached to it, and what tasks queue with `write!`. The renderer, those who print and those who queue take steps in any
order. `map` may be lazy, so the renderer may drain the slots before its `swap!` or after it. -/

namespace Beeros.TermOutput

open Interleave Captures Utf8

abbrev Str := List Char

/-- A part of a text that is drawn. -/
inductive Piece
  | output (slot : Nat) (s : Str)
  | queued (s : Str)
  deriving DecidableEq

/-- Where the renderer is in `pending-text`. -/
inductive Stage
  | idle
  /-- It has read `(:queue @in)`. -/
  | read (q : List Str)
  /-- It has read `(:slots @in)` too; `slots` are to be drained, `outs` is what the others gave. -/
  | taking (q : List Str) (slots : List Nat) (outs : List Piece) (dropped : Bool)

structure State where
  /-- `:queue` and `:slots` of the `:in` atom. -/
  queue : List Str
  slots : List Nat
  table : Table
  renderer : Stage
  /-- The parts of the texts that `pending-text` returned so far, in order. -/
  drawn : List Piece

inductive Event
  /-- The `swap!` of a `(write! t s)` by any task. -/
  | write (s : Str)
  /-- `attach-output!`. -/
  | attach (slot : Nat)
  /-- `capture-stream`, a write through the stream of a slot, `take-output` and `release-output!`, by other tasks. -/
  | captureStream
  | print (slot : Nat) (bs : List UInt8) (grant : Nat → Bool)
  | take (arg : Arg)
  | release (arg : Arg)
  /-- `(:queue @in)`. -/
  | readQueue
  /-- `(:slots @in)`. -/
  | readSlots
  /-- `take-output` of the next slot. -/
  | takeSlot
  /-- The `swap!` of `pending-text`. -/
  | dropRead
  /-- `pending-text` returns `(apply str (concat outs q))`. -/
  | giveBack

/-- What `filter` leaves of what a slot gave. -/
def outputOf (slot : Nat) (out : Option (List UInt8)) : List Piece := ((out.bind decode).map (.output slot)).toList

def step : Event → State → Option State
  | .write s, st => some { st with queue := st.queue ++ [s] }
  | .attach slot, st => some { st with slots := st.slots ++ [slot] }
  | .captureStream, st => some { st with table := (nativeCaptureStream st.table).2 }
  | .print slot bs grant, st =>
      some { st with table := (consoleCaptureWrite grant st.table (captureFd0 + slot) bs).2 }
  | .take arg, st => some { st with table := (nativeTakeOutput st.table arg).2 }
  | .release arg, st => some { st with table := (nativeReleaseOutput st.table arg).2 }
  | .readQueue, st =>
      match st.renderer with
      | .idle => some { st with renderer := .read st.queue }
      | _ => none
  | .readSlots, st =>
      match st.renderer with
      | .read q => some { st with renderer := .taking q st.slots [] false }
      | _ => none
  | .takeSlot, st =>
      match st.renderer with
      | .taking q (slot :: slots) outs dropped =>
          match nativeTakeOutput st.table (some slot) with
          | (.ok out, t) =>
              some { st with table := t, renderer := .taking q slots (outs ++ outputOf slot out) dropped }
          | (.error _, _) => none
      | _ => none
  | .dropRead, st =>
      match st.renderer with
      | .taking q slots outs false =>
          if q.isEmpty then none
          else some { st with queue := st.queue.drop q.length, renderer := .taking q slots outs true }
      | _ => none
  | .giveBack, st =>
      match st.renderer with
      | .taking q [] outs dropped =>
          if dropped || q.isEmpty then
            some { st with renderer := .idle, drawn := st.drawn ++ (outs ++ q.map .queued) }
          else none
      | _ => none

/-! ### Accounts -/

/-- What the renderer has drained and not yet returned. -/
def State.outs (st : State) : List Piece :=
  match st.renderer with
  | .taking _ _ outs _ => outs
  | _ => []

/-- What it has taken out of the queue and not yet returned. -/
def State.removed (st : State) : List Str :=
  match st.renderer with
  | .taking q _ _ dropped => if dropped then q else []
  | _ => []

/-- What it has read of the queue and not yet taken out. -/
def State.seen (st : State) : List Str :=
  match st.renderer with
  | .read q => q
  | .taking q _ _ dropped => if dropped then [] else q
  | .idle => []

/-- The strings of a slot. -/
def outputs (slot : Nat) (ps : List Piece) : List Str :=
  ps.filterMap fun
    | .output i s => if i = slot then some s else none
    | .queued _ => none

/-- The strings of the queue. -/
def strings (ps : List Piece) : List Str :=
  ps.filterMap fun
    | .output _ _ => none
    | .queued s => some s

/-- The bytes that a run's events print to a slot. -/
def printed (slot : Nat) (es : List Event) : List UInt8 :=
  es.flatMap fun
    | .print i bs _ => if i = slot then bs else []
    | _ => []

/-- The strings that a run's `write!`s queue, in the order of their `swap!`s. -/
def written (es : List Event) : List Str :=
  es.filterMap fun
    | .write s => some s
    | _ => none

/-- The slot stays with its stream, the renderer alone drains it, and there is room for what is printed to it. -/
def Kept (slot : Nat) : Event → State → Prop
  | .print i bs grant, st =>
      i = slot → (st.table slot).data.length + (expand bs).length ≤ captureMax ∧ ∀ n, grant n = true
  | .take arg, _ | .release arg, _ => arg ≠ some (slot : Int)
  | _, _ => True

/-- A terminal that `make` has made, and a slot that was handed out. -/
structure State.Start (slot : Nat) (st : State) : Prop where
  queue : st.queue = []
  slots : st.slots = []
  renderer : st.renderer = .idle
  drawn : st.drawn = []
  fresh : Fresh (st.table slot)

section Parts

variable (slot : Nat) (ps ps' : List Piece)

@[simp] theorem outputs_append : outputs slot (ps ++ ps') = outputs slot ps ++ outputs slot ps' :=
  List.filterMap_append

@[simp] theorem strings_append : strings (ps ++ ps') = strings ps ++ strings ps' := List.filterMap_append

@[simp] theorem outputs_queued (q : List Str) : outputs slot (q.map .queued) = [] := by
  induction q with
  | nil => rfl
  | cons s q ih => exact ih

@[simp] theorem strings_queued (q : List Str) : strings (q.map .queued) = q := by
  induction q with
  | nil => rfl
  | cons s q ih => exact congrArg (s :: ·) ih

@[simp] theorem strings_outputOf (out : Option (List UInt8)) : strings (outputOf slot out) = [] := by
  unfold outputOf
  cases out.bind decode <;> rfl

@[simp] theorem outputs_outputOf (out : Option (List UInt8)) :
    outputs slot (outputOf slot out) = (out.bind decode).toList := by
  unfold outputOf
  cases out.bind decode with
  | none => rfl
  | some s => simp [outputs]

theorem outputs_outputOf_ne {i : Nat} (h : i ≠ slot) (out : Option (List UInt8)) :
    outputs slot (outputOf i out) = [] := by
  unfold outputOf
  cases out.bind decode with
  | none => rfl
  | some s => simp [outputs, h]

end Parts

/-! ### One slot -/

theorem slotArg_ok {who : String} {arg : Arg} {i : Nat} (h : slotArg who arg = .ok i) :
    arg = some (i : Int) ∧ i < captureCount := by
  unfold slotArg at h
  cases arg with
  | none => cases h
  | some n =>
      dsimp only at h
      split_ifs at h with hout
      cases h
      rw [not_or, Int.not_lt, Int.not_le] at hout
      exact ⟨congrArg some (Int.toNat_of_nonneg hout.1).symm, by omega⟩

theorem slotArg_some {who : String} {i : Nat} (hi : i < captureCount) : slotArg who (some (i : Int)) = .ok i := by
  unfold slotArg
  dsimp only
  rw [if_neg (by omega), Int.toNat_natCast]

variable {slot : Nat} {t : Table}

theorem captureStream_slot (hused : (t slot).used = true) : (nativeCaptureStream t).2 slot = t slot := by
  unfold nativeCaptureStream
  cases hfind : (List.range captureCount).find? fun i => !(t i).used with
  | none => rfl
  | some i =>
      have hfree := List.find?_some hfind
      apply Function.update_of_ne
      rintro rfl
      rw [hused] at hfree
      cases hfree

theorem take_slot {arg : Arg} (harg : arg ≠ some (slot : Int)) : (nativeTakeOutput t arg).2 slot = t slot := by
  unfold nativeTakeOutput
  cases h : slotArg "take-output" arg with
  | error e => rfl
  | ok i =>
      apply Function.update_of_ne
      rintro rfl
      exact harg (slotArg_ok h).1

theorem release_slot {arg : Arg} (harg : arg ≠ some (slot : Int)) : (nativeReleaseOutput t arg).2 slot = t slot := by
  unfold nativeReleaseOutput
  cases h : slotArg "release-output!" arg with
  | error e => rfl
  | ok i =>
      apply Function.update_of_ne
      rintro rfl
      exact harg (slotArg_ok h).1

theorem print_slot_ne {i : Nat} (hi : i ≠ slot) (grant : Nat → Bool) (bs : List UInt8) :
    (consoleCaptureWrite grant t (captureFd0 + i) bs).2 slot = t slot := by
  unfold consoleCaptureWrite
  dsimp only
  rw [show captureFd0 + (i : Int) - captureFd0 = i by omega, Int.toNat_natCast]
  split_ifs
  · rfl
  · exact Function.update_of_ne hi.symm _ _

theorem print_slot (hslot : slot < captureCount) (hused : (t slot).used = true) (grant : Nat → Bool) (bs : List UInt8) :
    (consoleCaptureWrite grant t (captureFd0 + slot) bs).2 slot = captureWrite grant (t slot) bs := by
  rw [consoleCaptureWrite_slot hslot, if_neg (by simp [hused])]
  exact Function.update_self ..

/-- What `take-output` gives is a string. -/
theorem map_encode_takeOutput (c : Capture) :
    (((takeOutput c).1.bind decode).toList).map encode = (takeOutput c).1.toList := by
  cases hout : (takeOutput c).1 with
  | none => rfl
  | some bs =>
      have hvalid : Valid bs := by
        unfold takeOutput stringFromBuffer at hout
        dsimp only at hout
        split_ifs at hout with _ _ hvalid
        cases hout
        exact hvalid
      obtain ⟨s, rfl⟩ := hvalid
      simp

/-! ### The renderer's steps -/

theorem step_readQueue {st st' : State} (h : step .readQueue st = some st') :
    st.renderer = .idle ∧ st' = { st with renderer := .read st.queue } := by
  obtain ⟨queue, slots, table, renderer, drawn⟩ := st
  cases renderer with
  | idle =>
      cases h
      exact ⟨rfl, rfl⟩
  | read q => cases h
  | taking q slots outs dropped => cases h

theorem step_readSlots {st st' : State} (h : step .readSlots st = some st') :
    ∃ q, st.renderer = .read q ∧ st' = { st with renderer := .taking q st.slots [] false } := by
  obtain ⟨queue, slots, table, renderer, drawn⟩ := st
  cases renderer with
  | idle => cases h
  | read q =>
      cases h
      exact ⟨q, rfl, rfl⟩
  | taking q slots outs dropped => cases h

theorem step_takeSlot {st st' : State} (h : step .takeSlot st = some st') :
    ∃ q slot slots outs dropped, st.renderer = .taking q (slot :: slots) outs dropped ∧
      st' = { st with
        table := Function.update st.table slot (takeOutput (st.table slot)).2
        renderer := .taking q slots (outs ++ outputOf slot (takeOutput (st.table slot)).1) dropped } := by
  obtain ⟨queue, attached, table, renderer, drawn⟩ := st
  cases renderer with
  | idle => cases h
  | read q => cases h
  | taking q slots outs dropped =>
      cases slots with
      | nil => cases h
      | cons slot slots =>
          simp only [step, nativeTakeOutput] at h
          cases harg : slotArg "take-output" (some (slot : Int)) with
          | error e => simp [harg] at h
          | ok i =>
              have hi : slot = i := Int.ofNat_inj.mp (Option.some.inj (slotArg_ok harg).1)
              subst hi
              simp only [harg, Option.some.injEq] at h
              exact ⟨q, slot, slots, outs, dropped, rfl, h.symm⟩

theorem step_dropRead {st st' : State} (h : step .dropRead st = some st') :
    ∃ q slots outs, st.renderer = .taking q slots outs false ∧
      st' = { st with queue := st.queue.drop q.length, renderer := .taking q slots outs true } := by
  obtain ⟨queue, attached, table, renderer, drawn⟩ := st
  cases renderer with
  | idle => cases h
  | read q => cases h
  | taking q slots outs dropped =>
      cases dropped with
      | true => cases h
      | false =>
          obtain ⟨-, he⟩ := Option.ite_none_left_eq_some.mp h
          cases he
          exact ⟨q, slots, outs, rfl, rfl⟩

theorem step_giveBack {st st' : State} (h : step .giveBack st = some st') :
    ∃ q outs dropped, st.renderer = .taking q [] outs dropped ∧ (dropped || q.isEmpty) = true ∧
      st' = { st with renderer := .idle, drawn := st.drawn ++ (outs ++ q.map .queued) } := by
  obtain ⟨queue, attached, table, renderer, drawn⟩ := st
  cases renderer with
  | idle => cases h
  | read q => cases h
  | taking q slots outs dropped =>
      cases slots with
      | cons slot slots => cases h
      | nil =>
          obtain ⟨hdone, he⟩ := Option.ite_none_right_eq_some.mp h
          cases he
          exact ⟨q, outs, dropped, rfl, hdone, rfl⟩

/-! ### Sound states -/

/-- The bytes of the slot are in what was drained or still in the slot; the strings of the queue are in what was
drawn, in the renderer's hand or still in the queue. -/
structure Sound (slot : Nat) (bytes : List UInt8) (ws : List Str) (st : State) : Prop where
  used : (st.table slot).used = true
  tracked : Tracked ⟨st.table slot, bytes, [], (outputs slot (st.drawn ++ st.outs)).map encode⟩
  queue : strings st.drawn ++ st.removed ++ st.queue = ws
  seen : st.seen <+: st.queue
  outs : strings st.outs = []

variable {bytes : List UInt8} {ws : List Str} {st st' : State} {e : Event}

/-- What other slots do does not matter. -/
theorem Sound.setTable (h : Sound slot bytes ws st) (ht : t slot = st.table slot) :
    Sound slot bytes ws { st with table := t } := by
  refine ⟨?_, ?_, h.queue, h.seen, h.outs⟩
  · show (t slot).used = true
    rw [ht]
    exact h.used
  · show Tracked ⟨t slot, _, _, _⟩
    rw [ht]
    exact h.tracked

theorem Sound.print (h : Sound slot bytes ws st) (hslot : slot < captureCount) {grant : Nat → Bool} {bs : List UInt8}
    (hlimit : (st.table slot).data.length + (expand bs).length ≤ captureMax) (hgrant : ∀ n, grant n = true) :
    Sound slot (bytes ++ bs) ws { st with table := (consoleCaptureWrite grant st.table (captureFd0 + slot) bs).2 } := by
  have hwrite := print_slot hslot h.used grant bs
  refine ⟨?_, ?_, h.queue, h.seen, h.outs⟩
  · show ((consoleCaptureWrite grant st.table (captureFd0 + slot) bs).2 slot).used = true
    rw [hwrite, captureWrite_used grant h.tracked.wellFormed]
    exact h.used
  · have htracked := h.tracked.write (s := bs) hlimit hgrant
    refine ⟨⟨htracked.valid, ?_⟩, ?_⟩
    · show _ ++ ((consoleCaptureWrite grant st.table (captureFd0 + slot) bs).2 slot).data = _
      rw [hwrite]
      exact htracked.bytes
    · show WellFormed ((consoleCaptureWrite grant st.table (captureFd0 + slot) bs).2 slot)
      rw [hwrite]
      exact htracked.wellFormed

/-- The renderer drains a slot. -/
theorem Sound.take (h : Sound slot bytes ws st) {q : List Str} {i : Nat} {slots : List Nat} {outs : List Piece}
    {dropped : Bool} (hst : st.renderer = .taking q (i :: slots) outs dropped)
    {rest : List UInt8} (hvalid : Valid (bytes ++ rest)) :
    Sound slot bytes ws { st with
      table := Function.update st.table i (takeOutput (st.table i)).2
      renderer := .taking q slots (outs ++ outputOf i (takeOutput (st.table i)).1) dropped } := by
  have hseen := h.seen
  have hqueue := h.queue
  have houts := h.outs
  have htracked := h.tracked
  simp only [State.seen, State.removed, State.outs, hst] at hseen hqueue houts htracked
  refine ⟨?_, ?_, hqueue, hseen, ?_⟩
  · by_cases hi' : i = slot
    · subst hi'
      obtain ⟨n, hn⟩ := takeOutput_drop (st.table i)
      show (Function.update st.table i (takeOutput (st.table i)).2 i).used = true
      rw [Function.update_self, hn]
      exact h.used
    · show (Function.update st.table i (takeOutput (st.table i)).2 slot).used = true
      rw [Function.update_of_ne (Ne.symm hi')]
      exact h.used
  · show Tracked ⟨Function.update st.table i (takeOutput (st.table i)).2 slot, bytes, [],
      (outputs slot (st.drawn ++ (outs ++ outputOf i (takeOutput (st.table i)).1))).map encode⟩
    rw [← List.append_assoc, outputs_append]
    by_cases hi' : i = slot
    · subst hi'
      rw [Function.update_self, outputs_outputOf, List.map_append, map_encode_takeOutput]
      exact htracked.take hvalid
    · rw [Function.update_of_ne (Ne.symm hi'), outputs_outputOf_ne slot hi', List.append_nil]
      exact htracked
  · show strings (outs ++ outputOf i (takeOutput (st.table i)).1) = []
    rw [strings_append, houts, strings_outputOf]
    rfl

theorem Sound.readQueue (h : Sound slot bytes ws st) (hst : st.renderer = .idle) :
    Sound slot bytes ws { st with renderer := .read st.queue } := by
  have hqueue := h.queue
  have htracked := h.tracked
  simp only [State.removed, State.outs, hst] at hqueue htracked
  exact ⟨h.used, htracked, hqueue, List.prefix_rfl, rfl⟩

theorem Sound.readSlots (h : Sound slot bytes ws st) {q : List Str} (hst : st.renderer = .read q) :
    Sound slot bytes ws { st with renderer := .taking q st.slots [] false } := by
  have hseen := h.seen
  have hqueue := h.queue
  have htracked := h.tracked
  simp only [State.seen, State.removed, State.outs, hst] at hseen hqueue htracked
  exact ⟨h.used, htracked, hqueue, hseen, rfl⟩

theorem Sound.dropRead (h : Sound slot bytes ws st) {q : List Str} {slots : List Nat} {outs : List Piece}
    (hst : st.renderer = .taking q slots outs false) :
    Sound slot bytes ws { st with queue := st.queue.drop q.length, renderer := .taking q slots outs true } := by
  have hseen := h.seen
  have hqueue := h.queue
  have houts := h.outs
  have htracked := h.tracked
  simp only [State.seen, State.removed, State.outs, hst] at hseen hqueue houts htracked
  obtain ⟨rest, hrest⟩ := hseen
  change q ++ rest = st.queue at hrest
  refine ⟨h.used, htracked, ?_, List.nil_prefix, houts⟩
  show strings st.drawn ++ q ++ st.queue.drop q.length = ws
  rw [← hrest, List.drop_left, List.append_assoc, hrest, ← hqueue]
  exact congrArg (· ++ st.queue) (List.append_nil _).symm

theorem Sound.giveBack (h : Sound slot bytes ws st) {q : List Str} {outs : List Piece} {dropped : Bool}
    (hst : st.renderer = .taking q [] outs dropped) (hdone : (dropped || q.isEmpty) = true) :
    Sound slot bytes ws { st with renderer := .idle, drawn := st.drawn ++ (outs ++ q.map .queued) } := by
  have hqueue := h.queue
  have houts := h.outs
  have htracked := h.tracked
  simp only [State.removed, State.outs, hst] at hqueue houts htracked
  have hq : (if dropped = true then q else []) = q := by
    cases dropped with
    | true => rfl
    | false => exact (List.isEmpty_iff.mp hdone).symm
  refine ⟨h.used, ?_, ?_, List.nil_prefix, rfl⟩
  · show Tracked ⟨st.table slot, bytes, [], (outputs slot (st.drawn ++ (outs ++ q.map .queued) ++ [])).map encode⟩
    rw [List.append_nil, ← List.append_assoc, outputs_append, outputs_queued, List.append_nil]
    exact htracked
  · show strings (st.drawn ++ (outs ++ q.map .queued)) ++ [] ++ st.queue = ws
    rw [List.append_nil, strings_append, strings_append, houts, strings_queued, List.nil_append, ← hqueue, hq]

theorem sound_step (hslot : slot < captureCount) (h : Sound slot bytes ws st) (hkept : Kept slot e st)
    (hstep : step e st = some st') (rest : List UInt8) (hvalid : Valid (bytes ++ rest)) :
    Sound slot (bytes ++ printed slot [e]) (ws ++ written [e]) st' := by
  cases e with
  | write s =>
      cases hstep
      rw [show printed slot [.write s] = [] from rfl, List.append_nil]
      refine ⟨h.used, h.tracked, ?_, h.seen.trans (List.prefix_append _ _), h.outs⟩
      rw [← h.queue]
      exact (List.append_assoc _ _ _).symm
  | attach i =>
      cases hstep
      simpa [printed, written] using ⟨h.used, h.tracked, h.queue, h.seen, h.outs⟩
  | captureStream =>
      cases hstep
      simpa [printed, written] using h.setTable (captureStream_slot h.used)
  | print i bs grant =>
      cases hstep
      by_cases hi : i = slot
      · subst hi
        obtain ⟨hlimit, hgrant⟩ := hkept rfl
        simpa [printed, written] using h.print hslot hlimit hgrant
      · simpa [printed, written, hi] using h.setTable (print_slot_ne hi grant bs)
  | take arg =>
      cases hstep
      simpa [printed, written] using h.setTable (take_slot hkept)
  | release arg =>
      cases hstep
      simpa [printed, written] using h.setTable (release_slot hkept)
  | readQueue =>
      obtain ⟨hst, rfl⟩ := step_readQueue hstep
      simpa [printed, written] using h.readQueue hst
  | readSlots =>
      obtain ⟨q, hst, rfl⟩ := step_readSlots hstep
      simpa [printed, written] using h.readSlots hst
  | takeSlot =>
      obtain ⟨q, i, slots, outs, dropped, hst, rfl⟩ := step_takeSlot hstep
      simpa [printed, written] using h.take hst hvalid
  | dropRead =>
      obtain ⟨q, slots, outs, hst, rfl⟩ := step_dropRead hstep
      simpa [printed, written] using h.dropRead hst
  | giveBack =>
      obtain ⟨q, outs, dropped, hst, hdone, rfl⟩ := step_giveBack hstep
      simpa [printed, written] using h.giveBack hst hdone

/-! ### Runs -/

theorem printed_append (slot : Nat) (es es' : List Event) :
    printed slot (es ++ es') = printed slot es ++ printed slot es' := List.flatMap_append

theorem written_append (es es' : List Event) : written (es ++ es') = written es ++ written es' :=
  List.filterMap_append

theorem Sound.run (hslot : slot < captureCount) (h : Sound slot bytes ws st) {es : List Event}
    (hrun : Run step (Kept slot) st es st') {rest : List UInt8} (hvalid : Valid (bytes ++ (printed slot es ++ rest))) :
    Sound slot (bytes ++ printed slot es) (ws ++ written es) st' := by
  induction hrun generalizing rest with
  | nil => simpa [printed, written] using h
  | @snoc es e s₁ s₂ hrun hkept hstep ih =>
      rw [printed_append, List.append_assoc] at hvalid
      have hsound := ih hvalid
      rw [printed_append, written_append, ← List.append_assoc, ← List.append_assoc]
      refine sound_step hslot hsound hkept hstep (printed slot [e] ++ rest) ?_
      rw [List.append_assoc]
      exact hvalid

theorem State.Start.sound (h : st.Start slot) : Sound slot [] [] st := by
  refine ⟨h.fresh.used, ⟨⟨?_, ?_⟩, h.fresh.wellFormed⟩, ?_, ?_, ?_⟩
  · rw [State.outs, h.renderer, h.drawn]
    exact List.forall_mem_nil _
  · rw [State.outs, h.renderer, h.drawn]
    exact h.fresh.data
  · rw [State.removed, h.renderer, h.drawn, h.queue]
    rfl
  · rw [State.seen, h.renderer]
    exact List.nil_prefix
  · rw [State.outs, h.renderer]
    rfl

/-! ### Printed before written -/

theorem encode_flatten (ss : List Str) : encode ss.flatten = (ss.map encode).flatten := by
  induction ss with
  | nil => rfl
  | cons s ss ih => rw [List.flatten_cons, encode_append, ih, List.map_cons, List.flatten_cons]

/-- Draining the slot gives all of what was printed to it earlier, if that ends in a whole character. -/
theorem Sound.take_covers (h : Sound slot bytes ws st) {q : List Str} {slots : List Nat} {outs : List Piece}
    {dropped : Bool} (hst : st.renderer = .taking q (slot :: slots) outs dropped) {early more rest : List UInt8}
    (hbytes : bytes = early ++ more) (hearly : Valid early) (hvalid : Valid (bytes ++ rest)) :
    expand early <+:
      encode (outputs slot (st.drawn ++ (outs ++ outputOf slot (takeOutput (st.table slot)).1))).flatten := by
  have htracked := h.tracked
  simp only [State.outs, hst] at htracked
  have htotal := htracked.bytes
  dsimp only at htotal
  rw [← encode_flatten] at htotal
  obtain ⟨s, r, hdata, hr⟩ : ∃ s r, (st.table slot).data = encode s ++ r ∧ Partial r := by
    have hall : Valid (encode (outputs slot (st.drawn ++ outs)).flatten ++ ((st.table slot).data ++ expand rest)) := by
      rw [← List.append_assoc, htotal, ← expand_append]
      exact valid_expand hvalid
    obtain ⟨t, ht⟩ := (valid_encode _).of_append hall
    exact exists_partial_of_append ht.symm
  have hdrained : encode (outputs slot (st.drawn ++ (outs ++ outputOf slot (takeOutput (st.table slot)).1))).flatten =
      encode (outputs slot (st.drawn ++ outs)).flatten ++ encode s := by
    rw [takeOutput_eq hdata hr, ← List.append_assoc, outputs_append, outputs_outputOf, List.flatten_append,
      encode_append]
    by_cases hs : s = []
    · rw [if_pos hs, hs]
      rfl
    · rw [if_neg hs]
      simp
  rw [hdrained]
  rw [hdata, ← List.append_assoc, hbytes, expand_append] at htotal
  rcases List.append_eq_append_iff.mp htotal with ⟨x, hx, hr'⟩ | ⟨x, hx, -⟩
  · -- what is left would begin with a whole character
    have hwhole : Valid x := by
      have hvalid' := valid_expand hearly
      rw [hx, ← encode_append] at hvalid'
      exact (valid_encode _).of_append hvalid'
    rw [hr.eq_nil hwhole ⟨_, hr'.symm⟩, List.append_nil] at hx
    exact hx ▸ List.prefix_rfl
  · exact ⟨x, hx.symm⟩

/-- What was printed to the slot comes in front of the string that is the `n`th one of the queue. -/
structure Ordered (slot n : Nat) (bytes : List UInt8) (st : State) : Prop where
  attached : slot ∈ st.slots
  draining : ∀ q slots outs dropped, st.renderer = .taking q slots outs dropped →
    n < (strings st.drawn).length + q.length →
      slot ∈ slots ∨ bytes <+: encode (outputs slot (st.drawn ++ outs)).flatten
  drawn : ∀ k s, st.drawn[k]? = some (.queued s) → (strings (st.drawn.take k)).length = n →
    bytes <+: encode (outputs slot (st.drawn.take k)).flatten

variable {n : Nat} {early : List UInt8}

theorem Ordered.giveBack (h : Ordered slot n bytes st) {q : List Str} {outs : List Piece} {dropped : Bool}
    (hst : st.renderer = .taking q [] outs dropped) (houts : strings outs = []) :
    Ordered slot n bytes { st with renderer := .idle, drawn := st.drawn ++ (outs ++ q.map .queued) } := by
  refine ⟨h.attached, fun _ _ _ _ hidle => (by cases hidle), ?_⟩
  intro k s hk hn
  change (st.drawn ++ (outs ++ q.map Piece.queued))[k]? = some (.queued s) at hk
  change (strings ((st.drawn ++ (outs ++ q.map Piece.queued)).take k)).length = n at hn
  show bytes <+: encode (outputs slot ((st.drawn ++ (outs ++ q.map Piece.queued)).take k)).flatten
  rw [← List.append_assoc] at hk hn ⊢
  by_cases hold : k < st.drawn.length
  · rw [List.append_assoc, List.getElem?_append_left hold] at hk
    rw [List.append_assoc, List.take_append_of_le_length (Nat.le_of_lt hold)] at hn ⊢
    exact h.drawn k s hk hn
  by_cases hout : k < (st.drawn ++ outs).length
  · -- the outputs are not strings of the queue
    rw [List.getElem?_append_left hout, List.getElem?_append_right (Nat.le_of_not_lt hold)] at hk
    have hmem : s ∈ strings outs := List.mem_filterMap.mpr ⟨_, List.mem_of_getElem? hk, rfl⟩
    rw [houts] at hmem
    cases hmem
  · obtain ⟨m, rfl⟩ := Nat.exists_eq_add_of_le (Nat.le_of_not_lt hout)
    rw [List.getElem?_append_right (Nat.le_add_right _ _), Nat.add_sub_cancel_left, List.getElem?_map,
      Option.map_eq_some_iff] at hk
    obtain ⟨s', hs', -⟩ := hk
    obtain ⟨hm, -⟩ := List.getElem?_eq_some_iff.mp hs'
    rw [List.take_length_add_append, ← List.map_take] at hn ⊢
    rw [strings_append, strings_append, houts, List.append_nil, strings_queued, List.length_append,
      List.length_take_of_le (Nat.le_of_lt hm)] at hn
    rw [outputs_append, outputs_queued, List.append_nil]
    exact (h.draining q [] outs dropped hst (by omega)).resolve_left (List.not_mem_nil)

theorem ordered_step (h : Ordered slot n (expand early) st) (hsound : Sound slot bytes ws st)
    (more rest : List UInt8) (hbytes : bytes = early ++ more) (hearly : Valid early) (hvalid : Valid (bytes ++ rest))
    (hstep : step e st = some st') : Ordered slot n (expand early) st' := by
  cases e with
  | write s =>
      cases hstep
      exact ⟨h.attached, h.draining, h.drawn⟩
  | attach i =>
      cases hstep
      exact ⟨List.mem_append_left [i] h.attached, h.draining, h.drawn⟩
  | captureStream =>
      cases hstep
      exact ⟨h.attached, h.draining, h.drawn⟩
  | print i bs grant =>
      cases hstep
      exact ⟨h.attached, h.draining, h.drawn⟩
  | take arg =>
      cases hstep
      exact ⟨h.attached, h.draining, h.drawn⟩
  | release arg =>
      cases hstep
      exact ⟨h.attached, h.draining, h.drawn⟩
  | readQueue =>
      obtain ⟨hst, rfl⟩ := step_readQueue hstep
      exact ⟨h.attached, fun _ _ _ _ hread => (by cases hread), h.drawn⟩
  | readSlots =>
      obtain ⟨q, hst, rfl⟩ := step_readSlots hstep
      refine ⟨h.attached, fun _ _ _ _ htaking _ => ?_, h.drawn⟩
      cases htaking
      exact Or.inl h.attached
  | takeSlot =>
      obtain ⟨q, i, slots, outs, dropped, hst, rfl⟩ := step_takeSlot hstep
      refine ⟨h.attached, fun _ _ _ _ htaking hn => ?_, h.drawn⟩
      cases htaking
      by_cases hi : i = slot
      · subst hi
        exact Or.inr (hsound.take_covers hst hbytes hearly hvalid)
      · rcases h.draining q (i :: slots) outs dropped hst hn with hmem | hpre
        · exact Or.inl ((List.mem_cons.mp hmem).resolve_left (Ne.symm hi))
        · refine Or.inr ?_
          rw [← List.append_assoc, outputs_append, outputs_outputOf_ne slot hi, List.append_nil]
          exact hpre
  | dropRead =>
      obtain ⟨q, slots, outs, hst, rfl⟩ := step_dropRead hstep
      refine ⟨h.attached, fun _ _ _ _ htaking hn => ?_, h.drawn⟩
      cases htaking
      exact h.draining q slots outs false hst hn
  | giveBack =>
      obtain ⟨q, outs, dropped, hst, -, rfl⟩ := step_giveBack hstep
      have houts := hsound.outs
      simp only [State.outs, hst] at houts
      exact h.giveBack hst houts

theorem slots_step (hstep : step e st = some st') : st.slots <+: st'.slots := by
  cases e with
  | attach i =>
      cases hstep
      exact List.prefix_append _ _
  | write s => cases hstep; exact List.prefix_rfl
  | captureStream => cases hstep; exact List.prefix_rfl
  | print i bs grant => cases hstep; exact List.prefix_rfl
  | take arg => cases hstep; exact List.prefix_rfl
  | release arg => cases hstep; exact List.prefix_rfl
  | readQueue =>
      obtain ⟨-, rfl⟩ := step_readQueue hstep
      exact List.prefix_rfl
  | readSlots =>
      obtain ⟨q, -, rfl⟩ := step_readSlots hstep
      exact List.prefix_rfl
  | takeSlot =>
      obtain ⟨q, i, slots, outs, dropped, -, rfl⟩ := step_takeSlot hstep
      exact List.prefix_rfl
  | dropRead =>
      obtain ⟨q, slots, outs, -, rfl⟩ := step_dropRead hstep
      exact List.prefix_rfl
  | giveBack =>
      obtain ⟨q, outs, dropped, -, -, rfl⟩ := step_giveBack hstep
      exact List.prefix_rfl

variable {ok : Event → State → Prop}

theorem attached_of_run {es : List Event} (h : Run step ok st es st') (hmem : .attach slot ∈ es) :
    slot ∈ st'.slots := by
  induction h with
  | nil => cases hmem
  | snoc _ _ hstep ih =>
      rcases List.mem_append.mp hmem with hmem | hmem
      · exact (slots_step hstep).subset (ih hmem)
      · rw [List.mem_singleton] at hmem
        subst hmem
        cases hstep
        exact List.mem_append_right _ (List.mem_singleton_self slot)

/-- Before a string is queued it is not drawn. -/
theorem Sound.ordered (h : Sound slot bytes ws st) (hattached : slot ∈ st.slots) (early : List UInt8) :
    Ordered slot ws.length early st := by
  have hlen := congrArg List.length h.queue
  rw [List.length_append, List.length_append] at hlen
  refine ⟨hattached, ?_, ?_⟩
  · intro q slots outs dropped hst hn
    have hseen := h.seen.length_le
    simp only [State.removed, State.seen, hst] at hlen hseen
    cases dropped with
    | true =>
        rw [if_pos rfl] at hlen
        omega
    | false =>
        rw [if_neg Bool.false_ne_true] at hlen hseen
        omega
  · intro k s hk hn
    have hlt : (strings (st.drawn.take k)).length < (strings st.drawn).length := by
      obtain ⟨hlt, hget⟩ := List.getElem?_eq_some_iff.mp hk
      conv_rhs => rw [← List.take_append_drop k st.drawn, strings_append, List.length_append,
        List.drop_eq_getElem_cons hlt, hget]
      exact Nat.lt_add_of_pos_right (Nat.succ_pos _)
    omega

theorem ordered_run (hslot : slot < captureCount) (hsound : Sound slot bytes ws st)
    (h : Ordered slot n (expand early) st) {more : List UInt8} (hbytes : bytes = early ++ more) (hearly : Valid early)
    {es : List Event} (hrun : Run step (Kept slot) st es st') {rest : List UInt8}
    (hvalid : Valid (bytes ++ (printed slot es ++ rest))) : Ordered slot n (expand early) st' := by
  induction hrun generalizing rest with
  | nil => exact h
  | @snoc es e s₁ s₂ hrun hkept hstep ih =>
      rw [printed_append, List.append_assoc] at hvalid
      have hnow := hsound.run hslot hrun hvalid
      refine ordered_step (ih hvalid) hnow (more ++ printed slot es) (printed slot [e] ++ rest) ?_ hearly ?_ hstep
      · rw [hbytes, List.append_assoc]
      · rw [List.append_assoc]
        exact hvalid

/-- A terminal that has nothing to draw, and slot 0 handed out. -/
def quiet : State := ⟨[], [], fun i => ⟨i == 0, [], 0⟩, .idle, []⟩

theorem quiet_start : quiet.Start 0 := ⟨rfl, rfl, rfl, rfl, rfl, rfl, Or.inl rfl⟩

/-- A program prints `a` and then writes `b`, while the renderer is at work. -/
def printThenWrite : List Event :=
  [.attach 0, .readQueue, .print 0 [0x61] allGranted, .write ['b'], .readSlots, .takeSlot, .giveBack, .readQueue,
    .readSlots, .dropRead, .takeSlot, .giveBack]

end Beeros.TermOutput
