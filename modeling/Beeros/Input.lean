import Mathlib.Data.Finset.Basic
import Mathlib.Data.Fintype.Basic
import Beeros.Tty
import Beeros.VirtioInput

/-! Input events: `lib/virtio_input.beer` turns the evdev events of a device into events of `beer.input`
(`lib/input.beer`), which keeps what is held down and a queue; `lib/tty.beer` makes keystrokes of the key events. -/

namespace Beeros.Input

open Tty (Key)

/-! ### `beer.input` -/

def queueMax : Nat := 256

inductive Modifier
  | shift | ctrl | alt
  /-- `:meta`. -/
  | metaKey
  deriving DecidableEq

/-- A set of modifiers. -/
structure Mods where
  shift : Bool
  ctrl : Bool
  alt : Bool
  metaKey : Bool
  deriving DecidableEq

def noMods : Mods := ⟨false, false, false, false⟩

def named (s : String) : Key := .keyword s.toList

def modifierKeys (k : Key) : Option Modifier :=
  if k = named "left-shift" ∨ k = named "right-shift" then some .shift
  else if k = named "left-ctrl" ∨ k = named "right-ctrl" then some .ctrl
  else if k = named "left-alt" ∨ k = named "right-alt" then some .alt
  else if k = named "left-meta" ∨ k = named "right-meta" then some .metaKey
  else none

/-- The maps that backends `emit!`. Buttons have keywords too, so that `held` does not tell the left button from the
left arrow. The quotients of `:abs` are left as what they are quotients of. -/
inductive Event
  | key (dev : Str) (key : Key) (code : Option Nat) (down repeated : Bool) (mods : Option Mods)
  | button (dev : Str) (button : Key) (down : Bool)
  | motion (dev : Str) (dx dy : Int)
  | abs (dev : Str) (x y mx my : Nat)
  | wheel (dev : Str) (delta : Int)
  deriving DecidableEq

/-- What goes down or up. -/
def Event.subject : Event → Option (Key × Bool)
  | key _ k _ down _ _ => some (k, down)
  | button _ b down => some (b, down)
  | _ => none

def Event.withMods (m : Mods) : Event → Event
  | key dev k code down repeated _ => key dev k code down repeated (some m)
  | ev => ev

structure State where
  held : Finset Key
  queue : List Event

def mods (held : Finset Key) : Mods :=
  let has (m : Modifier) : Bool := decide (∃ k ∈ held, modifierKeys k = some m)
  ⟨has .shift, has .ctrl, has .alt, has .metaKey⟩

def offer (queue : List Event) (ev : Event) : List Event :=
  if queue.length < queueMax then queue ++ [ev] else queue

def moved (held : Finset Key) (ev : Event) : Finset Key :=
  match ev.subject with
  | some (k, down) => if down then insert k held else held.erase k
  | none => held

/-- `swallow` is the function in `intercept`. -/
def emit (swallow : Event → Bool) (st : State) (ev : Event) : State :=
  let ev := ev.withMods (mods st.held)
  let held := moved st.held ev
  if swallow ev then { st with held := held } else ⟨held, offer st.queue ev⟩

def pollEvent (st : State) : Option Event × State :=
  match st.queue with
  | [] => (none, st)
  | ev :: queue => (some ev, { st with queue := queue })

def usLayout : List (Key × Char × Char) :=
  "abcdefghijklmnopqrstuvwxyz".toList.map (fun c => (.keyword [c], c, c.toUpper)) ++
    (List.zip "1234567890".toList "!@#$%^&*()".toList).map (fun p => (.keyword [p.1], p)) ++
    [(named "minus", '-', '_'), (named "equal", '=', '+'), (named "left-bracket", '[', '\x7b'),
      (named "right-bracket", ']', '\x7d'), (named "semicolon", ';', ':'), (named "apostrophe", '\x27', '"'),
      (named "grave", '\x60', '~'), (named "backslash", '\\', '|'), (named "comma", ',', '<'), (named "dot", '.', '>'),
      (named "slash", '/', '?'), (.space, ' ', ' '), (.tab, '\t', '\t'), (.enter, '\n', '\n')]

def keyToChar : Event → Option Char
  | .key _ k _ true _ m =>
      (usLayout.lookup k).map fun pair => if (m.getD noMods).shift then pair.2 else pair.1
  | _ => none

/-! ### `beer.virtio-input` -/

def evSyn : Nat := 0
def evKey : Nat := 1
def evRel : Nat := 2
def evAbs : Nat := 3
def relX : Nat := 0
def relY : Nat := 1
def relWheel : Nat := 8
def absX : Nat := 0
def absY : Nat := 1

/-- `key-names`. -/
def keyNames : Nat → Option Key
  | 1 => some .escape | 2 => named "1" | 3 => named "2" | 4 => named "3" | 5 => named "4" | 6 => named "5"
  | 7 => named "6" | 8 => named "7" | 9 => named "8" | 10 => named "9" | 11 => named "0" | 12 => named "minus"
  | 13 => named "equal" | 14 => some .backspace | 15 => some .tab
  | 16 => named "q" | 17 => named "w" | 18 => named "e" | 19 => named "r" | 20 => named "t" | 21 => named "y"
  | 22 => named "u" | 23 => named "i" | 24 => named "o" | 25 => named "p"
  | 26 => named "left-bracket" | 27 => named "right-bracket" | 28 => some .enter | 29 => named "left-ctrl"
  | 30 => named "a" | 31 => named "s" | 32 => named "d" | 33 => named "f" | 34 => named "g" | 35 => named "h"
  | 36 => named "j" | 37 => named "k" | 38 => named "l"
  | 39 => named "semicolon" | 40 => named "apostrophe" | 41 => named "grave" | 42 => named "left-shift"
  | 43 => named "backslash"
  | 44 => named "z" | 45 => named "x" | 46 => named "c" | 47 => named "v" | 48 => named "b" | 49 => named "n"
  | 50 => named "m"
  | 51 => named "comma" | 52 => named "dot" | 53 => named "slash" | 54 => named "right-shift"
  | 55 => named "kp-multiply"
  | 56 => named "left-alt" | 57 => some .space | 58 => named "caps-lock"
  | 59 => some .f1 | 60 => some .f2 | 61 => some .f3 | 62 => some .f4 | 63 => some .f5 | 64 => some .f6
  | 65 => some .f7 | 66 => some .f8 | 67 => some .f9 | 68 => some .f10
  | 69 => named "num-lock" | 70 => named "scroll-lock"
  | 71 => named "kp7" | 72 => named "kp8" | 73 => named "kp9" | 74 => named "kp-minus" | 75 => named "kp4"
  | 76 => named "kp5" | 77 => named "kp6" | 78 => named "kp-plus"
  | 79 => named "kp1" | 80 => named "kp2" | 81 => named "kp3" | 82 => named "kp0" | 83 => named "kp-dot"
  | 87 => some .f11 | 88 => some .f12 | 96 => named "kp-enter" | 97 => named "right-ctrl" | 98 => named "kp-divide"
  | 100 => named "right-alt"
  | 102 => some .home | 103 => some .up | 104 => some .pageUp | 105 => some .left | 106 => some .right
  | 107 => some .end
  | 108 => some .down | 109 => some .pageDown | 110 => some .insert | 111 => some .delete
  | 125 => named "left-meta" | 126 => named "right-meta" | 127 => named "menu"
  | _ => none

def buttonNames : Nat → Option Key
  | 0x110 => some .left | 0x111 => some .right | 0x112 => named "middle" | 0x113 => named "side"
  | 0x114 => named "extra"
  | _ => none

/-- `:pending`: what a report has said so far. -/
structure Pending where
  dx : Int
  dy : Int
  x : Nat
  y : Nat
  abs : Bool
  deriving DecidableEq

def Pending.init : Pending := ⟨0, 0, 0, 0, false⟩

structure Device where
  name : Str
  /-- Of tablets. -/
  absMax : Option (Nat × Nat)

/-- What `on-event!` emits, and `:pending` behind it; none when it throws, which ends the device's task. -/
structure Handled where
  events : List Event
  pending : Option Pending

def signed32 (v : Nat) : Int := if v > 0x7FFFFFFF then (v : Int) - 0x100000000 else v

def onSync (d : Device) (p : Pending) : Handled :=
  let motion := if p.dx ≠ 0 ∨ p.dy ≠ 0 then [Event.motion d.name p.dx p.dy] else []
  let cleared := { p with dx := 0, dy := 0, abs := false }
  if p.abs then
    match d.absMax with
    | some (mx, my) => ⟨motion ++ [.abs d.name p.x p.y mx my], some cleared⟩
    | none => ⟨motion, none⟩
  else ⟨motion, some cleared⟩

/-- The event of a key or button code. -/
def keyEvent (d : Device) (code value : Nat) : Event :=
  match buttonNames code with
  | some b => .button d.name b (value ≠ 0)
  | none =>
      match keyNames code with
      | some k => .key d.name k none (value ≠ 0) (value = 2) none
      | none => .key d.name .unknown (some code) (value ≠ 0) (value = 2) none

def onEvent (d : Device) (p : Pending) (e : VirtioInput.Event) : Handled :=
  if e.type = evSyn then onSync d p
  else if e.type = evKey then ⟨[keyEvent d e.code e.value], some p⟩
  else if e.type = evRel then
    let v := signed32 e.value
    if e.code = relX then ⟨[], some { p with dx := p.dx + v }⟩
    else if e.code = relY then ⟨[], some { p with dy := p.dy + v }⟩
    else if e.code = relWheel then ⟨[.wheel d.name v], some p⟩
    else ⟨[], some p⟩
  else if e.type = evAbs then
    if e.code = absX then ⟨[], some { p with x := e.value, abs := true }⟩
    else if e.code = absY then ⟨[], some { p with y := e.value, abs := true }⟩
    else ⟨[], some p⟩
  else ⟨[], some p⟩

/-- All that the events of a device emit. -/
def report (d : Device) : Pending → List VirtioInput.Event → Handled
  | p, [] => ⟨[], some p⟩
  | p, e :: es =>
      match onEvent d p e with
      | ⟨out, none⟩ => ⟨out, none⟩
      | ⟨out, some p'⟩ => ⟨out ++ (report d p' es).events, (report d p' es).pending⟩

/-! ### `beer.tty`: keyboards -/

/-- `{:char c}` or `{:key k :mods m}`. -/
inductive Keystroke
  | char (c : Char)
  | key (k : Key) (mods : Mods)
  deriving DecidableEq

def eventToKeystroke (ev : Event) : Option Keystroke :=
  match ev with
  | .key _ k _ true _ m =>
      if modifierKeys k = none then
        let mods := m.getD noMods
        match keyToChar ev with
        | some c =>
            if { mods with shift := false } = noMods ∧ c ≠ '\n' ∧ c ≠ '\t' then some (.char c) else some (.key k mods)
        | none => some (.key k mods)
      else none
  | _ => none

inductive Interrupt
  | hard | ctrlC

def interruptKind : Event → Option Interrupt
  | .key _ k _ true _ m =>
      let m := m.getD noMods
      if k = named "backslash" ∧ m = ⟨false, true, false, false⟩ ∨ k = .escape ∧ m.ctrl ∧ m.alt then some .hard
      else if k = named "c" ∧ m = ⟨false, true, false, false⟩ then some .ctrlC
      else none
  | _ => none

/-- `interrupt-key?`, which `intercept` holds: `handler` is the one in `keyboard-interrupt`. -/
def interruptKey (handler : Option (Interrupt → Bool)) (ctrlCInterrupts : Bool) (ev : Event) : Bool :=
  match interruptKind ev, handler with
  | none, _ => false
  | some kind, some h => h kind
  | some .hard, none => true
  | some .ctrlC, none => ctrlCInterrupts

/-- `keyboard-keystroke` on the queue. -/
def keyboardKeystroke : List Event → Option Keystroke × List Event
  | [] => (none, [])
  | ev :: queue =>
      match eventToKeystroke ev with
      | some k => (some k, queue)
      | none => keyboardKeystroke queue

/-! ### Runs -/

/-- What the tasks do, in the order in which they come to it. -/
inductive Op
  /-- `emit!`, with the function that is in `intercept` then. -/
  | emit (ev : Event) (swallow : Event → Bool)
  | poll
  /-- `keyboard-keystroke`. -/
  | keystroke

/-- The input, the events that have been read, and the keystrokes. -/
structure System where
  input : State
  taken : List Event
  strokes : List Keystroke

def System.step (s : System) : Op → System
  | .emit ev swallow => { s with input := emit swallow s.input ev }
  | .poll => { s with input := (pollEvent s.input).2, taken := s.taken ++ (pollEvent s.input).1.toList }
  | .keystroke =>
      let queue := s.input.queue
      let (k, rest) := keyboardKeystroke queue
      ⟨{ s.input with queue := rest }, s.taken ++ queue.take (queue.length - rest.length), s.strokes ++ k.toList⟩

def System.run (s : System) (ops : List Op) : System := ops.foldl System.step s

def boot : System := ⟨⟨∅, []⟩, [], []⟩

def Op.emitted : Op → List Event
  | .emit ev _ => [ev]
  | .poll | .keystroke => []

def emits (ops : List Op) : List Event := ops.flatMap Op.emitted

/-- Whether the last of the events about `k` was its going down. -/
def lastMove (k : Key) : List Event → Option Bool
  | [] => none
  | ev :: es =>
      (lastMove k es).or (ev.subject.bind fun p => if p.1 = k then some p.2 else none)

/-- The modifiers that are down behind `es`. -/
def modsAfter (es : List Event) : Mods :=
  let down (s : String) : Bool := lastMove (named s) es == some true
  ⟨down "left-shift" || down "right-shift", down "left-ctrl" || down "right-ctrl",
    down "left-alt" || down "right-alt", down "left-meta" || down "right-meta"⟩

/-- The events that are neither swallowed nor find a full queue, with the modifiers at their time. -/
def accepted (pre : List Event) (s : System) : List Op → List Event
  | [] => []
  | op@(.emit ev swallow) :: ops =>
      let ev' := ev.withMods (modsAfter pre)
      (if swallow ev' = false ∧ s.input.queue.length < queueMax then [ev'] else []) ++
        accepted (pre ++ [ev]) (s.step op) ops
  | op :: ops => accepted pre (s.step op) ops

variable {ev : Event} {es pre : List Event} {k : Key} {held : Finset Key} {s : System} {ops : List Op}

@[simp] theorem subject_withMods (m : Mods) : (ev.withMods m).subject = ev.subject := by
  cases ev <;> rfl

theorem lastMove_append (k : Key) (es es' : List Event) :
    lastMove k (es ++ es') = (lastMove k es').or (lastMove k es) := by
  induction es with
  | nil => simp [lastMove]
  | cons ev es ih => simp [lastMove, ih, Option.or_assoc]

/-- `held` is what is down behind `pre`. -/
def HeldAfter (pre : List Event) (held : Finset Key) : Prop := ∀ k, k ∈ held ↔ lastMove k pre = some true

theorem HeldAfter.moved (h : HeldAfter pre held) (ev : Event) (m : Mods) :
    HeldAfter (pre ++ [ev]) (moved held (ev.withMods m)) := by
  intro k
  rw [lastMove_append]
  unfold Input.moved
  rw [subject_withMods]
  cases hs : ev.subject with
  | none => simp [lastMove, hs, h k]
  | some p =>
      obtain ⟨k', down⟩ := p
      cases down with
      | true =>
          by_cases hk : k' = k
          · simp [lastMove, hs, hk]
          · simp [lastMove, hs, hk, h k, Ne.symm hk]
      | false =>
          by_cases hk : k' = k
          · simp [lastMove, hs, hk]
          · simp [lastMove, hs, hk, h k, Ne.symm hk]

theorem modifierKeys_shift : modifierKeys k = some .shift ↔ k = named "left-shift" ∨ k = named "right-shift" := by
  unfold modifierKeys
  split_ifs <;> simp_all

theorem modifierKeys_ctrl : modifierKeys k = some .ctrl ↔ k = named "left-ctrl" ∨ k = named "right-ctrl" := by
  constructor
  · unfold modifierKeys
    split_ifs <;> simp_all
  · rintro (rfl | rfl) <;> decide

theorem modifierKeys_alt : modifierKeys k = some .alt ↔ k = named "left-alt" ∨ k = named "right-alt" := by
  constructor
  · unfold modifierKeys
    split_ifs <;> simp_all
  · rintro (rfl | rfl) <;> decide

theorem modifierKeys_meta : modifierKeys k = some .metaKey ↔ k = named "left-meta" ∨ k = named "right-meta" := by
  constructor
  · unfold modifierKeys
    split_ifs <;> simp_all
  · rintro (rfl | rfl) <;> decide

/-- A modifier that the keys `a` and `b` have. -/
theorem HeldAfter.has_eq (h : HeldAfter pre held) {m : Modifier} {a b : String}
    (hkeys : ∀ k, modifierKeys k = some m ↔ k = named a ∨ k = named b) :
    decide (∃ k ∈ held, modifierKeys k = some m) =
      (lastMove (named a) pre == some true || lastMove (named b) pre == some true) := by
  rw [Bool.eq_iff_iff, decide_eq_true_eq, Bool.or_eq_true, beq_iff_eq, beq_iff_eq, ← h, ← h]
  constructor
  · rintro ⟨k, hk, hm⟩
    rcases (hkeys k).mp hm with rfl | rfl
    · exact Or.inl hk
    · exact Or.inr hk
  · rintro (hk | hk)
    · exact ⟨_, hk, (hkeys _).mpr (Or.inl rfl)⟩
    · exact ⟨_, hk, (hkeys _).mpr (Or.inr rfl)⟩

theorem HeldAfter.mods_eq (h : HeldAfter pre held) : mods held = modsAfter pre := by
  unfold mods modsAfter
  dsimp only
  rw [h.has_eq fun _ => modifierKeys_shift, h.has_eq fun _ => modifierKeys_ctrl, h.has_eq fun _ => modifierKeys_alt,
    h.has_eq fun _ => modifierKeys_meta]

theorem run_cons (s : System) (op : Op) (ops : List Op) : s.run (op :: ops) = (s.step op).run ops := rfl

/-- One `emit!`. -/
theorem HeldAfter.emit (h : HeldAfter pre s.input.held) (ev : Event) (swallow : Event → Bool) :
    HeldAfter (pre ++ [ev]) (s.step (.emit ev swallow)).input.held ∧
      (s.step (.emit ev swallow)).input.queue = s.input.queue ++
        (if swallow (ev.withMods (modsAfter pre)) = false ∧ s.input.queue.length < queueMax
          then [ev.withMods (modsAfter pre)] else []) := by
  have hmoved := h.moved ev (mods s.input.held)
  show HeldAfter _ (Input.emit swallow s.input ev).held ∧ (Input.emit swallow s.input ev).queue = _
  unfold Input.emit offer
  rw [h.mods_eq] at hmoved ⊢
  dsimp only
  cases hswallow : swallow (ev.withMods (modsAfter pre)) with
  | true => simp [hmoved]
  | false =>
      by_cases hroom : s.input.queue.length < queueMax
      · simp [hroom, hmoved]
      · simp [hroom, hmoved]

/-- What `keyboard-keystroke` takes off the queue gives the keystroke that it returns. -/
theorem keyboardKeystroke_spec (queue : List Event) :
    (keyboardKeystroke queue).2.length ≤ queue.length ∧
      queue.take (queue.length - (keyboardKeystroke queue).2.length) ++ (keyboardKeystroke queue).2 = queue ∧
        (queue.take (queue.length - (keyboardKeystroke queue).2.length)).filterMap eventToKeystroke =
          (keyboardKeystroke queue).1.toList := by
  obtain ⟨gone, hqueue, hgone⟩ : ∃ gone, gone ++ (keyboardKeystroke queue).2 = queue ∧
      gone.filterMap eventToKeystroke = (keyboardKeystroke queue).1.toList := by
    induction queue with
    | nil => exact ⟨[], rfl, rfl⟩
    | cons ev queue ih =>
        rw [keyboardKeystroke]
        cases hk : eventToKeystroke ev with
        | some k => exact ⟨[ev], rfl, by simp [hk]⟩
        | none =>
            obtain ⟨gone, hqueue, hgone⟩ := ih
            refine ⟨ev :: gone, ?_, ?_⟩
            · rw [List.cons_append, hqueue]
            · rw [List.filterMap_cons_none hk, hgone]
  have hlen : gone.length + (keyboardKeystroke queue).2.length = queue.length := by
    rw [← List.length_append, hqueue]
  have htake : queue.take (queue.length - (keyboardKeystroke queue).2.length) = gone := by
    rw [← hlen, Nat.add_sub_cancel, ← hqueue, List.take_left' rfl]
  rw [htake]
  exact ⟨by omega, hqueue, hgone⟩

/-- Reading moves events from the queue to those taken. -/
theorem read_step (s : System) (op : Op) (hop : op.emitted = []) :
    (s.step op).taken ++ (s.step op).input.queue = s.taken ++ s.input.queue ∧
      (s.step op).input.held = s.input.held ∧ (s.step op).input.queue.length ≤ s.input.queue.length := by
  cases op with
  | emit ev swallow => simp [Op.emitted] at hop
  | poll =>
      show s.taken ++ (pollEvent s.input).1.toList ++ (pollEvent s.input).2.queue = _ ∧
        (pollEvent s.input).2.held = _ ∧ (pollEvent s.input).2.queue.length ≤ _
      unfold pollEvent
      cases hq : s.input.queue with
      | nil => simp [hq]
      | cons ev queue => simp
  | keystroke =>
      obtain ⟨hle, hqueue, -⟩ := keyboardKeystroke_spec s.input.queue
      show s.taken ++ s.input.queue.take _ ++ (keyboardKeystroke s.input.queue).2 = _ ∧ _ ∧
        (keyboardKeystroke s.input.queue).2.length ≤ _
      rw [List.append_assoc, hqueue]
      exact ⟨rfl, rfl, hle⟩

theorem HeldAfter.run (h : HeldAfter pre s.input.held) (ops : List Op) :
    HeldAfter (pre ++ emits ops) (s.run ops).input.held ∧
      (s.run ops).taken ++ (s.run ops).input.queue = s.taken ++ s.input.queue ++ accepted pre s ops := by
  induction ops generalizing pre s with
  | nil =>
      rw [show emits [] = [] from rfl, show accepted pre s [] = [] from rfl, List.append_nil, List.append_nil]
      exact ⟨h, rfl⟩
  | cons op ops ih =>
      rw [run_cons]
      have hread (hop : op.emitted = []) (haccepted : accepted pre s (op :: ops) = accepted pre (s.step op) ops) :
          HeldAfter (pre ++ emits (op :: ops)) ((s.step op).run ops).input.held ∧
            ((s.step op).run ops).taken ++ ((s.step op).run ops).input.queue =
              s.taken ++ s.input.queue ++ accepted pre s (op :: ops) := by
        obtain ⟨hkeep, hheld, -⟩ := read_step s op hop
        rw [← hheld] at h
        obtain ⟨hrun, htaken⟩ := ih h
        rw [htaken, hkeep, haccepted]
        refine ⟨?_, rfl⟩
        simpa [emits, hop] using hrun
      cases op with
      | emit ev swallow =>
          obtain ⟨hheld, hqueue⟩ := h.emit ev swallow
          obtain ⟨hrun, htaken⟩ := ih hheld
          rw [List.append_assoc] at hrun
          refine ⟨hrun, ?_⟩
          rw [htaken, hqueue]
          show s.taken ++ _ ++ _ = _ ++ (_ ++ _)
          simp only [List.append_assoc]
      | poll => exact hread rfl rfl
      | keystroke => exact hread rfl rfl

theorem run_queue_le (h : s.input.queue.length ≤ queueMax) : (s.run ops).input.queue.length ≤ queueMax := by
  induction ops generalizing s with
  | nil => exact h
  | cons op ops ih =>
      rw [run_cons]
      apply ih
      cases op with
      | emit ev swallow =>
          show (emit swallow s.input ev).queue.length ≤ queueMax
          unfold emit offer
          dsimp only
          split_ifs with _ hroom
          · exact h
          · rw [List.length_append]
            exact hroom
          · exact h
      | poll => exact (read_step s .poll rfl).2.2.trans h
      | keystroke => exact (read_step s .keystroke rfl).2.2.trans h

theorem heldAfter_boot : HeldAfter [] boot.input.held := fun k => by simp [boot, lastMove]

/-- Whatever order the tasks emit and read in, the events read and those waiting are, in order, the ones that were not
swallowed and found room, each key with the modifiers that were down when it moved; and `down?` is true of what moved
down last. -/
theorem events_kept (ops : List Op) :
    (boot.run ops).taken ++ (boot.run ops).input.queue = accepted [] boot ops ∧
      (boot.run ops).input.queue.length ≤ queueMax ∧
        ∀ k, k ∈ (boot.run ops).input.held ↔ lastMove k (emits ops) = some true := by
  obtain ⟨hheld, hkept⟩ := heldAfter_boot.run ops
  exact ⟨hkept, run_queue_le (Nat.zero_le _), hheld⟩

/-! ### Motion and position -/

/-- What the device says it moved along an axis. -/
def relSum (axis : Nat) (es : List VirtioInput.Event) : Int :=
  (es.map fun e => if e.type = evRel ∧ e.code = axis then signed32 e.value else 0).sum

def IsAbs (e : VirtioInput.Event) : Prop := e.type = evAbs ∧ (e.code = absX ∨ e.code = absY)

instance (e : VirtioInput.Event) : Decidable (IsAbs e) := inferInstanceAs (Decidable (_ ∧ _))

/-- The place that the device said last. -/
def lastAbs (axis : Nat) (es : List VirtioInput.Event) : Nat :=
  es.foldl (fun v e => if e.type = evAbs ∧ e.code = axis then e.value else v) 0

def Event.motionX : Event → Int
  | motion _ dx _ => dx
  | _ => 0

def Event.motionY : Event → Int
  | motion _ _ dy => dy
  | _ => 0

def Event.place : Event → Option (Nat × Nat)
  | abs _ x y _ _ => some (x, y)
  | _ => none

/-- Nothing that the device has said is lost: what is not emitted yet is pending. -/
structure Tracked (es : List VirtioInput.Event) (out : List Event) (p : Pending) : Prop where
  dx : (out.map Event.motionX).sum + p.dx = relSum relX es
  dy : (out.map Event.motionY).sum + p.dy = relSum relY es
  x : p.x = lastAbs absX es
  y : p.y = lastAbs absY es
  place : p.abs = false → (out.filterMap Event.place).getLast? =
    if es.any fun e => decide (IsAbs e) then some (p.x, p.y) else none
  told : p.abs = true → ∃ e ∈ es, IsAbs e

theorem tracked_init : Tracked [] [] .init := ⟨rfl, rfl, rfl, rfl, fun _ => rfl, fun h => absurd h Bool.false_ne_true⟩

section Report

variable {d : Device} {p p' : Pending} {e : VirtioInput.Event} {devEs : List VirtioInput.Event} {out out' : List Event}

theorem relSum_append (axis : Nat) (es es' : List VirtioInput.Event) :
    relSum axis (es ++ es') = relSum axis es + relSum axis es' := by
  simp [relSum]

theorem lastAbs_concat (axis : Nat) (es : List VirtioInput.Event) (e : VirtioInput.Event) :
    lastAbs axis (es ++ [e]) = if e.type = evAbs ∧ e.code = axis then e.value else lastAbs axis es := by
  simp [lastAbs]

theorem lastPlace_append (h : ∀ ev ∈ out', ev.place = none) :
    ((out ++ out').filterMap Event.place).getLast? = (out.filterMap Event.place).getLast? := by
  rw [List.filterMap_append, List.filterMap_eq_nil_iff.mpr h, List.append_nil]

theorem sum_append_zero (f : Event → Int) (h : ∀ ev ∈ out', f ev = 0) :
    ((out ++ out').map f).sum = (out.map f).sum := by
  have hzero : out'.map f = out'.map fun _ => 0 := List.map_congr_left h
  simp [hzero]

/-- An event that is neither motion nor position, and emits neither. -/
theorem Tracked.other (h : Tracked devEs out p) (hrel : e.type = evRel → e.code ≠ relX ∧ e.code ≠ relY)
    (habs : ¬IsAbs e) (hx : ∀ ev ∈ out', ev.motionX = 0) (hy : ∀ ev ∈ out', ev.motionY = 0)
    (hplace : ∀ ev ∈ out', ev.place = none) : Tracked (devEs ++ [e]) (out ++ out') p := by
  have hrelX : ¬(e.type = evRel ∧ e.code = relX) := fun he => (hrel he.1).1 he.2
  have hrelY : ¬(e.type = evRel ∧ e.code = relY) := fun he => (hrel he.1).2 he.2
  have habsX : ¬(e.type = evAbs ∧ e.code = absX) := fun he => habs ⟨he.1, Or.inl he.2⟩
  have habsY : ¬(e.type = evAbs ∧ e.code = absY) := fun he => habs ⟨he.1, Or.inr he.2⟩
  constructor
  · rw [sum_append_zero _ hx, relSum_append, h.dx]
    simp [relSum, hrelX]
  · rw [sum_append_zero _ hy, relSum_append, h.dy]
    simp [relSum, hrelY]
  · rw [lastAbs_concat, if_neg habsX, h.x]
  · rw [lastAbs_concat, if_neg habsY, h.y]
  · intro hp
    rw [lastPlace_append hplace, h.place hp]
    simp [habs]
  · intro hp
    obtain ⟨e', he', habs'⟩ := h.told hp
    exact ⟨e', List.mem_append_left _ he', habs'⟩

/-- A report's end. -/
theorem Tracked.sync (h : Tracked devEs out p) (hsyn : e.type = evSyn) (he : onSync d p = ⟨out', some p'⟩) :
    Tracked (devEs ++ [e]) (out ++ out') p' ∧ p'.dx = 0 ∧ p'.dy = 0 ∧ p'.abs = false := by
  have hrel (axis : Nat) : relSum axis (devEs ++ [e]) = relSum axis devEs := by
    rw [relSum_append]
    simp [relSum, hsyn, evSyn, evRel]
  have habs : ¬IsAbs e := by simp [IsAbs, hsyn, evSyn, evAbs]
  have hlast (axis : Nat) : lastAbs axis (devEs ++ [e]) = lastAbs axis devEs := by
    rw [lastAbs_concat]
    simp [hsyn, evSyn, evAbs]
  have hany : (devEs ++ [e]).any (fun e => decide (IsAbs e)) = devEs.any fun e => decide (IsAbs e) := by
    simp [habs]
  -- the motion that is emitted is the pending one, also when that is none
  obtain ⟨motion, hmotion, hx, hy, hnone⟩ : ∃ motion : List Event,
      motion = (if p.dx ≠ 0 ∨ p.dy ≠ 0 then [Event.motion d.name p.dx p.dy] else []) ∧
        (motion.map Event.motionX).sum = p.dx ∧ (motion.map Event.motionY).sum = p.dy ∧
          ∀ ev ∈ motion, ev.place = none := by
    refine ⟨_, rfl, ?_⟩
    split_ifs with hne
    · simp [Event.motionX, Event.motionY, Event.place]
    · have hzero : p.dx = 0 ∧ p.dy = 0 := by omega
      simp [hzero]
  unfold onSync at he
  dsimp only at he
  rw [← hmotion] at he
  have hdx : (motion.map Event.motionX).sum + (out.map Event.motionX).sum = relSum relX (devEs ++ [e]) := by
    rw [hrel, ← h.dx, hx, add_comm]
  have hdy : (motion.map Event.motionY).sum + (out.map Event.motionY).sum = relSum relY (devEs ++ [e]) := by
    rw [hrel, ← h.dy, hy, add_comm]
  cases hp : p.abs with
  | false =>
      rw [hp, if_neg Bool.false_ne_true, Handled.mk.injEq, Option.some_inj] at he
      obtain ⟨rfl, rfl⟩ := he
      refine ⟨⟨?_, ?_, ?_, ?_, fun _ => ?_, fun h => absurd h Bool.false_ne_true⟩, rfl, rfl, rfl⟩
      · simpa [add_comm] using hdx
      · simpa [add_comm] using hdy
      · rw [hlast, ← h.x]
      · rw [hlast, ← h.y]
      · rw [lastPlace_append hnone, hany, h.place hp]
  | true =>
      rw [hp, if_pos rfl] at he
      cases hmax : d.absMax with
      | none => simp [hmax] at he
      | some m =>
          rw [hmax] at he
          simp only [Handled.mk.injEq, Option.some_inj] at he
          obtain ⟨rfl, rfl⟩ := he
          refine ⟨⟨?_, ?_, ?_, ?_, fun _ => ?_, fun h => absurd h Bool.false_ne_true⟩, rfl, rfl, rfl⟩
          · simpa [Event.motionX, add_comm] using hdx
          · simpa [Event.motionY, add_comm] using hdy
          · rw [hlast, ← h.x]
          · rw [hlast, ← h.y]
          · obtain ⟨e', he', habs'⟩ := h.told hp
            have htold : devEs.any (fun e => decide (IsAbs e)) = true :=
              List.any_eq_true.mpr ⟨e', he', decide_eq_true habs'⟩
            rw [hany, if_pos htold]
            simp [Event.place]

/-- A place on the axis `axis`. -/
theorem Tracked.told_place (h : Tracked devEs out p) (habs : e.type = evAbs)
    (hcode : e.code = absX ∧ p' = { p with x := e.value, abs := true } ∨
      e.code = absY ∧ p' = { p with y := e.value, abs := true }) : Tracked (devEs ++ [e]) (out ++ []) p' := by
  have hrel (axis : Nat) : relSum axis (devEs ++ [e]) = relSum axis devEs := by
    rw [relSum_append]
    simp [relSum, habs, evAbs, evRel]
  rw [List.append_nil]
  rcases hcode with ⟨hcode, rfl⟩ | ⟨hcode, rfl⟩
  · refine ⟨?_, ?_, ?_, ?_, fun h => absurd h.symm Bool.false_ne_true, fun _ => ⟨e, by simp, habs, Or.inl hcode⟩⟩
    · rw [hrel, ← h.dx]
    · rw [hrel, ← h.dy]
    · rw [lastAbs_concat, if_pos ⟨habs, hcode⟩]
    · rw [lastAbs_concat, if_neg (by simp [hcode, absX, absY]), ← h.y]
  · refine ⟨?_, ?_, ?_, ?_, fun h => absurd h.symm Bool.false_ne_true, fun _ => ⟨e, by simp, habs, Or.inr hcode⟩⟩
    · rw [hrel, ← h.dx]
    · rw [hrel, ← h.dy]
    · rw [lastAbs_concat, if_neg (by simp [hcode, absX, absY]), ← h.x]
    · rw [lastAbs_concat, if_pos ⟨habs, hcode⟩]

/-- A move along the axis `axis`. -/
theorem Tracked.told_move (h : Tracked devEs out p) (hrel : e.type = evRel)
    (hcode : e.code = relX ∧ p' = { p with dx := p.dx + signed32 e.value } ∨
      e.code = relY ∧ p' = { p with dy := p.dy + signed32 e.value }) : Tracked (devEs ++ [e]) (out ++ []) p' := by
  have hlast (axis : Nat) : lastAbs axis (devEs ++ [e]) = lastAbs axis devEs := by
    rw [lastAbs_concat]
    simp [hrel, evRel, evAbs]
  have habs : ¬IsAbs e := by simp [IsAbs, hrel, evRel, evAbs]
  have hplace : (devEs ++ [e]).any (fun e => decide (IsAbs e)) = devEs.any fun e => decide (IsAbs e) := by
    simp [habs]
  have htold : p.abs = true → ∃ e' ∈ devEs ++ [e], IsAbs e' := by
    intro hp
    obtain ⟨e', he', habs'⟩ := h.told hp
    exact ⟨e', List.mem_append_left _ he', habs'⟩
  rw [List.append_nil]
  rcases hcode with ⟨hcode, rfl⟩ | ⟨hcode, rfl⟩
  · refine ⟨?_, ?_, ?_, ?_, fun hp => ?_, htold⟩
    · rw [relSum_append, ← h.dx]
      simp [relSum, hrel, hcode, add_assoc]
    · rw [relSum_append, ← h.dy]
      simp [relSum, hcode, relX, relY]
    · rw [hlast, ← h.x]
    · rw [hlast, ← h.y]
    · rw [hplace, h.place hp]
  · refine ⟨?_, ?_, ?_, ?_, fun hp => ?_, htold⟩
    · rw [relSum_append, ← h.dx]
      simp [relSum, hcode, relX, relY]
    · rw [relSum_append, ← h.dy]
      simp [relSum, hrel, hcode, add_assoc]
    · rw [hlast, ← h.x]
    · rw [hlast, ← h.y]
    · rw [hplace, h.place hp]

theorem keyEvent_still (d : Device) (code value : Nat) : (keyEvent d code value).motionX = 0 ∧
    (keyEvent d code value).motionY = 0 ∧ (keyEvent d code value).place = none := by
  unfold keyEvent
  split
  · exact ⟨rfl, rfl, rfl⟩
  · split
    · exact ⟨rfl, rfl, rfl⟩
    · exact ⟨rfl, rfl, rfl⟩

theorem Tracked.step (h : Tracked devEs out p) (he : onEvent d p e = ⟨out', some p'⟩) :
    Tracked (devEs ++ [e]) (out ++ out') p' := by
  unfold onEvent at he
  dsimp only at he
  by_cases hsyn : e.type = evSyn
  · rw [if_pos hsyn] at he
    exact (h.sync hsyn he).1
  by_cases hkey : e.type = evKey
  · rw [if_neg hsyn, if_pos hkey, Handled.mk.injEq, Option.some_inj] at he
    obtain ⟨rfl, rfl⟩ := he
    obtain ⟨hx, hy, hplace⟩ := keyEvent_still d e.code e.value
    refine h.other (by simp [hkey, evKey, evRel]) (by simp [IsAbs, hkey, evKey, evAbs]) ?_ ?_ ?_
    · simpa using hx
    · simpa using hy
    · simpa using hplace
  by_cases hrel : e.type = evRel
  · rw [if_neg hsyn, if_neg hkey, if_pos hrel] at he
    have habs : ¬IsAbs e := by simp [IsAbs, hrel, evRel, evAbs]
    split_ifs at he with hx hy hwheel
    · rw [Handled.mk.injEq, Option.some_inj] at he
      rw [← he.1]
      exact h.told_move hrel (Or.inl ⟨hx, he.2.symm⟩)
    · rw [Handled.mk.injEq, Option.some_inj] at he
      rw [← he.1]
      exact h.told_move hrel (Or.inr ⟨hy, he.2.symm⟩)
    · rw [Handled.mk.injEq, Option.some_inj] at he
      obtain ⟨rfl, rfl⟩ := he
      exact h.other (fun _ => ⟨hx, hy⟩) habs (by simp [Event.motionX]) (by simp [Event.motionY]) (by simp [Event.place])
    · rw [Handled.mk.injEq, Option.some_inj] at he
      obtain ⟨rfl, rfl⟩ := he
      exact h.other (fun _ => ⟨hx, hy⟩) habs (by simp) (by simp) (by simp)
  rw [if_neg hsyn, if_neg hkey, if_neg hrel] at he
  split_ifs at he with habs hx hy
  · rw [Handled.mk.injEq, Option.some_inj] at he
    rw [← he.1]
    exact h.told_place habs (Or.inl ⟨hx, he.2.symm⟩)
  · rw [Handled.mk.injEq, Option.some_inj] at he
    rw [← he.1]
    exact h.told_place habs (Or.inr ⟨hy, he.2.symm⟩)
  · rw [Handled.mk.injEq, Option.some_inj] at he
    obtain ⟨rfl, rfl⟩ := he
    exact h.other (fun h => absurd h hrel) (by simp [IsAbs, hx, hy]) (by simp) (by simp) (by simp)
  · rw [Handled.mk.injEq, Option.some_inj] at he
    obtain ⟨rfl, rfl⟩ := he
    exact h.other (fun h => absurd h hrel) (by simp [IsAbs, habs]) (by simp) (by simp) (by simp)

theorem report_cons (d : Device) (p : Pending) (e : VirtioInput.Event) (es : List VirtioInput.Event) :
    report d p (e :: es) = match onEvent d p e with
      | ⟨out, none⟩ => ⟨out, none⟩
      | ⟨out, some p'⟩ => ⟨out ++ (report d p' es).events, (report d p' es).pending⟩ := rfl

/-- A report that does not throw is one step after the other. -/
theorem report_some {es : List VirtioInput.Event} (h : report d p (e :: es) = ⟨out, some p'⟩) :
    ∃ first p₁ rest, onEvent d p e = ⟨first, some p₁⟩ ∧ report d p₁ es = ⟨rest, some p'⟩ ∧ out = first ++ rest := by
  rw [report_cons] at h
  cases hone : onEvent d p e with
  | mk first next =>
      rw [hone] at h
      cases next with
      | none => simp at h
      | some p₁ =>
          simp only [Handled.mk.injEq] at h
          refine ⟨first, p₁, (report d p₁ es).events, rfl, ?_, h.1.symm⟩
          rw [← h.2]

theorem Tracked.report {es : List VirtioInput.Event} (h : Tracked devEs out p)
    (he : report d p es = ⟨out', some p'⟩) : Tracked (devEs ++ es) (out ++ out') p' := by
  induction es generalizing devEs out out' p with
  | nil =>
      rw [Input.report, Handled.mk.injEq, Option.some_inj] at he
      obtain ⟨rfl, rfl⟩ := he
      simpa using h
  | cons e es ih =>
      obtain ⟨first, p₁, rest, hone, hrest, rfl⟩ := report_some he
      have hall := ih (h.step hone) hrest
      simpa [List.append_assoc] using hall

theorem report_concat {es : List VirtioInput.Event} (he : Input.report d p (es ++ [e]) = ⟨out, some p'⟩) :
    ∃ first p₁ last, Input.report d p es = ⟨first, some p₁⟩ ∧ onEvent d p₁ e = ⟨last, some p'⟩ ∧
      out = first ++ last := by
  induction es generalizing p out with
  | nil =>
      obtain ⟨first, p₁, rest, hone, hrest, rfl⟩ := report_some he
      rw [Input.report, Handled.mk.injEq, Option.some_inj] at hrest
      obtain ⟨rfl, rfl⟩ := hrest
      exact ⟨[], p, first, rfl, hone, by simp⟩
  | cons e' es ih =>
      rw [List.cons_append] at he
      obtain ⟨first, p₁, rest, hone, hrest, rfl⟩ := report_some he
      obtain ⟨first', p₂, last, hfirst, hlast, rfl⟩ := ih hrest
      refine ⟨first ++ first', p₂, last, ?_, hlast, by simp⟩
      rw [report_cons, hone]
      simp [hfirst]

/-- A tablet's wheel and pointer move. -/
def tabletEvents : List VirtioInput.Event :=
  [⟨evRel, relWheel, 0xFFFFFFFF⟩, ⟨evAbs, absX, 300⟩, ⟨evRel, relX, 0xFFFFFFFE⟩, ⟨evSyn, 0, 0⟩, ⟨evAbs, absY, 40⟩,
    ⟨evSyn, 0, 0⟩]

end Report

/-! ### Typing -/

/-- A key that is pressed, held for some repeats and let go, with a shift key (the right one or the left one) or
without. -/
structure Tap where
  code : Nat
  key : Key
  shift : Option Bool
  repeats : Nat
  keyNames_code : keyNames code = some key
  buttonNames_code : buttonNames code = none
  plain : modifierKeys key = none

def shiftCode (right : Bool) : Nat := if right then 54 else 42

def shiftKey (right : Bool) : Key := if right then named "right-shift" else named "left-shift"

/-- The codes and values of the keys that move. -/
def Tap.presses (t : Tap) : List (Nat × Nat) :=
  t.shift.toList.map (fun right => (shiftCode right, 1)) ++
    ((t.code, 1) :: List.replicate t.repeats (t.code, 2) ++ [(t.code, 0)]) ++
      t.shift.toList.map fun right => (shiftCode right, 0)

/-- A report about one key. -/
def press (p : Nat × Nat) : List VirtioInput.Event := [⟨evKey, p.1, p.2⟩, ⟨evSyn, 0, 0⟩]

/-- What is emitted for it. -/
def struck (d : Device) (p : Nat × Nat) : Event := keyEvent d p.1 p.2

/-- What the keyboard sends. -/
def typed (taps : List Tap) : List VirtioInput.Event := (taps.flatMap Tap.presses).flatMap press

/-- The keystroke of a key with or without shift. -/
def strokeOf (k : Key) (shift : Bool) : Keystroke :=
  match usLayout.lookup k with
  | some pair =>
      let c := if shift then pair.2 else pair.1
      if c ≠ '\n' ∧ c ≠ '\t' then .char c else .key k ⟨shift, false, false, false⟩
  | none => .key k ⟨shift, false, false, false⟩

def Tap.strokes (t : Tap) : List Keystroke := List.replicate (t.repeats + 1) (strokeOf t.key t.shift.isSome)

/-- The events with the modifiers at their time. -/
def stamps (pre : List Event) : List Event → List Event
  | [] => []
  | ev :: es => ev.withMods (modsAfter pre) :: stamps (pre ++ [ev]) es

/-- Each event finds room in the queue. -/
def Roomy (s : System) : List Op → Prop
  | [] => True
  | op :: ops => (op.emitted ≠ [] → s.input.queue.length < queueMax) ∧ Roomy (s.step op) ops

/-- What is in `intercept` is `interrupt-key?`, and nobody takes events as they are. -/
def Op.Keyboard : Op → Prop
  | emit _ swallow => ∃ handler flag, swallow = interruptKey handler flag
  | poll => False
  | keystroke => True

section Typing

variable {d : Device} {shift : Option Bool}

theorem report_presses (d : Device) (ps : List (Nat × Nat)) :
    report d .init (ps.flatMap press) = ⟨ps.map (struck d), some .init⟩ := by
  induction ps with
  | nil => rfl
  | cons p ps ih =>
      show report d .init (⟨evKey, p.1, p.2⟩ :: ⟨evSyn, 0, 0⟩ :: ps.flatMap press) = _
      rw [report_cons]
      show (⟨[struck d p] ++ (report d .init (⟨evSyn, 0, 0⟩ :: ps.flatMap press)).events,
        (report d .init (⟨evSyn, 0, 0⟩ :: ps.flatMap press)).pending⟩ : Handled) = _
      have hsyn : report d .init (⟨evSyn, 0, 0⟩ :: ps.flatMap press) = report d .init (ps.flatMap press) := by
        rw [report_cons]
        rfl
      rw [hsyn, ih]
      rfl

theorem accepted_eq_stamps (hroom : Roomy s ops) (hops : ∀ op ∈ ops, op.Keyboard)
    (hkind : ∀ ev ∈ stamps pre (emits ops), interruptKind ev = none) :
    accepted pre s ops = stamps pre (emits ops) := by
  induction ops generalizing pre s with
  | nil => rfl
  | cons op ops ih =>
      rw [List.forall_mem_cons] at hops
      cases op with
      | emit ev swallow =>
          obtain ⟨handler, flag, rfl⟩ := hops.1
          have hkind' : ∀ ev' ∈ ev.withMods (modsAfter pre) :: stamps (pre ++ [ev]) (emits ops),
            interruptKind ev' = none := hkind
          rw [List.forall_mem_cons] at hkind'
          have hswallow : interruptKey handler flag (ev.withMods (modsAfter pre)) = false := by
            unfold interruptKey
            rw [hkind'.1]
          show (if _ then [_] else []) ++ accepted _ _ _ = _ :: stamps (pre ++ [ev]) (emits ops)
          rw [if_pos ⟨hswallow, hroom.1 (List.cons_ne_nil _ _)⟩, ih hroom.2 hops.2 hkind'.2]
          rfl
      | poll => exact hops.1.elim
      | keystroke => exact ih hroom.2 hops.2 hkind

/-- The keystrokes are those of the events taken. -/
theorem strokes_run (hops : ∀ op ∈ ops, op.Keyboard) (h : s.strokes = s.taken.filterMap eventToKeystroke) :
    (s.run ops).strokes = (s.run ops).taken.filterMap eventToKeystroke := by
  induction ops generalizing s with
  | nil => exact h
  | cons op ops ih =>
      rw [List.forall_mem_cons] at hops
      rw [run_cons]
      apply ih hops.2
      cases op with
      | emit ev swallow => exact h
      | poll => exact hops.1.elim
      | keystroke =>
          show s.strokes ++ (keyboardKeystroke s.input.queue).1.toList =
            (s.taken ++ s.input.queue.take _).filterMap eventToKeystroke
          rw [List.filterMap_append, (keyboardKeystroke_spec s.input.queue).2.2, h]

/-- Of the modifiers, only this shift key is down. -/
def OnlyShift (pre : List Event) (shift : Option Bool) : Prop :=
  ∀ k, modifierKeys k ≠ none → (lastMove k pre = some true ↔ ∃ right, shift = some right ∧ k = shiftKey right)

theorem OnlyShift.modsAfter (h : OnlyShift pre shift) : modsAfter pre = ⟨shift.isSome, false, false, false⟩ := by
  have hdown (s : String) (hs : modifierKeys (named s) ≠ none) : (lastMove (named s) pre == some true) =
      decide (∃ right, shift = some right ∧ named s = shiftKey right) := by
    rw [Bool.eq_iff_iff, beq_iff_eq, decide_eq_true_eq]
    exact h _ hs
  unfold Input.modsAfter
  dsimp only
  rw [hdown "left-shift" (by decide), hdown "right-shift" (by decide), hdown "left-ctrl" (by decide),
    hdown "right-ctrl" (by decide), hdown "left-alt" (by decide), hdown "right-alt" (by decide),
    hdown "left-meta" (by decide), hdown "right-meta" (by decide)]
  rcases shift with _ | _ | _ <;> decide

theorem lastMove_concat (k : Key) (pre : List Event) {k' : Key} {down : Bool} (hev : ev.subject = some (k', down)) :
    lastMove k (pre ++ [ev]) = if k' = k then some down else lastMove k pre := by
  rw [lastMove_append]
  by_cases hk : k' = k
  · simp [lastMove, hev, hk]
  · simp [lastMove, hev, hk]

/-- A key that is no modifier moves. -/
theorem OnlyShift.key (h : OnlyShift pre shift) (ev : Event) {k : Key} {down : Bool} (hev : ev.subject = some (k, down))
    (hk : modifierKeys k = none) : OnlyShift (pre ++ [ev]) shift := by
  intro k' hk'
  have hne : k ≠ k' := fun he => hk' (he ▸ hk)
  rw [lastMove_concat k' pre hev, if_neg hne]
  exact h k' hk'

theorem OnlyShift.down (h : OnlyShift pre none) (ev : Event) {right : Bool}
    (hev : ev.subject = some (shiftKey right, true)) : OnlyShift (pre ++ [ev]) (some right) := by
  intro k hk
  rw [lastMove_concat k pre hev]
  split_ifs with he
  · simp [← he]
  · rw [h k hk]
    simp [Ne.symm he]

theorem OnlyShift.up {right : Bool} (h : OnlyShift pre (some right)) (ev : Event)
    (hev : ev.subject = some (shiftKey right, false)) : OnlyShift (pre ++ [ev]) none := by
  intro k hk
  rw [lastMove_concat k pre hev]
  split_ifs with he
  · simp
  · rw [h k hk]
    simp [Ne.symm he]

theorem keyEvent_key (d : Device) {code : Nat} {k : Key} (hb : buttonNames code = none) (hk : keyNames code = some k)
    (value : Nat) : keyEvent d code value = .key d.name k none (decide (value ≠ 0)) (decide (value = 2)) none := by
  unfold keyEvent
  rw [hb, hk]

theorem keyEvent_shift (d : Device) (right : Bool) (value : Nat) : keyEvent d (shiftCode right) value =
    .key d.name (shiftKey right) none (decide (value ≠ 0)) (decide (value = 2)) none := by
  cases right
  · exact keyEvent_key d rfl rfl value
  · exact keyEvent_key d rfl rfl value

theorem stamps_append (pre es es' : List Event) :
    stamps pre (es ++ es') = stamps pre es ++ stamps (pre ++ es) es' := by
  induction es generalizing pre with
  | nil => rw [List.append_nil]; rfl
  | cons ev es ih =>
      show _ :: stamps (pre ++ [ev]) (es ++ es') = _ :: stamps (pre ++ [ev]) es ++ _
      rw [ih, List.append_assoc]
      rfl

/-- Some events of a keyboard whose only modifier is `shift`, and the keystrokes that they give. -/
structure Gives (pre : List Event) (es : List Event) (shift' : Option Bool) (ks : List Keystroke) : Prop where
  after : OnlyShift (pre ++ es) shift'
  strokes : (stamps pre es).filterMap eventToKeystroke = ks
  quiet : ∀ ev ∈ stamps pre es, interruptKind ev = none

theorem Gives.append {es es' : List Event} {shift' shift'' : Option Bool} {ks ks' : List Keystroke}
    (h : Gives pre es shift' ks) (h' : Gives (pre ++ es) es' shift'' ks') :
    Gives pre (es ++ es') shift'' (ks ++ ks') where
  after := by
    rw [← List.append_assoc]
    exact h'.after
  strokes := by rw [stamps_append, List.filterMap_append, h.strokes, h'.strokes]
  quiet ev hev := by
    rw [stamps_append, List.mem_append] at hev
    exact hev.elim (h.quiet ev) (h'.quiet ev)

theorem eventToKeystroke_down (dev : Str) (code : Option Nat) (repeated : Bool) {k : Key} (hk : modifierKeys k = none)
    (shift : Bool) : eventToKeystroke (.key dev k code true repeated (some ⟨shift, false, false, false⟩)) =
      some (strokeOf k shift) := by
  unfold eventToKeystroke strokeOf keyToChar
  dsimp only
  rw [if_pos hk]
  cases usLayout.lookup k with
  | none => rfl
  | some pair =>
      have hplain : ({ (⟨shift, false, false, false⟩ : Mods) with shift := false } : Mods) = noMods := rfl
      dsimp only [Option.getD_some, Option.map_some]
      simp only [hplain, true_and]
      cases shift <;> split_ifs <;> rfl

/-- One event of a key. -/
theorem gives_one (h : OnlyShift pre shift) {k : Key} {down repeated : Bool} {shift' : Option Bool}
    (hafter : OnlyShift (pre ++ [.key d.name k none down repeated none]) shift') :
    Gives pre [.key d.name k none down repeated none] shift'
      (if down ∧ modifierKeys k = none then [strokeOf k shift.isSome] else []) := by
  have hstamp : stamps pre [.key d.name k none down repeated none] =
      [.key d.name k none down repeated (some ⟨shift.isSome, false, false, false⟩)] := by
    show [_] = [_]
    rw [h.modsAfter]
    rfl
  refine ⟨hafter, ?_, ?_⟩
  · rw [hstamp]
    cases down with
    | false => rfl
    | true =>
        by_cases hk : modifierKeys k = none
        · rw [if_pos ⟨rfl, hk⟩]
          rw [List.filterMap_cons_some (eventToKeystroke_down d.name none repeated hk shift.isSome)]
          rfl
        · rw [if_neg fun hboth => hk hboth.2]
          simp [eventToKeystroke, hk]
  · rw [hstamp]
    cases down <;> simp [interruptKind]

theorem gives_shift (h : OnlyShift pre none) (right : Bool) :
    Gives pre [struck d (shiftCode right, 1)] (some right) [] := by
  rw [struck, keyEvent_shift]
  have hone := gives_one (d := d) h (h.down (.key d.name (shiftKey right) none true false none) rfl)
  have hmod : modifierKeys (shiftKey right) ≠ none := by cases right <;> decide
  rwa [if_neg fun hboth => hmod hboth.2] at hone

theorem gives_unshift {right : Bool} (h : OnlyShift pre (some right)) :
    Gives pre [struck d (shiftCode right, 0)] none [] := by
  rw [struck, keyEvent_shift]
  exact gives_one h (h.up _ rfl)

theorem gives_key (t : Tap) (h : OnlyShift pre shift) (value : Nat) :
    Gives pre [struck d (t.code, value)] shift (if value ≠ 0 then [strokeOf t.key shift.isSome] else []) := by
  rw [struck, keyEvent_key d t.buttonNames_code t.keyNames_code]
  have hone := gives_one (d := d) h
    (h.key (.key d.name t.key none (decide (value ≠ 0)) (decide (value = 2)) none) rfl t.plain)
  simpa [t.plain] using hone

theorem gives_repeats (t : Tap) (h : OnlyShift pre shift) (n : Nat) :
    Gives pre ((List.replicate n (t.code, 2)).map (struck d)) shift
      (List.replicate n (strokeOf t.key shift.isSome)) := by
  induction n generalizing pre with
  | zero => exact ⟨by simpa using h, rfl, List.forall_mem_nil _⟩
  | succ n ih =>
      have hfirst := gives_key (d := d) t h 2
      exact hfirst.append (ih hfirst.after)

theorem gives_held (t : Tap) (h : OnlyShift pre shift) :
    Gives pre (((t.code, 1) :: List.replicate t.repeats (t.code, 2) ++ [(t.code, 0)]).map (struck d))
      shift (List.replicate (t.repeats + 1) (strokeOf t.key shift.isSome)) := by
  have hdown := gives_key (d := d) t h 1
  have hrepeats := hdown.append (gives_repeats (d := d) t hdown.after t.repeats)
  have hup := hrepeats.append (gives_key (d := d) t hrepeats.after 0)
  simpa [List.replicate_succ] using hup

theorem gives_tap (t : Tap) (h : OnlyShift pre none) :
    Gives pre (t.presses.map (struck d)) none t.strokes := by
  unfold Tap.presses Tap.strokes
  cases hs : t.shift with
  | none => simpa using gives_held t h
  | some right =>
      have hdown := gives_shift (d := d) h right
      have hheld := hdown.append (gives_held (d := d) t hdown.after)
      have hup := hheld.append (gives_unshift (d := d) hheld.after)
      simpa using hup

theorem gives_taps (taps : List Tap) (h : OnlyShift pre none) :
    Gives pre ((taps.flatMap Tap.presses).map (struck d)) none (taps.flatMap Tap.strokes) := by
  induction taps generalizing pre with
  | nil => exact ⟨by simpa using h, rfl, List.forall_mem_nil _⟩
  | cons t taps ih =>
      have hfirst := gives_tap (d := d) t h
      rw [List.flatMap_cons, List.flatMap_cons, List.map_append]
      exact hfirst.append (ih hfirst.after)

theorem onlyShift_nil : OnlyShift [] none := by
  intro k _
  simp [lastMove]

/-- What each character of a US keyboard is typed with: the codes in the order of `us-layout`. -/
def layoutCodes : List Nat :=
  [30, 48, 46, 32, 18, 33, 34, 35, 23, 36, 37, 38, 50, 49, 24, 25, 16, 19, 31, 20, 22, 47, 17, 45, 21, 44,
    2, 3, 4, 5, 6, 7, 8, 9, 10, 11, 12, 13, 26, 27, 39, 40, 41, 43, 51, 52, 53, 57, 15, 28]

theorem layoutCodes_eq : layoutCodes.map keyNames = usLayout.map fun row => some row.1 := by decide

theorem lookup_usLayout : ∀ row ∈ usLayout, usLayout.lookup row.1 = some row.2 := by decide +kernel

theorem char_mem_usLayout : ∀ n ∈ List.range 95, ∃ row ∈ usLayout,
    Char.ofNat (n + 32) = row.2.1 ∨ Char.ofNat (n + 32) = row.2.2 := by decide +kernel

/-- Each printable character has a key. -/
theorem exists_tap {c : Char} (h : ' ' ≤ c ∧ c ≤ '~') : ∃ t : Tap, t.strokes = [.char c] := by
  have hle : 32 ≤ c.toNat ∧ c.toNat ≤ 126 := h
  have hc : Char.ofNat (c.toNat - 32 + 32) = c := by
    rw [Nat.sub_add_cancel hle.1, Char.ofNat_toNat]
  obtain ⟨row, hrow, hchar⟩ := char_mem_usLayout (c.toNat - 32) (List.mem_range.mpr (by omega))
  rw [hc] at hchar
  obtain ⟨code, hcode, hname⟩ : ∃ code ∈ layoutCodes, keyNames code = some row.1 := by
    have hmem : some row.1 ∈ layoutCodes.map keyNames := by
      rw [layoutCodes_eq]
      exact List.mem_map.mpr ⟨row, hrow, rfl⟩
    exact List.mem_map.mp hmem
  have hbutton : ∀ code ∈ layoutCodes, buttonNames code = none := by decide
  have hplain : ∀ row ∈ usLayout, modifierKeys row.1 = none := by decide
  have hstroke (shift : Bool) (hs : (if shift then row.2.2 else row.2.1) = c) : strokeOf row.1 shift = .char c := by
    have hne : c ≠ '\n' ∧ c ≠ '\t' := by
      constructor <;> rintro rfl <;> exact absurd hle.1 (by decide)
    unfold strokeOf
    rw [lookup_usLayout row hrow]
    dsimp only
    rw [hs, if_pos hne]
  rcases hchar with hlow | hhigh
  · refine ⟨⟨code, row.1, none, 0, hname, hbutton code hcode, hplain row hrow⟩, ?_⟩
    show [strokeOf row.1 false] = _
    rw [hstroke false hlow.symm]
  · refine ⟨⟨code, row.1, some false, 0, hname, hbutton code hcode, hplain row hrow⟩, ?_⟩
    show [strokeOf row.1 true] = _
    rw [hstroke true hhigh.symm]

/-- So few operations cannot fill the queue. -/
theorem roomy_of_length (h : s.input.queue.length + ops.length ≤ queueMax) : Roomy s ops := by
  induction ops generalizing s with
  | nil => trivial
  | cons op ops ih =>
      rw [List.length_cons] at h
      refine ⟨fun _ => by omega, ih ?_⟩
      have hstep : (s.step op).input.queue.length ≤ s.input.queue.length + 1 := by
        cases op with
        | emit ev swallow =>
            show (emit swallow s.input ev).queue.length ≤ _
            unfold emit offer
            dsimp only
            split_ifs <;> simp
        | poll => exact (read_step s .poll rfl).2.2.trans (Nat.le_succ _)
        | keystroke => exact (read_step s .keystroke rfl).2.2.trans (Nat.le_succ _)
      omega

end Typing

/-- `A`, held down for one repeat. -/
def tapA : Tap := ⟨30, named "a", some true, 1, rfl, rfl, by decide⟩

/-- The keystroke that `A` gives is read before its repeat. -/
def opsA : List Op :=
  let emitting := (report ⟨"kbd0".toList, none⟩ .init (typed [tapA])).events.map fun ev =>
    Op.emit ev (interruptKey none true)
  emitting.take 2 ++ .keystroke :: emitting.drop 2

end Beeros.Input
