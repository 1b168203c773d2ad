import Beeros.WmInput

/-! Which window gets what: `handle!` of `beer.wm` against the order of the windows and the pixel under the pointer. -/

namespace Beeros.Wm

open Gfx (Pos)
open Input (Event)

variable {font : Font} {scaled : Nat → Nat → Int → Int} {s s' s'' : State} {d : Desktop} {m : Manager} {w : Window}
  {c : Content} {op : Op}

/-! ### Who gets what -/

/-- The canvas of the window on top and the pixel of it at `p`, if `p` is on it. -/
def Desktop.pixel (d : Desktop) (p : Pos) : Option (Nat × Pos) :=
  d.sys.wm.windows.getLast?.bind fun w => (d.content w.id).bind fun c =>
    if (c.area w).Mem p then some (w.id, c.pixelAt w p) else none

namespace Manager

/-- Where an event belongs: keys to the window on top, the rest to its canvas if the pointer is on it. -/
def route (scaled : Nat → Nat → Int → Int) (m : Manager) (ev : Event) : Option (Nat × Sent) :=
  match ev with
  | .key .. => if wmKey ev = none then m.wm.windows.getLast?.map fun w => (w.id, .key ev) else none
  | .motion _ dx dy =>
      if m.wm.drag = none then
        (m.desktop.pixel (clamped m.wm (m.wm.pointer.1 + dx) (m.wm.pointer.2 + dy))).map fun q =>
          (q.1, .pointer q.2.1 q.2.2)
      else none
  | .abs _ x y mx my =>
      if m.wm.drag = none then
        (m.desktop.pixel (clamped m.wm (scaled x mx m.wm.width) (scaled y my m.wm.height))).map fun q =>
          (q.1, .pointer q.2.1 q.2.2)
      else none
  | .button _ b down =>
      -- the end of a drag
      if b = .left ∧ ¬down ∧ m.wm.drag ≠ none then none
      else (m.desktop.pixel m.wm.pointer).map fun q => (q.1, .button b down q.2.1 q.2.2)
  | .wheel _ delta => (m.desktop.pixel m.wm.pointer).map fun q => (q.1, .wheel delta q.2.1 q.2.2)

/-- What window `id` gets between two states: the end of its canvas, or the event that is routed to it. -/
def tells (m m' : Manager) (r : Option (Nat × Sent)) (id : Nat) : Option Sent :=
  if (m.wm.window id).isSome ∧ ¬(m'.wm.window id).isSome then
    if (m.desktop.content id).isSome then some .close else none
  else r.bind fun q => if q.1 = id then some q.2 else none

/-- The channels between two states. -/
structure Delivers (m m' : Manager) (r : Option (Nat × Sent)) : Prop where
  taken : m'.taken = m.taken
  keys : ∀ id, m'.keys id = m.keys id ++ if (m.keys id).length < m.room id then (m.tells m' r id).toList else []

/-- Neither the channels nor which windows there are differ. -/
structure SameChannels (m m' : Manager) : Prop where
  taken : m'.taken = m.taken
  keys : m'.keys = m.keys
  content : m'.desktop.content = m.desktop.content
  windows : ∀ id, (m'.wm.window id).isSome = (m.wm.window id).isSome

end Manager

section Channels

variable {held : Int → Prop} {i : Nat} {m' m'' : Manager} {r : Option (Nat × Sent)}

theorem window_isSome : (s.window i).isSome = true ↔ ∃ w ∈ s.windows, w.id = i := by
  unfold State.window
  rw [List.find?_isSome]
  simp only [beq_iff_eq]

/-- `focus!` keeps every window. -/
theorem isSome_focus (font : Font) (id : Nat) (s : State) (i : Nat) :
    ((focus font id s).window i).isSome = (s.window i).isSome := by
  rw [Bool.eq_iff_iff, window_isSome, window_isSome]
  unfold focus
  cases hw : s.window id with
  | none => exact Iff.rfl
  | some w =>
      obtain ⟨hmem, hid⟩ := mem_of_window hw
      show (∃ x ∈ (s.windows.filter fun x => x.id ≠ id) ++ [w], x.id = i) ↔ _
      constructor
      · rintro ⟨x, hx, hxi⟩
        rcases List.mem_append.mp hx with hx | hx
        · exact ⟨x, List.mem_of_mem_filter hx, hxi⟩
        · rw [List.mem_singleton.mp hx] at hxi
          exact ⟨w, hmem, hxi⟩
      · rintro ⟨x, hx, hxi⟩
        by_cases heq : x.id = id
        · exact ⟨w, List.mem_append_right _ (List.mem_singleton.mpr rfl), hid.trans (heq.symm.trans hxi)⟩
        · exact ⟨x, List.mem_append_left _ (List.mem_filter.mpr ⟨hx, decide_eq_true heq⟩), hxi⟩

theorem isSome_newWindow (font : Font) (s : State) (win : Window) {g : Gfx.State} (hi : (s.window i).isSome = true) :
    ((focus font s.next { s with next := s.next + 1, windows := s.windows ++ [win], gfx := g }).window i).isSome =
      true := by
  rw [isSome_focus, window_isSome]
  obtain ⟨w, hw, hid⟩ := window_isSome.mp hi
  exact ⟨w, List.mem_append_left _ hw, hid⟩

theorem isSome_close (font : Font) (h : Good s held) (id : Nat) :
    ((close font id s).window i).isSome = true ↔ (s.window i).isSome = true ∧ i ≠ id := by
  cases hw : s.window id with
  | none =>
      have hsame : close font id s = s := by
        unfold close
        rw [hw]
      rw [hsame]
      refine ⟨fun hi => ⟨hi, fun heq => ?_⟩, fun hi => hi.1⟩
      rw [heq, hw] at hi
      exact absurd hi Bool.false_ne_true
  | some w =>
      have hmem := (close_spec font h hw).2
      rw [window_isSome, window_isSome]
      constructor
      · rintro ⟨x, hx, rfl⟩
        exact ⟨⟨x, ((hmem x).mp hx).1, rfl⟩, ((hmem x).mp hx).2⟩
      · rintro ⟨⟨x, hx, rfl⟩, hne⟩
        exact ⟨x, (hmem x).mpr ⟨hx, hne⟩, rfl⟩

/-- Of the windows there are, a call takes away the one that it closes. -/
theorem isSome_step (h : d.Good) (hop : ∀ p drag, op ≠ .dragTo p drag) (hi : (d.sys.wm.window i).isSome = true) :
    ((d.step font op).sys.wm.window i).isSome = true ↔ op.closes d.sys ≠ some i := by
  have hgood := h.inv.good
  have hid {s : State} {id : Nat} {w : Window} (hw : s.window id = some w) : (s.window id).map Window.id = some id := by
    rw [hw, Option.map_some, (mem_of_window hw).2]
  cases op with
  | openWindow o granted =>
      refine iff_of_true ?_ (Option.some_ne_none i).symm
      show ((openWindow font o granted d.sys.wm).2.window i).isSome = true
      unfold openWindow
      dsimp only
      split
      · exact hi
      · exact isSome_newWindow font d.sys.wm _ hi
  | canvas o granted granted' =>
      refine iff_of_true ?_ (Option.some_ne_none i).symm
      show ((d.sys.step font (.canvas o granted granted')).wm.window i).isSome = true
      simp only [System.step]
      unfold openCanvas
      split_ifs
      · exact hi
      · dsimp only
        split <;> rename_i hnew <;> split at hnew <;> cases hnew
        · exact isSome_newWindow font d.sys.wm _ hi
        · exact hi
  | close id =>
      show ((close font id d.sys.wm).window i).isSome = true ↔ (d.sys.wm.window id).map Window.id ≠ some i
      rw [isSome_close font hgood]
      cases hw : d.sys.wm.window id with
      | none =>
          refine iff_of_true ⟨hi, fun heq => ?_⟩ (Option.some_ne_none i).symm
          rw [heq, hw] at hi
          exact absurd hi Bool.false_ne_true
      | some w =>
          rw [← hw, hid hw]
          simp [hi, eq_comm]
  | closeFocused =>
      show ((closeFocused font d.sys.wm).window i).isSome = true ↔ d.sys.wm.focused.map Window.id ≠ some i
      unfold closeFocused
      cases hw : d.sys.wm.focused with
      | none => exact iff_of_true hi (Option.some_ne_none i).symm
      | some w =>
          dsimp only
          rw [isSome_close font hgood, Option.map_some]
          simp [hi, eq_comm]
  | closeCanvas k =>
      show ((d.sys.step font (.closeCanvas k)).wm.window i).isSome = true ↔
        (d.sys.canvases[k]?.bind fun c => (d.sys.wm.window c.id).map Window.id) ≠ some i
      simp only [System.step]
      cases d.sys.canvases[k]? with
      | none => exact iff_of_true hi (Option.some_ne_none i).symm
      | some c =>
          rw [Option.bind_some]
          show ((if (d.sys.wm.window c.id).isSome then close font c.id d.sys.wm else d.sys.wm).window i).isSome =
            true ↔ _
          cases hw : d.sys.wm.window c.id with
          | none => exact iff_of_true hi (Option.some_ne_none i).symm
          | some w =>
              rw [Option.isSome_some, if_pos rfl, isSome_close font hgood, ← hw, hid hw]
              simp [hi, eq_comm]
  | focus id =>
      refine iff_of_true ?_ (Option.some_ne_none i).symm
      exact (isSome_focus ..).trans hi
  | nextWindow =>
      refine iff_of_true ?_ (Option.some_ne_none i).symm
      show ((nextWindow font d.sys.wm).window i).isSome = true
      unfold nextWindow
      split
      · exact (isSome_focus ..).trans hi
      · exact hi
  | dragTo p drag => exact absurd rfl (hop p drag)

namespace Manager

theorem SameChannels.refl (m : Manager) : SameChannels m m := ⟨rfl, rfl, rfl, fun _ => rfl⟩

theorem SameChannels.trans (h : SameChannels m m') (h' : SameChannels m' m'') : SameChannels m m'' :=
  ⟨h'.taken.trans h.taken, h'.keys.trans h.keys, h'.content.trans h.content,
    fun id => (h'.windows id).trans (h.windows id)⟩

theorem Delivers.congr {m₀ m₁ : Manager} (hbefore : SameChannels m₀ m) (h : Delivers m m' r)
    (hafter : SameChannels m' m₁) : Delivers m₀ m₁ r := by
  refine ⟨hafter.taken.trans (h.taken.trans hbefore.taken), fun id => ?_⟩
  rw [hafter.keys, h.keys id, hbefore.keys]
  unfold room tells
  rw [hbefore.content, hbefore.windows, hafter.windows]

theorem tells_kept (id : Nat) (h : (m.wm.window id).isSome = true → (m'.wm.window id).isSome = true) :
    m.tells m' r id = r.bind fun q => if q.1 = id then some q.2 else none :=
  if_neg fun hgone => hgone.2 (h hgone.1)

theorem delivers_none (hchannels : SameChannels m m') : Delivers m m' none := by
  refine ⟨hchannels.taken, fun id => ?_⟩
  rw [tells_kept id fun hi => (hchannels.windows id).trans hi, hchannels.keys]
  simp

/-- The step of a channel. -/
theorem offer_keys (i id : Nat) (t : Sent) (m : Manager) : (m.offer i t).keys id =
    m.keys id ++ if (m.keys id).length < m.room id then (if i = id then [t] else []) else [] := by
  unfold offer
  by_cases hid : i = id
  · rw [hid, if_pos rfl]
    split_ifs
    · exact Function.update_self ..
    · exact (List.append_nil _).symm
  · rw [if_neg hid, ite_self, List.append_nil]
    split_ifs
    · exact Function.update_of_ne (Ne.symm hid) ..
    · rfl

theorem delivers_offer (i : Nat) (t : Sent) (m : Manager) : Delivers m (m.offer i t) (some (i, t)) := by
  refine ⟨(offer_rest i t m).2.1, fun id => ?_⟩
  have hkept : (m.offer i t).wm = m.wm := congrArg (fun d : Desktop => d.sys.wm) (offer_rest i t m).1
  rw [tells_kept id fun hi => (congrArg (fun s : State => (s.window id).isSome) hkept).trans hi, offer_keys,
    Option.bind_some]
  dsimp only
  split_ifs <;> rfl

theorem closes_isSome (hclosed : op.closes d.sys = some i) : (d.sys.wm.window i).isSome = true := by
  have hid {id : Nat} (hmap : (d.sys.wm.window id).map Window.id = some i) : (d.sys.wm.window i).isSome = true := by
    obtain ⟨w, hw, rfl⟩ := Option.map_eq_some_iff.mp hmap
    exact window_isSome.mpr ⟨w, (mem_of_window hw).1, rfl⟩
  cases op with
  | close id => exact hid hclosed
  | closeFocused =>
      obtain ⟨w, hw, rfl⟩ := Option.map_eq_some_iff.mp hclosed
      obtain ⟨id, -, hwin⟩ := Option.bind_eq_some_iff.mp hw
      exact window_isSome.mpr ⟨w, (mem_of_window hwin).1, rfl⟩
  | closeCanvas k =>
      obtain ⟨c, -, hmap⟩ := Option.bind_eq_some_iff.mp hclosed
      exact hid hmap
  | _ => exact absurd hclosed.symm (Option.some_ne_none i)

/-- A call tells a program only the end of its canvas. -/
theorem delivers_call (h : m.desktop.Good) (hop : ∀ p drag, op ≠ .dragTo p drag) :
    Delivers m (m.call font op) none := by
  refine ⟨(call_rest font op m).2.1, fun id => ?_⟩
  have hgone : ((m.wm.window id).isSome = true ∧ ¬((m.call font op).wm.window id).isSome = true) ↔
      op.closes m.desktop.sys = some id := by
    unfold wm
    rw [(call_rest font op m).1]
    constructor
    · rintro ⟨hi, hno⟩
      rw [isSome_step h hop hi] at hno
      exact not_not.mp hno
    · intro hclosed
      have hi := closes_isSome hclosed
      refine ⟨hi, ?_⟩
      rw [isSome_step h hop hi]
      exact not_not.mpr hclosed
  cases hclosed : op.closes m.desktop.sys with
  | none =>
      rw [hclosed] at hgone
      rw [tells_kept id fun hi => not_not.mp fun hno => Option.some_ne_none id (hgone.mp ⟨hi, hno⟩).symm]
      unfold call
      rw [hclosed]
      simp
  | some i =>
      rw [hclosed, Option.some.injEq] at hgone
      have hkeys : (m.call font op).keys id =
          (if (m.desktop.content i).isSome then m.offer i .close else m).keys id := by
        unfold call
        rw [hclosed]
      rw [hkeys]
      by_cases hid : i = id
      · unfold tells
        rw [if_pos (hgone.mpr hid), hid]
        split_ifs with hcanvas hroom
        · rw [offer_keys, if_pos hroom, if_pos rfl]
          rfl
        · rw [offer_keys, if_neg hroom]
        · exact (List.append_nil _).symm
        · exact (List.append_nil _).symm
      · rw [tells_kept id fun hi => not_not.mp fun hno => hid (hgone.mp ⟨hi, hno⟩)]
        by_cases hcanvas : (m.desktop.content i).isSome = true
        · rw [if_pos hcanvas, offer_keys, if_neg hid]
          rfl
        · rw [if_neg hcanvas]
          simp

theorem delivers_openWindow (h : m.desktop.Good) (o : OpenOpts) (granted : Bool) :
    Delivers m (m.openWindow font o granted) none := by
  have hcall : Delivers m (m.call font (.openWindow o granted)) none :=
    delivers_call h fun p drag heq => by cases heq
  unfold openWindow
  split
  · exact hcall
  · exact hcall.congr (.refl m) ⟨rfl, rfl, rfl, fun _ => rfl⟩

theorem sameChannels_pointer (x y : Int) (m : Manager) : SameChannels m (m.pointer x y) :=
  ⟨rfl, rfl, rfl, fun _ => rfl⟩

theorem sameChannels_setDrag (drag : Option (Nat × Int × Int)) (m : Manager) : SameChannels m (m.setDrag drag) :=
  ⟨rfl, rfl, rfl, fun _ => rfl⟩

theorem sameChannels_dragTo (m : Manager) : SameChannels m m.dragTo := by
  refine ⟨rfl, rfl, rfl, fun id => ?_⟩
  show ((Wm.dragTo m.wm).window id).isSome = _
  unfold Wm.dragTo
  split
  · rfl
  · rw [Bool.eq_iff_iff, window_isSome, window_isSome]
    show (∃ w : Window, w ∈ m.wm.windows.map (fun w => if w.id = _ then _ else w) ∧ w.id = id) ↔ _
    constructor
    · rintro ⟨w, hw, rfl⟩
      obtain ⟨w', hw', rfl⟩ := List.mem_map.mp hw
      refine ⟨w', hw', ?_⟩
      split_ifs <;> rfl
    · rintro ⟨w, hw, rfl⟩
      refine ⟨_, List.mem_map.mpr ⟨w, hw, rfl⟩, ?_⟩
      split_ifs <;> rfl

theorem delivers_canvasEvent (w : Window) (ev : Int → Int → Sent) (m : Manager) :
    Delivers m (m.canvasEvent w ev) ((m.canvasPointOf w).map fun p => (w.id, ev p.1 p.2)) := by
  unfold canvasEvent
  cases m.canvasPointOf w with
  | none => exact delivers_none (.refl m)
  | some p => exact delivers_offer w.id (ev p.1 p.2) m

end Manager

/-! ### The canvas under the pointer -/

theorem focused_eq (h : Good s held) : s.focused = s.windows.getLast? := by
  unfold State.focused
  rw [h.focus]
  cases htop : s.windows.getLast? with
  | none => rfl
  | some w => exact window_of_mem h.ids (List.mem_of_getLast? htop)

section Pixel

variable {help : List Nat} {p : Pos}

theorem pixel_of_top (h : Sound d help) (htop : d.sys.wm.windows.getLast? = some w) :
    d.pixel p = ((d.content w.id).bind (canvasPoint p w)).map fun q => (w.id, q) := by
  unfold Desktop.pixel
  rw [htop, Option.bind_some]
  cases hc : d.content w.id with
  | none => rfl
  | some c =>
      rw [Option.bind_some, Option.bind_some, canvasPoint_eq (h.laid w (List.mem_of_getLast? htop) c hc).1]
      split_ifs <;> rfl

/-- A canvas is inside its window. -/
theorem Sound.mem_rect (h : Sound d help) (hw : w ∈ d.sys.wm.windows) (hc : d.content w.id = some c)
    (hp : d.sys.wm.OnScreen p) (harea : (c.area w).Mem p) : w.rect.Mem p := by
  obtain ⟨hscale, hlaid⟩ := h.laid w hw c hc
  cases hframe : w.frame with
  | false =>
      rw [h.covers w hw hframe]
      obtain ⟨⟨hx, hxw⟩, hy, hyh⟩ := hp
      exact ⟨hx, by simpa using hxw, hy, by simpa using hyh⟩
  | true =>
      obtain ⟨⟨hox, hoy⟩, hww, hwh⟩ := hlaid hframe
      unfold Content.area Gfx.Rect.Mem at harea
      dsimp only at harea
      unfold Window.rect Gfx.Rect.Mem
      dsimp only
      rw [hox, hoy] at harea
      simp only [border, tabH] at harea hww hwh
      omega

theorem Sound.windowAt_of_pixel (h : Sound d help) (hp : d.sys.wm.OnScreen p) {q : Nat × Pos}
    (hpixel : d.pixel p = some q) : ∃ w c, d.sys.wm.windows.getLast? = some w ∧ d.content w.id = some c ∧
      (c.area w).Mem p ∧ d.sys.wm.windowAt p.1 p.2 = some w := by
  unfold Desktop.pixel at hpixel
  obtain ⟨w, htop, hpixel⟩ := Option.bind_eq_some_iff.mp hpixel
  obtain ⟨c, hc, hpixel⟩ := Option.bind_eq_some_iff.mp hpixel
  split_ifs at hpixel with harea
  refine ⟨w, c, htop, hc, harea, ?_⟩
  have hrect : w.x ≤ p.1 ∧ p.1 < w.x + w.w ∧ w.y ≤ p.2 ∧ p.2 < w.y + w.h :=
    h.mem_rect (List.mem_of_getLast? htop) hc hp harea
  obtain ⟨init, heq⟩ := List.getLast?_eq_some_iff.mp htop
  unfold State.windowAt
  rw [heq, List.filter_append, List.filter_cons, if_pos (decide_eq_true hrect), List.filter_nil]
  exact List.getLast?_concat

namespace Manager

theorem canvasUnderPointer_iff (h : Sound m.desktop m.help) (htop : m.wm.windows.getLast? = some w) :
    m.isCanvas w ∧ m.canvasUnderPointer w ↔ (m.canvasPointOf w).isSome = true := by
  constructor
  · exact fun hunder => hunder.2.2
  · intro hpoint
    obtain ⟨q, hq⟩ := Option.isSome_iff_exists.mp hpoint
    have hpixel : m.desktop.pixel m.wm.pointer = some (w.id, q) := by
      rw [pixel_of_top h htop]
      exact congrArg (Option.map fun q => (w.id, q)) hq
    obtain ⟨w', c, htop', hc, -, hat⟩ := h.windowAt_of_pixel h.pointer hpixel
    rw [htop, Option.some.injEq] at htop'
    subst htop'
    refine ⟨?_, hat, hpoint⟩
    unfold isCanvas
    rw [hc]
    rfl

/-- An event for the canvas on top, whichever of the conditions the code checks. -/
theorem delivers_pixel (h : Sound m.desktop m.help) (ev : Int → Int → Sent) {checks : Window → Prop}
    [DecidablePred checks]
    (hsome : ∀ w, m.wm.windows.getLast? = some w → (m.canvasPointOf w).isSome = true → checks w) :
    Delivers m (match m.wm.focused with
      | some w => if checks w then m.canvasEvent w ev else m
      | none => m) ((m.desktop.pixel m.wm.pointer).map fun q => (q.1, ev q.2.1 q.2.2)) := by
  rw [focused_eq h.good.inv.good]
  cases htop : m.wm.windows.getLast? with
  | none =>
      have hnone : m.desktop.pixel m.wm.pointer = none := by
        unfold Desktop.pixel
        rw [htop]
        rfl
      rw [hnone]
      exact delivers_none (.refl m)
  | some w =>
      have hpixel : (m.desktop.pixel m.wm.pointer).map (fun q => (q.1, ev q.2.1 q.2.2)) =
          (m.canvasPointOf w).map fun p => (w.id, ev p.1 p.2) := by
        rw [pixel_of_top h htop, Option.map_map]
        rfl
      rw [hpixel]
      dsimp only
      split_ifs with hchecks
      · exact delivers_canvasEvent w ev m
      · cases hpoint : m.canvasPointOf w with
        | none => exact delivers_none (.refl m)
        | some p => exact absurd (hsome w htop (Option.isSome_iff_exists.mpr ⟨p, hpoint⟩)) hchecks

theorem delivers_pointerMoved (h : Sound m.desktop m.help) : Delivers m m.pointerMoved
    (if m.wm.drag = none then (m.desktop.pixel m.wm.pointer).map fun q => (q.1, .pointer q.2.1 q.2.2) else none) := by
  unfold pointerMoved
  split_ifs with hdrag
  · exact delivers_pixel h _ fun w htop hpoint => by
      obtain ⟨hcanvas, hunder⟩ := (canvasUnderPointer_iff h htop).mpr hpoint
      exact ⟨hcanvas, hdrag, hunder⟩
  · cases m.wm.focused with
    | none => exact delivers_none (.refl m)
    | some w =>
        dsimp only
        rw [if_neg fun hall => hdrag hall.2.1]
        exact delivers_none (.refl m)

/-- A press. -/
theorem delivers_onPress (h : Sound m.desktop m.help) (granted : Bool) : Delivers m (m.onPress font granted)
    ((m.desktop.pixel m.wm.pointer).map fun q => (q.1, .button .left true q.2.1 q.2.2)) := by
  have hgood := h.good.inv.good
  have hclose (id : Nat) : Delivers m (m.call font (.close id)) none :=
    delivers_call h.good fun p drag heq => by cases heq
  have hfocus (id : Nat) : Delivers m (m.call font (.focus id)) none :=
    delivers_call h.good fun p drag heq => by cases heq
  unfold onPress
  dsimp only
  cases hpixel : m.desktop.pixel m.wm.pointer with
  | some q =>
      -- the window on top is under the pointer, which is on its canvas and so on neither its tab nor its box
      obtain ⟨w, c, htop, hc, harea, hat⟩ := h.windowAt_of_pixel h.pointer hpixel
      have hlaid := (h.laid w (List.mem_of_getLast? htop) c hc).2
      have htab : w.frame = true → border + tabH < m.wm.pointer.2 - w.y := by
        intro hframe
        unfold Content.area Gfx.Rect.Mem at harea
        dsimp only at harea
        rw [(hlaid hframe).1.2] at harea
        have hbelow : w.y + (border + tabH + border) ≤ m.wm.pointer.2 := harea.2.2.1
        simp only [border, tabH] at hbelow ⊢
        omega
      have hfocused : m.wm.focus = some w.id := by
        rw [hgood.focus]
        exact congrArg (Option.map Window.id) htop
      rw [hat]
      dsimp only
      rw [if_neg fun hbox => Int.lt_irrefl _ ((htab hbox.1).trans hbox.2.2.2.2),
        if_neg fun hon => Int.lt_irrefl _ ((htab hon.1).trans hon.2), if_neg (not_not.mpr hfocused)]
      have hcanvas : m.isCanvas w = true := by
        unfold isCanvas
        rw [hc]
        rfl
      rw [if_pos hcanvas, ← hpixel, pixel_of_top h htop, Option.map_map]
      exact delivers_canvasEvent w _ m
  | none =>
      rw [Option.map_none]
      cases hat : m.wm.windowAt m.wm.pointer.1 m.wm.pointer.2 with
      | none => exact delivers_openWindow h.good _ granted
      | some w =>
          dsimp only
          split_ifs with hbox htab hfocused hcanvas
          · exact hclose w.id
          · exact (hfocus w.id).congr (.refl m) (sameChannels_setDrag ..)
          · exact hfocus w.id
          · -- it is the window on top, but the pointer is beside its canvas
            have htop : m.wm.windows.getLast? = some w := by
              rw [hgood.focus, not_not] at hfocused
              obtain ⟨w', htop, hid⟩ := Option.map_eq_some_iff.mp hfocused
              rw [htop]
              exact congrArg some (List.inj_on_of_nodup_map hgood.ids (List.mem_of_getLast? htop)
                (mem_of_windowAt hat).1 hid)
            rw [pixel_of_top h htop, Option.map_eq_none_iff] at hpixel
            have hpoint : m.canvasPointOf w = none := hpixel
            have hevent := delivers_canvasEvent w (.button .left true) m
            rw [hpoint] at hevent
            exact hevent
          · exact delivers_none (.refl m)

theorem delivers_raiseHelp (h : m.desktop.Good) (granted : Bool) : Delivers m (m.raiseHelp font granted) none := by
  unfold raiseHelp
  split
  · exact delivers_call h fun p drag heq => by cases heq
  · dsimp only
    split_ifs
    · exact delivers_openWindow h _ granted
    · exact (delivers_openWindow h _ granted).congr (.refl m) ⟨rfl, rfl, rfl, fun _ => rfl⟩

theorem delivers_wmKeyDo (h : m.desktop.Good) (granted : Bool) (k : WmKey) :
    Delivers m (m.wmKeyDo font granted k) none := by
  cases k with
  | help => exact delivers_raiseHelp h granted
  | enter => exact delivers_openWindow h _ granted
  | tab => exact delivers_call h fun p drag heq => by cases heq
  | w => exact delivers_call h fun p drag heq => by cases heq

/-- `handle!` sends each event where it belongs. -/
theorem delivers_handle (h : Sound m.desktop m.help) (ev : Event) (granted : Bool) :
    Delivers m (m.handle font scaled ev granted) (m.route scaled ev) := by
  have hgood := h.good.inv.good
  -- what the pointer moves to
  have hmoved (x y : Int) : Delivers m (m.pointer x y).pointerMoved (if m.wm.drag = none then
      (m.desktop.pixel (clamped m.wm x y)).map fun q => (q.1, .pointer q.2.1 q.2.2) else none) :=
    (delivers_pointerMoved (sound_pointer h x y)).congr (sameChannels_pointer x y m) (.refl _)
  unfold handle route
  cases ev with
  | key dev k code down repeated mods =>
      dsimp only
      cases hkey : wmKey (.key dev k code down repeated mods) with
      | some wk => exact delivers_wmKeyDo h.good granted wk
      | none =>
          rw [if_pos rfl, focused_eq hgood]
          cases m.wm.windows.getLast? with
          | none => exact delivers_none (.refl m)
          | some w => exact delivers_offer w.id _ m
  | motion dev dx dy => exact hmoved _ _
  | abs dev x y mx my => exact hmoved _ _
  | button dev b down =>
      dsimp only
      by_cases hpress : b = .left ∧ down = true
      · rw [if_pos hpress, if_neg fun hend => hend.2.1 hpress.2, hpress.1, hpress.2]
        exact delivers_onPress h granted
      · rw [if_neg hpress]
        by_cases hdrag : b = .left ∧ m.wm.drag ≠ none
        · rw [if_pos hdrag, if_pos ⟨hdrag.1, fun hdown => hpress ⟨hdrag.1, hdown⟩, hdrag.2⟩]
          exact delivers_none ((sameChannels_dragTo m).trans (sameChannels_setDrag none m.dragTo))
        · rw [if_neg hdrag, if_neg fun hend => hdrag ⟨hend.1, hend.2.2⟩]
          exact delivers_pixel h _ fun w htop hpoint => (canvasUnderPointer_iff h htop).mpr hpoint
  | wheel dev delta =>
      exact delivers_pixel h _ fun w htop hpoint => ((canvasUnderPointer_iff h htop).mpr hpoint).1

/-! ### Runs -/

/-- What window `id` is sent by an act. -/
def sent (font : Font) (scaled : Nat → Nat → Int → Int) (m : Manager) (a : Act) (id : Nat) : Option Sent :=
  m.tells (m.step font scaled a)
    (match a with
      | .handle ev _ => if m.ended then none else m.route scaled ev
      | _ => none) id

/-- What the channel of window `id` takes in over a run: what it is sent while there is room. -/
def received (font : Font) (scaled : Nat → Nat → Int → Int) (id : Nat) : Manager → List Act → List Sent
  | _, [] => []
  | m, a :: acts =>
      (if (m.keys id).length < m.room id then (m.sent font scaled a id).toList else []) ++
        received font scaled id (m.step font scaled a) acts

/-- One act. -/
theorem step_channels (h : Sound m.desktop m.help) (a : Act) (id : Nat) :
    (m.step font scaled a).taken id ++ (m.step font scaled a).keys id = m.taken id ++ m.keys id ++
      if (m.keys id).length < m.room id then (m.sent font scaled a id).toList else [] := by
  have hdelivers {m' : Manager} {r : Option (Nat × Sent)} (hd : Delivers m m' r) :
      m'.taken id ++ m'.keys id = m.taken id ++ m.keys id ++
        if (m.keys id).length < m.room id then (m.tells m' r id).toList else [] := by
    rw [hd.taken, hd.keys id, List.append_assoc]
  unfold sent
  cases a with
  | handle ev granted =>
      unfold step
      dsimp only
      by_cases hended : m.ended = true
      · rw [if_pos hended, if_pos hended]
        exact hdelivers (delivers_none (.refl m))
      · rw [if_neg hended, if_neg hended]
        exact hdelivers (delivers_handle h ev granted)
  | repaint =>
      unfold step
      dsimp only
      by_cases hstill : m.ended = true ∨ m.wm.drag = none
      · rw [if_pos hstill]
        exact hdelivers (delivers_none (.refl m))
      · rw [if_neg hstill]
        exact hdelivers (delivers_none (sameChannels_dragTo m))
  | call op =>
      rcases step_call font scaled op m with hsame | ⟨hop, hcall⟩
      · rw [hsame]
        exact hdelivers (delivers_none (.refl m))
      · rw [hcall]
        exact hdelivers (delivers_call h.good hop)
  | take i =>
      have htells : m.tells (m.step font scaled (.take i)) none id = none :=
        tells_kept id fun hi => hi
      dsimp only
      rw [htells, Option.toList_none, ite_self, List.append_nil]
      show Function.update m.taken i _ id ++ Function.update m.keys i _ id = _
      by_cases hid : id = i
      · rw [hid, Function.update_self, Function.update_self, List.append_assoc]
        cases m.keys i <;> rfl
      · rw [Function.update_of_ne hid, Function.update_of_ne hid]

theorem run_channels (h : Sound m.desktop m.help) (acts : List Act) (hcareful : AllCareful font scaled m acts)
    (id : Nat) : (m.run font scaled acts).taken id ++ (m.run font scaled acts).keys id =
      m.taken id ++ m.keys id ++ received font scaled id m acts := by
  induction acts generalizing m with
  | nil => exact (List.append_nil _).symm
  | cons a acts ih =>
      rw [run_cons, ih (sound_step h a hcareful.1) hcareful.2, step_channels h, received]
      simp only [List.append_assoc]

end Manager

end Pixel

theorem openWindow_channels (o : OpenOpts) (granted : Bool) (m : Manager) :
    (m.openWindow font o granted).taken = m.taken ∧ (m.openWindow font o granted).keys = m.keys := by
  unfold Manager.openWindow
  split
  · exact ⟨rfl, rfl⟩
  · exact ⟨rfl, rfl⟩

theorem start_channels (opts : OpenOpts) (granted : Bool) (d : Desktop) (id : Nat) :
    (start font opts granted d).taken id ++ (start font opts granted d).keys id = [] := by
  unfold start
  dsimp only
  rw [(openWindow_channels opts granted _).1, (openWindow_channels opts granted _).2]
  rfl

end Channels

end Beeros.Wm
