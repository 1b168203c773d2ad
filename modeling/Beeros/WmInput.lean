import Beeros.Input
import Beeros.WmPointer

/-! Input in `beer.wm`: `run-loop` takes the events off the queue of `beer.input`, keeps the pointer and the drag, and
passes events on to the channels of the windows, while other tasks open and close windows and take from the channels. -/

namespace Beeros.Wm

open CInt
open Gfx (Pos Inside SameMap)
open Input (Event Mods noMods named)
open Tty (Key)

deriving instance DecidableEq for Window

/-- What the channel of a window gets. -/
inductive Sent
  | key (ev : Event)
  | button (button : Key) (down : Bool) (x y : Int)
  | pointer (x y : Int)
  | wheel (delta x y : Int)
  | close
  deriving DecidableEq

/-- The window manager with the channels of the windows, by id, and what has been taken from them. -/
structure Manager where
  desktop : Desktop
  /-- The options of `start!`. -/
  opts : OpenOpts
  /-- The windows with `:help?`. -/
  help : List Nat
  keys : Nat → List Sent
  taken : Nat → List Sent
  /-- `run-loop` has ended with what `open!` throws. -/
  ended : Bool

namespace Manager

abbrev wm (m : Manager) : State := m.desktop.sys.wm

def withWm (s : State) (m : Manager) : Manager :=
  { m with desktop := { m.desktop with sys := { m.desktop.sys with wm := s } } }

/-- The size of a window's channel: those of canvases are larger. -/
def room (m : Manager) (id : Nat) : Nat := if (m.desktop.content id).isSome then 256 else 64

def offer (id : Nat) (s : Sent) (m : Manager) : Manager :=
  if (m.keys id).length < m.room id then { m with keys := Function.update m.keys id (m.keys id ++ [s]) } else m

end Manager

/-- The window that a call closes. -/
def Op.closes (sys : System) : Op → Option Nat
  | .close id => (sys.wm.window id).map Window.id
  | .closeFocused => sys.wm.focused.map Window.id
  | .closeCanvas k => sys.canvases[k]?.bind fun c => (sys.wm.window c.id).map Window.id
  | _ => none

namespace Manager

/-- A call of `beer.wm`; `close!` tells the program of a canvas. -/
def call (font : Font) (op : Op) (m : Manager) : Manager :=
  let told := match op.closes m.desktop.sys with
    | some id => if (m.desktop.content id).isSome then m.offer id .close else m
    | none => m
  { told with desktop := m.desktop.step font op }

/-- `open!` in the run loop. -/
def openWindow (font : Font) (o : OpenOpts) (granted : Bool) (m : Manager) : Manager :=
  match (Wm.openWindow font o granted m.wm).1 with
  | .ok _ => m.call font (.openWindow o granted)
  | .error _ => { m.call font (.openWindow o granted) with ended := true }

/-- `canvas-point` of the window's canvas, if it has one. -/
def canvasPointOf (m : Manager) (w : Window) : Option Pos := (m.desktop.content w.id).bind (canvasPoint m.wm.pointer w)

def canvasUnderPointer (m : Manager) (w : Window) : Prop :=
  m.wm.windowAt m.wm.pointer.1 m.wm.pointer.2 = some w ∧ (m.canvasPointOf w).isSome

instance (m : Manager) (w : Window) : Decidable (m.canvasUnderPointer w) := inferInstanceAs (Decidable (_ ∧ _))

def canvasEvent (w : Window) (ev : Int → Int → Sent) (m : Manager) : Manager :=
  match m.canvasPointOf w with
  | some p => m.offer w.id (ev p.1 p.2)
  | none => m

def isCanvas (m : Manager) (w : Window) : Bool := (m.desktop.content w.id).isSome

def pointerMoved (m : Manager) : Manager :=
  match m.wm.focused with
  | some w =>
      if m.isCanvas w ∧ m.wm.drag = none ∧ m.canvasUnderPointer w then m.canvasEvent w .pointer else m
  | none => m

/-- `pointer!` keeps the pointer on the screen. -/
def clamped (s : State) (x y : Int) : Pos := (max 0 (min x (s.width - 1)), max 0 (min y (s.height - 1)))

def pointer (x y : Int) (m : Manager) : Manager :=
  let p := clamped m.wm x y
  m.withWm { m.wm with pointer := p, gfx := Gfx.gfxCursor p.1 p.2 true m.wm.gfx }

def setDrag (drag : Option (Nat × Int × Int)) (m : Manager) : Manager := m.withWm { m.wm with drag := drag }

def dragTo (m : Manager) : Manager := m.withWm (Wm.dragTo m.wm)

def onPress (font : Font) (granted : Bool) (m : Manager) : Manager :=
  let px := m.wm.pointer.1
  let py := m.wm.pointer.2
  match m.wm.windowAt px py with
  | none => m.openWindow font { m.opts with x := some px, y := some py } granted
  | some w =>
      let lx := px - w.x
      let ly := py - w.y
      let (bx, by', bs) := closeBox w
      if w.frame ∧ bx ≤ lx ∧ lx < bx + bs ∧ by' ≤ ly ∧ ly < by' + bs then m.call font (.close w.id)
      else if w.frame ∧ ly < border + tabH then (m.call font (.focus w.id)).setDrag (some (w.id, lx, ly))
      else if m.wm.focus ≠ some w.id then m.call font (.focus w.id)
      else if m.isCanvas w then m.canvasEvent w (.button .left true)
      else m

/-- `help!`. -/
def raiseHelp (font : Font) (granted : Bool) (m : Manager) : Manager :=
  match m.wm.windows.find? fun w => decide (w.id ∈ m.help) with
  | some w => m.call font (.focus w.id)
  | none =>
      let o : OpenOpts :=
        { m.opts with title := some "help", cols := 72, rows := 30, x := some 400, y := some 60 }
      let opened := m.openWindow font o granted
      if opened.ended then opened else { opened with help := m.wm.next :: m.help }

end Manager

/-- The keys of the window manager. -/
inductive WmKey
  | help | enter | tab | w
  deriving DecidableEq

/-- `wm-key?`, without what the keys do. -/
def wmKey : Event → Option WmKey
  | .key _ k _ true _ m =>
      let m := m.getD noMods
      if k = .f1 ∧ m = noMods then some .help
      else if m.ctrl ∧ m.alt then
        if k = .enter then some .enter
        else if k = .tab then some .tab
        else if k = named "w" then some .w
        else if k = named "h" then some .help
        else none
      else none
  | _ => none

namespace Manager

def wmKeyDo (font : Font) (granted : Bool) (k : WmKey) (m : Manager) : Manager :=
  match k with
  | .help => m.raiseHelp font granted
  | .enter => m.openWindow font m.opts granted
  | .tab => m.call font .nextWindow
  | .w => m.call font .closeFocused

/-- `handle!`; `scaled` is what `int` makes of a quotient of floats times the size of the screen, and `granted` is for
the window that is opened, if one is. -/
def handle (font : Font) (scaled : Nat → Nat → Int → Int) (ev : Event) (granted : Bool) (m : Manager) : Manager :=
  match ev with
  | .key .. =>
      match wmKey ev with
      | some k => m.wmKeyDo font granted k
      | none =>
          match m.wm.focused with
          | some w => m.offer w.id (.key ev)
          | none => m
  | .motion _ dx dy => (m.pointer (m.wm.pointer.1 + dx) (m.wm.pointer.2 + dy)).pointerMoved
  | .abs _ x y mx my => (m.pointer (scaled x mx m.wm.width) (scaled y my m.wm.height)).pointerMoved
  | .button _ b down =>
      if b = .left ∧ down then m.onPress font granted
      else if b = .left ∧ m.wm.drag ≠ none then m.dragTo.setDrag none
      else
        match m.wm.focused with
        | some w => if m.isCanvas w ∧ m.canvasUnderPointer w then m.canvasEvent w (.button b down) else m
        | none => m
  | .wheel _ delta =>
      match m.wm.focused with
      | some w => if m.isCanvas w then m.canvasEvent w (.wheel delta) else m
      | none => m

end Manager

/-- What the tasks do, in the order in which they come to it. -/
inductive Act
  /-- `run-loop` handles an event. -/
  | handle (ev : Event) (granted : Bool)
  /-- It has handled what was waiting and repaints the drag. -/
  | repaint
  /-- A task calls `beer.wm`. -/
  | call (op : Op)
  /-- A task takes what is next in the channel of a window. -/
  | take (id : Nat)

namespace Manager

variable (font : Font) (scaled : Nat → Nat → Int → Int)

def step (m : Manager) : Act → Manager
  | .handle ev granted => if m.ended then m else m.handle font scaled ev granted
  | .repaint => if m.ended ∨ m.wm.drag = none then m else m.dragTo
  -- `drag-to!` is the run loop's
  | .call (.dragTo _ _) => m
  | .call op => m.call font op
  | .take id =>
      { m with
        keys := Function.update m.keys id (m.keys id).tail
        taken := Function.update m.taken id (m.taken id ++ (m.keys id).head?.toList) }

def run (m : Manager) (acts : List Act) : Manager := acts.foldl (step font scaled) m

end Manager

/-- `start!`. -/
def start (font : Font) (opts : OpenOpts) (granted : Bool) (d : Desktop) : Manager :=
  let m : Manager := ⟨d, opts, [], fun _ => [], fun _ => [], false⟩
  let m := m.withWm (restack m.wm)
  let m := m.pointer (m.wm.width.tdiv 2) (m.wm.height.tdiv 2)
  m.openWindow font opts granted

variable {font : Font} {scaled : Nat → Nat → Int → Int} {s s' s'' : State} {d : Desktop} {m : Manager} {w : Window}
  {c : Content} {op : Op}

/-! ### What a call leaves as it is -/

/-- Where `canvas!` puts a canvas in its window. -/
def Laid (w : Window) (c : Content) : Prop :=
  1 ≤ c.canvas.scale ∧ (w.frame = true → (c.ox = border ∧ c.oy = border + tabH + border) ∧
    w.w = 2 * border + c.canvas.scale * c.canvas.w ∧
      w.h = border + tabH + border + c.canvas.scale * c.canvas.h + border)

/-- A window without a frame is as large as the screen. -/
def Window.Covers (w : Window) (s : State) : Prop := w.frame = false → w.rect = ⟨0, 0, s.width, s.height⟩

/-- Between two states of the window manager windows come and go; those that come are laid out on the screen. -/
structure Grown (s : State) (content : Nat → Option Content) (s' : State) (content' : Nat → Option Content) : Prop where
  pointer : s'.pointer = s.pointer
  drag : s'.drag = s.drag
  width : s'.width = s.width
  height : s'.height = s.height
  next : s.next ≤ s'.next
  content : ∀ i, i < s.next → content' i = content i
  windows : ∀ w ∈ s'.windows, w ∈ s.windows ∨
    (s.next ≤ w.id ∧ w.id < s'.next) ∧ w.Covers s ∧ ∀ c, content' w.id = some c → Laid w c

theorem surface_size {granted : Bool} {w h : Int} {i : Option Int} {g g' : Gfx.State}
    (heq : surface granted w h g = (i, g')) : g'.canvas.w = g.canvas.w ∧ g'.canvas.h = g.canvas.h := by
  have hzero : some (g'.canvas.w, g'.canvas.h) = some (g.canvas.w, g.canvas.h) :=
    target_surface heq 0 (Option.some_ne_none (g.canvas.w, g.canvas.h))
  rw [Option.some.injEq, Prod.mk.injEq] at hzero
  exact hzero

theorem Window.Covers.of_size (h : w.Covers s) (hwidth : s'.width = s.width) (hheight : s'.height = s.height) :
    w.Covers s' := by
  intro hframe
  rw [hwidth, hheight]
  exact h hframe

section Grown

variable {content content' content'' : Nat → Option Content}

theorem Grown.trans (h : Grown s content s' content') (h' : Grown s' content' s'' content'') :
    Grown s content s'' content'' := by
  refine ⟨h'.pointer.trans h.pointer, h'.drag.trans h.drag, h'.width.trans h.width, h'.height.trans h.height,
    h.next.trans h'.next, fun i hi => ?_, fun w hw => ?_⟩
  · rw [h'.content i (hi.trans_le h.next), h.content i hi]
  · rcases h'.windows w hw with hold | ⟨hid, hcovers, hlaid⟩
    · rcases h.windows w hold with hold | ⟨hid, hcovers, hlaid⟩
      · exact Or.inl hold
      · refine Or.inr ⟨⟨hid.1, hid.2.trans_le h'.next⟩, hcovers, fun c hc => hlaid c ?_⟩
        rw [← h'.content w.id hid.2]
        exact hc
    · exact Or.inr ⟨⟨h.next.trans hid.1, hid.2⟩, hcovers.of_size h.width.symm h.height.symm, hlaid⟩

theorem Grown.refl (s : State) (content : Nat → Option Content) : Grown s content s content :=
  ⟨rfl, rfl, rfl, rfl, Nat.le_refl _, fun _ _ => rfl, fun _ hw => Or.inl hw⟩

/-- `restack!` and the other calls of `beer.gfx` draw. -/
theorem grown_gfx (s : State) (content : Nat → Option Content) {g : Gfx.State} (hw : g.canvas.w = s.gfx.canvas.w)
    (hh : g.canvas.h = s.gfx.canvas.h) : Grown s content { s with gfx := g } content :=
  ⟨rfl, rfl, congrArg Nat.cast hw, congrArg Nat.cast hh, Nat.le_refl _, fun _ _ => rfl, fun _ hw => Or.inl hw⟩

theorem size_of_target {g g' : Gfx.State} (h : ∀ i, g'.canvas.target i = g.canvas.target i) :
    g'.canvas.w = g.canvas.w ∧ g'.canvas.h = g.canvas.h := by
  have hzero : some (g'.canvas.w, g'.canvas.h) = some (g.canvas.w, g.canvas.h) := h 0
  rw [Option.some.injEq, Prod.mk.injEq] at hzero
  exact hzero

theorem grown_restack (s : State) (content : Nat → Option Content) : Grown s content (restack s) content :=
  have hsize := size_of_target (target_restack s)
  grown_gfx s content hsize.1 hsize.2

theorem grown_focus (font : Font) (id : Nat) (s : State) (content : Nat → Option Content) :
    Grown s content (focus font id s) content := by
  have hsize := size_of_target (target_focus font id s)
  refine ⟨?_, ?_, congrArg Nat.cast hsize.1, congrArg Nat.cast hsize.2, Nat.le_of_eq (next_focus font id s).symm,
    fun _ _ => rfl, fun w hw => Or.inl (mem_focus hw)⟩
  · unfold focus
    cases s.window id <;> rfl
  · unfold focus
    cases s.window id <;> rfl

theorem surfaceFree_size (k : Gfx.Canvas) (i : Int) : (k.surfaceFree i).w = k.w ∧ (k.surfaceFree i).h = k.h := by
  unfold Gfx.Canvas.surfaceFree
  split_ifs
  · exact ⟨rfl, rfl⟩
  · exact ⟨rfl, rfl⟩

theorem grown_close (font : Font) (id : Nat) (s : State) (content : Nat → Option Content) :
    Grown s content (close font id s) content := by
  unfold close
  cases hw : s.window id with
  | none => exact Grown.refl s content
  | some w =>
      dsimp only
      have hfree := surfaceFree_size s.gfx.canvas w.surf
      have hwithout (focus : Option Nat) : Grown s content { s with
          windows := s.windows.filter fun x => x.id ≠ id
          focus := focus
          gfx := Gfx.gfxSurfaceFree w.surf s.gfx } content :=
        ⟨rfl, rfl, congrArg Nat.cast hfree.1, congrArg Nat.cast hfree.2, Nat.le_refl _, fun _ _ => rfl,
          fun _ hx => Or.inl (List.mem_of_mem_filter hx)⟩
      split
      · exact (hwithout _).trans (grown_focus ..)
      · exact (hwithout _).trans (grown_restack ..)

/-- A new window on top. -/
theorem grown_newWindow (font : Font) (s : State) (win : Window) {g : Gfx.State} (hid : win.id = s.next)
    (hw : g.canvas.w = s.gfx.canvas.w) (hh : g.canvas.h = s.gfx.canvas.h)
    (hcontent : ∀ i, i < s.next → content' i = content i) (hcovers : win.Covers s)
    (hlaid : ∀ c, content' s.next = some c → Laid win c) :
    Grown s content (focus font s.next { s with next := s.next + 1, windows := s.windows ++ [win], gfx := g })
      content' := by
  have hadded : Grown s content { s with next := s.next + 1, windows := s.windows ++ [win], gfx := g } content' := by
    refine ⟨rfl, rfl, congrArg Nat.cast hw, congrArg Nat.cast hh, Nat.le_succ _, hcontent, fun w hw => ?_⟩
    rcases List.mem_append.mp hw with hw | hw
    · exact Or.inl hw
    · rw [List.mem_singleton.mp hw, hid]
      exact Or.inr ⟨⟨Nat.le_refl _, Nat.lt_succ_self _⟩, hcovers, hlaid⟩
  exact hadded.trans (grown_focus ..)

theorem grown_openWindow (font : Font) (o : OpenOpts) (granted : Bool) (s : State) (content : Nat → Option Content)
    (hnone : content s.next = none) : Grown s content (openWindow font o granted s).2 content := by
  unfold openWindow
  dsimp only
  generalize 2 * border + o.cols * (o.scale * fontSize) = w
  generalize border + tabH + border + o.rows * (o.scale * fontSize) + border = h'
  rcases hnew : surface granted w h' s.gfx with ⟨surf, g⟩
  obtain ⟨hw, hh⟩ := surface_size hnew
  cases surf with
  | none => exact grown_gfx s content hw hh
  | some i =>
      refine grown_newWindow font s ⟨s.next, i, _, _, w, h', _, true⟩ rfl hw hh (fun _ _ => rfl)
        (fun hframe => absurd hframe.symm Bool.false_ne_true) fun c hc => ?_
      rw [hnone] at hc
      exact absurd hc.symm (Option.some_ne_none c)

/-- A canvas has a scale of 1 or more. -/
def Op.Scaled : Op → Prop
  | .canvas o _ _ => o.fullscreen = true ∨ 1 ≤ o.scale
  | _ => True

theorem grown_canvas (font : Font) (o : CanvasOpts) (granted granted' : Bool)
    (hscaled : o.fullscreen = true ∨ 1 ≤ o.scale) (d : Desktop) :
    Grown d.sys.wm d.content (d.step font (.canvas o granted granted')).sys.wm
      (d.step font (.canvas o granted granted')).content := by
  have hscale : 1 ≤ (canvasLayout o d.sys.wm).2 := by
    unfold canvasLayout
    split_ifs with hfull
    · exact Int.le_max_left ..
    · exact hscaled.resolve_left hfull
  simp only [Desktop.step, System.step]
  unfold openCanvas
  by_cases hzero : o.fullscreen ∧ (o.w = 0 ∨ o.h = 0)
  · rw [if_pos hzero]
    exact Grown.refl ..
  rw [if_neg hzero]
  rcases hlayout : canvasLayout o d.sys.wm with ⟨r, scale⟩
  rw [hlayout] at hscale
  dsimp only
  rcases hws : surface granted r.w r.h d.sys.wm.gfx with ⟨ws, g⟩
  dsimp only
  rcases hus : surface granted' o.w o.h g with ⟨us, g'⟩
  dsimp only
  have hw := (surface_size hus).1.trans (surface_size hws).1
  have hh := (surface_size hus).2.trans (surface_size hws).2
  cases ws with
  | none => exact grown_gfx _ _ hw hh
  | some ws =>
      cases us with
      | none => exact grown_gfx _ _ hw hh
      | some us =>
          refine grown_newWindow font d.sys.wm ⟨d.sys.wm.next, ws, r.x, r.y, r.w, r.h, _, !o.fullscreen⟩ rfl hw hh
            (fun i hi => Function.update_of_ne (Nat.ne_of_lt hi) ..) (fun hframe => ?_) fun c hnew => ?_
          · have hfull : o.fullscreen = true := by simpa using hframe
            unfold canvasLayout at hlayout
            rw [if_pos hfull, Prod.mk.injEq] at hlayout
            rw [← hlayout.1]
            rfl
          · have hc : Function.update d.content d.sys.wm.next (some ⟨⟨d.sys.wm.next, us, o.w, o.h, scale⟩,
                (contentOffset o d.sys.wm).1, (contentOffset o d.sys.wm).2⟩) d.sys.wm.next = some c := hnew
            rw [Function.update_self, Option.some.injEq] at hc
            refine ⟨?_, fun hframe => ?_⟩
            · rw [← hc]
              exact hscale
            have hfull : ¬o.fullscreen = true := by simpa using hframe
            unfold canvasLayout at hlayout
            unfold contentOffset at hc
            rw [if_neg hfull, Prod.mk.injEq] at hlayout
            rw [if_neg hfull] at hc
            rw [← hc, ← hlayout.1, ← hlayout.2]
            exact ⟨⟨rfl, rfl⟩, rfl, rfl⟩

/-- A call other than `drag-to!`. -/
theorem Desktop.Good.grown (h : d.Good) (font : Font) (op : Op) (hop : ∀ p drag, op ≠ .dragTo p drag)
    (hscaled : op.Scaled) :
    Grown d.sys.wm d.content (d.step font op).sys.wm (d.step font op).content := by
  have hnone : d.content d.sys.wm.next = none := by
    by_contra hsome
    exact Nat.lt_irrefl _ (h.placed.ids _ hsome)
  cases op with
  | openWindow o granted => exact grown_openWindow font o granted d.sys.wm d.content hnone
  | canvas o granted granted' => exact grown_canvas font o granted granted' hscaled d
  | close id => exact grown_close ..
  | closeFocused =>
      show Grown _ _ (closeFocused font d.sys.wm) d.content
      unfold closeFocused
      cases d.sys.wm.focused with
      | none => exact Grown.refl ..
      | some w => exact grown_close ..
  | closeCanvas k =>
      show Grown _ _ (d.sys.step font (.closeCanvas k)).wm d.content
      simp only [System.step]
      cases d.sys.canvases[k]? with
      | none => exact Grown.refl ..
      | some c =>
          dsimp only
          unfold Wm.closeCanvas
          dsimp only
          have hfree (s : State) : Grown s d.content { s with gfx := Gfx.gfxSurfaceFree c.surface s.gfx } d.content :=
            have hsize := surfaceFree_size s.gfx.canvas c.surface
            grown_gfx s d.content hsize.1 hsize.2
          split_ifs
          · exact (grown_close ..).trans (hfree _)
          · exact hfree _
  | focus id => exact grown_focus ..
  | nextWindow =>
      show Grown _ _ (nextWindow font d.sys.wm) d.content
      unfold nextWindow
      split
      · exact grown_focus ..
      · exact Grown.refl ..
  | dragTo p drag => exact absurd rfl (hop p drag)

end Grown

/-! ### The invariant -/

def State.OnScreen (s : State) (p : Pos) : Prop := (0 ≤ p.1 ∧ p.1 < s.width) ∧ 0 ≤ p.2 ∧ p.2 < s.height

/-- What every run keeps, with the ids of the windows with `:help?`. -/
structure Sound (d : Desktop) (help : List Nat) : Prop where
  good : d.Good
  pointer : d.sys.wm.OnScreen d.sys.wm.pointer
  covers : ∀ w ∈ d.sys.wm.windows, w.Covers d.sys.wm
  laid : ∀ w ∈ d.sys.wm.windows, ∀ c, d.content w.id = some c → Laid w c
  drag : ∀ id o, d.sys.wm.drag = some (id, o) →
    id < d.sys.wm.next ∧ ∀ w ∈ d.sys.wm.windows, w.id = id → w.frame = true
  helpId : ∀ id ∈ help, id < d.sys.wm.next
  help : ∀ w ∈ d.sys.wm.windows, ∀ w' ∈ d.sys.wm.windows, w.id ∈ help → w'.id ∈ help → w = w'

section Sound

variable {help : List Nat} {held : Int → Prop} {d' : Desktop}

theorem Sound.grown (h : Sound d help) (hgood : d'.Good) (hgrown : Grown d.sys.wm d.content d'.sys.wm d'.content) :
    Sound d' help := by
  have hold {w : Window} (hw : w ∈ d'.sys.wm.windows) (hid : w.id < d.sys.wm.next) : w ∈ d.sys.wm.windows := by
    rcases hgrown.windows w hw with hold | ⟨hnew, -⟩
    · exact hold
    · exact absurd (hnew.1.trans_lt hid) (Nat.lt_irrefl _)
  refine ⟨hgood, ?_, fun w hw => ?_, fun w hw c hc => ?_, fun id o hdrag => ?_,
    fun id hid => (h.helpId id hid).trans_le hgrown.next, fun w hw w' hw' hhelp hhelp' => ?_⟩
  · unfold State.OnScreen
    rw [hgrown.pointer, hgrown.width, hgrown.height]
    exact h.pointer
  · apply Window.Covers.of_size (s := d.sys.wm) _ hgrown.width hgrown.height
    rcases hgrown.windows w hw with hold | ⟨-, hcovers, -⟩
    · exact h.covers w hold
    · exact hcovers
  · rcases hgrown.windows w hw with hold | ⟨-, -, hlaid⟩
    · rw [hgrown.content w.id (h.good.inv.good.id_lt w hold)] at hc
      exact h.laid w hold c hc
    · exact hlaid c hc
  · rw [hgrown.drag] at hdrag
    obtain ⟨hid, hframe⟩ := h.drag id o hdrag
    refine ⟨hid.trans_le hgrown.next, fun w hw hwid => hframe w (hold hw ?_) hwid⟩
    rw [hwid]
    exact hid
  · exact h.help w (hold hw (h.helpId _ hhelp)) w' (hold hw' (h.helpId _ hhelp')) hhelp hhelp'

theorem Sound.step (h : Sound d help) (honce : ClosedOnce d.sys op) (hop : ∀ p drag, op ≠ .dragTo p drag)
    (hscaled : op.Scaled) : Sound (d.step font op) help :=
  h.grown (h.good.step honce) (h.good.grown font op hop hscaled)

theorem Good.sameMap (h : Good s held) {g : Gfx.State} (hg : SameMap s.gfx.canvas g.canvas) :
    Good { s with gfx := g } held := by
  refine ⟨h.toBase.sameMap hg, h.focus, fun own hown p hp => h.agree own (hg.owner.symm.trans hown) p ?_⟩
  unfold Gfx.onScreen at hp ⊢
  rw [hg.w, hg.h] at hp
  exact hp

theorem sameMap_cursor (x y : Int) (shown : Bool) (g : Gfx.State) :
    SameMap g.canvas (Gfx.gfxCursor x y shown g).canvas := by
  unfold Gfx.gfxCursor
  dsimp only
  have hrestore : SameMap g.canvas (if g.curShown then Gfx.cursorRestore g else g).canvas := by
    split_ifs
    · exact Gfx.sameMap_cursorRestore g
    · exact .refl _
  cases shown with
  | false => exact hrestore
  | true =>
      rw [if_pos rfl]
      refine hrestore.trans ?_
      exact Gfx.sameMap_cursorDraw
        { (if g.curShown then Gfx.cursorRestore g else g) with curX := x, curY := y, curShown := true }

/-- The state with another pointer, another drag and more drawn. -/
theorem Desktop.Good.redrawn (h : d.Good) {g : Gfx.State} (hg : SameMap d.sys.wm.gfx.canvas g.canvas) (p : Pos)
    (drag : Option (Nat × Int × Int)) :
    ({ d with sys := { d.sys with wm := { d.sys.wm with pointer := p, drag := drag, gfx := g } } } : Desktop).Good := by
  have hplaced := h.placed.grow fun i _ => hg.target i
  have hinv := h.inv.good.sameMap hg
  exact ⟨⟨{ hinv with }, h.inv.distinct⟩, h.closed, { hplaced with }⟩

theorem clamp_mem {n : Int} (hn : 0 < n) (x : Int) : 0 ≤ max 0 (min x (n - 1)) ∧ max 0 (min x (n - 1)) < n := by
  omega

namespace Manager

theorem sound_pointer (h : Sound m.desktop help) (x y : Int) : Sound (m.pointer x y).desktop help := by
  have hsame := sameMap_cursor (clamped m.wm x y).1 (clamped m.wm x y).2 true m.wm.gfx
  unfold Manager.pointer
  dsimp only
  generalize Gfx.gfxCursor _ _ true m.wm.gfx = g at hsame
  have hwidth : (g.canvas.w : Int) = m.wm.width := congrArg Nat.cast hsame.w
  have hheight : (g.canvas.h : Int) = m.wm.height := congrArg Nat.cast hsame.h
  obtain ⟨⟨hx, hxw⟩, hy, hyh⟩ := h.pointer
  refine ⟨h.good.redrawn hsame _ m.wm.drag, ⟨?_, ?_⟩, fun w hw => (h.covers w hw).of_size hwidth hheight, h.laid,
    h.drag, h.helpId, h.help⟩
  · show 0 ≤ (clamped m.wm x y).1 ∧ (clamped m.wm x y).1 < (g.canvas.w : Int)
    rw [hwidth]
    exact clamp_mem (hx.trans_lt hxw) x
  · show 0 ≤ (clamped m.wm x y).2 ∧ (clamped m.wm x y).2 < (g.canvas.h : Int)
    rw [hheight]
    exact clamp_mem (hy.trans_lt hyh) y

theorem sound_setDrag (h : Sound m.desktop help) {drag : Option (Nat × Int × Int)}
    (hdrag : ∀ id o, drag = some (id, o) → id < m.wm.next ∧ ∀ w ∈ m.wm.windows, w.id = id → w.frame = true) :
    Sound (m.setDrag drag).desktop help :=
  ⟨h.good.redrawn (.refl _) m.wm.pointer drag, h.pointer, h.covers, h.laid, hdrag, h.helpId, h.help⟩

/-- What `drag-to!` does with the windows. -/
theorem mem_dragTo (hw : w ∈ (Wm.dragTo s).windows) : (w ∈ s.windows ∧ ∀ o, s.drag ≠ some (w.id, o)) ∨
    ∃ w' ∈ s.windows, ∃ o, s.drag = some (w'.id, o) ∧
      w = { w' with x := s.pointer.1 - o.1, y := s.pointer.2 - o.2 } := by
  unfold Wm.dragTo at hw
  cases hdrag : s.drag with
  | none =>
      rw [hdrag] at hw
      exact Or.inl ⟨hw, fun o => (Option.some_ne_none (w.id, o)).symm⟩
  | some drag =>
      obtain ⟨id, o⟩ := drag
      rw [hdrag] at hw
      obtain ⟨w', hw', rfl⟩ := List.mem_map.mp hw
      split_ifs with hid
      · refine Or.inr ⟨w', hw', o, ?_, rfl⟩
        rw [hid]
      · refine Or.inl ⟨hw', fun o' heq => hid ?_⟩
        rw [Option.some.injEq, Prod.mk.injEq] at heq
        exact heq.1.symm

theorem dragTo_rest (s : State) : (Wm.dragTo s).pointer = s.pointer ∧ (Wm.dragTo s).drag = s.drag ∧
    (Wm.dragTo s).width = s.width ∧ (Wm.dragTo s).height = s.height ∧ (Wm.dragTo s).next = s.next := by
  unfold Wm.dragTo
  cases hdrag : s.drag with
  | none => exact ⟨rfl, hdrag, rfl, rfl, rfl⟩
  | some drag =>
      obtain ⟨id, ox, oy⟩ := drag
      have hsize := size_of_target (target_restack (move id (s.pointer.1 - ox) (s.pointer.2 - oy) s))
      exact ⟨rfl, hdrag, congrArg Nat.cast hsize.1, congrArg Nat.cast hsize.2, rfl⟩

theorem sound_dragTo (h : Sound m.desktop help) : Sound m.dragTo.desktop help := by
  obtain ⟨hpointer, hdrag, hwidth, hheight, hnext⟩ := dragTo_rest m.wm
  have hmem {w : Window} (hw : w ∈ m.dragTo.wm.windows) : ∃ w' ∈ m.wm.windows, w.id = w'.id ∧ w.frame = w'.frame ∧
      w.w = w'.w ∧ w.h = w'.h ∧ (w = w' ∨ w.frame = true) := by
    rcases mem_dragTo hw with ⟨hold, -⟩ | ⟨w', hw', o, ho, rfl⟩
    · exact ⟨w, hold, rfl, rfl, rfl, rfl, Or.inl rfl⟩
    · exact ⟨w', hw', rfl, rfl, rfl, rfl, Or.inr ((h.drag _ o ho).2 w' hw' rfl)⟩
  have hgood : (m.desktop.step (fun _ _ => 0) (.dragTo m.wm.pointer m.wm.drag)).Good := h.good.step trivial
  refine ⟨hgood, ?_, fun w hw => ?_, fun w hw c hc => ?_, fun id o ho => ?_, fun id hid => ?_,
    fun w hw w' hw' hhelp hhelp' => ?_⟩
  · show State.OnScreen (Wm.dragTo m.wm) (Wm.dragTo m.wm).pointer
    unfold State.OnScreen
    rw [hpointer, hwidth, hheight]
    exact h.pointer
  · apply Window.Covers.of_size (s := m.wm) _ hwidth hheight
    obtain ⟨w', hw', -, -, -, -, rfl | hframe⟩ := hmem hw
    · exact h.covers w hw'
    · exact fun hno => absurd (hframe.symm.trans hno) Bool.false_ne_true.symm
  · obtain ⟨w', hw', hid, hframe, hww, hwh, -⟩ := hmem hw
    rw [hid] at hc
    unfold Laid
    rw [hframe, hww, hwh]
    exact h.laid w' hw' c hc
  · obtain ⟨hid, hframed⟩ := h.drag id o (hdrag.symm.trans ho)
    refine ⟨hid.trans_eq hnext.symm, fun w hw hwid => ?_⟩
    obtain ⟨w', hw', hid', hframe, -⟩ := hmem hw
    rw [hframe]
    exact hframed w' hw' (hid'.symm.trans hwid)
  · exact (h.helpId id hid).trans_eq hnext.symm
  · obtain ⟨x, hx, hid, -⟩ := hmem hw
    obtain ⟨x', hx', hid', -⟩ := hmem hw'
    rw [hid] at hhelp
    rw [hid'] at hhelp'
    have heq := congrArg Window.id (h.help x hx x' hx' hhelp hhelp')
    exact List.inj_on_of_nodup_map hgood.inv.good.ids hw hw' (hid.trans (heq.trans hid'.symm))

theorem offer_rest (i : Nat) (t : Sent) (m : Manager) :
    (m.offer i t).desktop = m.desktop ∧ (m.offer i t).taken = m.taken ∧ (m.offer i t).help = m.help ∧
      (m.offer i t).ended = m.ended := by
  unfold offer
  split_ifs
  · exact ⟨rfl, rfl, rfl, rfl⟩
  · exact ⟨rfl, rfl, rfl, rfl⟩

theorem call_rest (font : Font) (op : Op) (m : Manager) : (m.call font op).desktop = m.desktop.step font op ∧
    (m.call font op).taken = m.taken ∧ (m.call font op).help = m.help ∧ (m.call font op).ended = m.ended := by
  unfold call
  dsimp only
  split
  · split_ifs
    · exact ⟨rfl, (offer_rest ..).2.1, (offer_rest ..).2.2.1, (offer_rest ..).2.2.2⟩
    · exact ⟨rfl, rfl, rfl, rfl⟩
  · exact ⟨rfl, rfl, rfl, rfl⟩

theorem sound_openWindow (h : Sound m.desktop m.help) (o : OpenOpts) (granted : Bool) :
    Sound (m.openWindow font o granted).desktop (m.openWindow font o granted).help := by
  have hcall : Sound (m.call font (.openWindow o granted)).desktop (m.call font (.openWindow o granted)).help := by
    rw [(call_rest font _ m).1, (call_rest font _ m).2.2.1]
    exact h.step trivial (fun p drag heq => by cases heq) trivial
  unfold openWindow
  split
  · exact hcall
  · exact hcall

theorem sound_call (h : Sound m.desktop m.help) (hop : ∀ p drag, op ≠ .dragTo p drag)
    (honce : ClosedOnce m.desktop.sys op) (hscaled : op.Scaled) :
    Sound (m.call font op).desktop (m.call font op).help := by
  rw [(call_rest font op m).1, (call_rest font op m).2.2.1]
  exact h.step honce hop hscaled

theorem offer_sound (h : Sound m.desktop m.help) (i : Nat) (t : Sent) :
    Sound (m.offer i t).desktop (m.offer i t).help := by
  rw [(offer_rest i t m).1, (offer_rest i t m).2.2.1]
  exact h

theorem sound_canvasEvent (h : Sound m.desktop m.help) (w : Window) (ev : Int → Int → Sent) :
    Sound (m.canvasEvent w ev).desktop (m.canvasEvent w ev).help := by
  unfold canvasEvent
  split
  · exact offer_sound h ..
  · exact h

theorem sound_pointerMoved (h : Sound m.desktop m.help) : Sound m.pointerMoved.desktop m.pointerMoved.help := by
  unfold pointerMoved
  split
  · split_ifs
    · exact sound_canvasEvent h ..
    · exact h
  · exact h

theorem sound_onPress (h : Sound m.desktop m.help) (granted : Bool) :
    Sound (m.onPress font granted).desktop (m.onPress font granted).help := by
  have hfocus (id : Nat) : Sound (m.call font (.focus id)).desktop (m.call font (.focus id)).help :=
    sound_call h (fun p drag heq => by cases heq) trivial trivial
  unfold onPress
  dsimp only
  cases hat : m.wm.windowAt m.wm.pointer.1 m.wm.pointer.2 with
  | none => exact sound_openWindow h ..
  | some w =>
      obtain ⟨hw, -⟩ := mem_of_windowAt hat
      dsimp only
      split_ifs with hbox htab
      · exact sound_call h (fun p drag heq => by cases heq) trivial trivial
      · refine sound_setDrag (hfocus w.id) fun id o hdrag => ?_
        rw [Option.some.injEq, Prod.mk.injEq] at hdrag
        obtain ⟨rfl, -⟩ := hdrag
        unfold wm
        rw [(call_rest font _ m).1]
        refine ⟨(h.good.inv.good.id_lt w hw).trans_eq (next_focus ..).symm, fun w' hw' hid => ?_⟩
        rw [List.inj_on_of_nodup_map h.good.inv.good.ids (mem_focus hw') hw hid]
        exact htab.1
      · exact hfocus w.id
      · exact sound_canvasEvent h ..
      · exact h

/-- The window that `open!` opens. -/
theorem openWindow_ok {o : OpenOpts} {granted : Bool} {n : Nat} (hok : (Wm.openWindow font o granted s).1 = .ok n) :
    s.next < (Wm.openWindow font o granted s).2.next := by
  unfold Wm.openWindow at hok ⊢
  dsimp only at hok ⊢
  split at hok
  · cases hok
  · rw [next_focus]
    exact Nat.lt_succ_self s.next

theorem sound_raiseHelp (h : Sound m.desktop m.help) (granted : Bool) :
    Sound (m.raiseHelp font granted).desktop (m.raiseHelp font granted).help := by
  unfold raiseHelp
  split
  · exact sound_call h (fun p drag heq => by cases heq) trivial trivial
  · rename_i hnone
    dsimp only
    generalize OpenOpts.mk m.opts.scale 72 30 (some 400) (some 60) (some "help") = o
    have hopened : Sound (m.openWindow font o granted).desktop (m.openWindow font o granted).help :=
      sound_openWindow h o granted
    split_ifs with hended
    · exact hopened
    · -- no window is the help window, and the new one has an id of its own
      have hgrown := h.good.grown font (.openWindow o granted) (fun p drag heq => by cases heq) trivial
      have hdesktop : (m.openWindow font o granted).desktop = m.desktop.step font (.openWindow o granted) ∧
          (m.openWindow font o granted).help = m.help ∧
            m.wm.next < (m.openWindow font o granted).wm.next := by
        unfold openWindow at hended ⊢
        split at hended
        · rename_i n hok
          unfold wm
          rw [(call_rest font _ m).1]
          exact ⟨rfl, (call_rest font _ m).2.2.1, openWindow_ok hok⟩
        · exact absurd rfl hended
      obtain ⟨hstep, hhelp, hnext⟩ := hdesktop
      rw [hhelp] at hopened
      have hnew : ∀ w ∈ (m.openWindow font o granted).wm.windows, w.id ∈ m.wm.next :: m.help → w.id = m.wm.next := by
        intro w hw hmem
        rcases List.mem_cons.mp hmem with hid | hold
        · exact hid
        · have hmem' : w ∈ m.wm.windows := by
            unfold wm at hw
            rw [hstep] at hw
            rcases hgrown.windows w hw with hw | ⟨hid, -⟩
            · exact hw
            · exact absurd (hid.1.trans_lt (h.helpId _ hold)) (Nat.lt_irrefl _)
          have hno := List.find?_eq_none.mp hnone w hmem'
          rw [decide_eq_true hold] at hno
          exact absurd rfl hno
      refine ⟨hopened.good, hopened.pointer, hopened.covers, hopened.laid, hopened.drag, ?_,
        fun w hw w' hw' hid hid' => ?_⟩
      · intro id hid
        rcases List.mem_cons.mp hid with rfl | hold
        · exact hnext
        · exact hopened.helpId id hold
      · exact List.inj_on_of_nodup_map hopened.good.inv.good.ids hw hw' ((hnew w hw hid).trans (hnew w' hw' hid').symm)

theorem sound_handle (h : Sound m.desktop m.help) (ev : Event) (granted : Bool) :
    Sound (m.handle font scaled ev granted).desktop (m.handle font scaled ev granted).help := by
  unfold handle
  cases ev with
  | key dev k code down repeated mods =>
      dsimp only
      split
      · rename_i wk _
        cases wk with
        | help => exact sound_raiseHelp h granted
        | enter => exact sound_openWindow h ..
        | tab => exact sound_call h (fun p drag heq => by cases heq) trivial trivial
        | w => exact sound_call h (fun p drag heq => by cases heq) trivial trivial
      · split
        · exact offer_sound h ..
        · exact h
  | motion dev dx dy => exact sound_pointerMoved (sound_pointer h ..)
  | abs dev x y mx my => exact sound_pointerMoved (sound_pointer h ..)
  | button dev b down =>
      dsimp only
      split_ifs
      · exact sound_onPress h granted
      · exact sound_setDrag (sound_dragTo h) fun id o hdrag => absurd hdrag.symm (Option.some_ne_none (id, o))
      · split
        · split_ifs
          · exact sound_canvasEvent h ..
          · exact h
        · exact h
  | wheel dev delta =>
      dsimp only
      split
      · split_ifs
        · exact sound_canvasEvent h ..
        · exact h
      · exact h

/-! ### Runs -/

end Manager

/-- What callers of `beer.wm` keep to: each canvas is closed once, and none has a scale below 1. -/
def Act.Careful (m : Manager) : Act → Prop
  | .call op => ClosedOnce m.desktop.sys op ∧ op.Scaled
  | _ => True

namespace Manager

def AllCareful (font : Font) (scaled : Nat → Nat → Int → Int) : Manager → List Act → Prop
  | _, [] => True
  | m, a :: acts => a.Careful m ∧ AllCareful font scaled (m.step font scaled a) acts

theorem step_call (font : Font) (scaled : Nat → Nat → Int → Int) (op : Op) (m : Manager) :
    m.step font scaled (.call op) = m ∨
      (∀ p drag, op ≠ .dragTo p drag) ∧ m.step font scaled (.call op) = m.call font op := by
  cases op with
  | dragTo p drag => exact Or.inl rfl
  | _ =>
      refine Or.inr ⟨?_, rfl⟩
      intro p drag heq
      cases heq

theorem sound_step (h : Sound m.desktop m.help) (a : Act) (ha : a.Careful m) :
    Sound (m.step font scaled a).desktop (m.step font scaled a).help := by
  cases a with
  | handle ev granted =>
      unfold step
      dsimp only
      split_ifs
      · exact h
      · exact sound_handle h ev granted
  | repaint =>
      unfold step
      dsimp only
      split_ifs
      · exact h
      · exact sound_dragTo h
  | call op =>
      rcases step_call font scaled op m with hsame | ⟨hop, hcall⟩
      · rw [hsame]
        exact h
      · rw [hcall]
        exact sound_call h hop ha.1 ha.2
  | take id => exact h

theorem run_cons (m : Manager) (a : Act) (acts : List Act) :
    m.run font scaled (a :: acts) = (m.step font scaled a).run font scaled acts := rfl

theorem sound_run (h : Sound m.desktop m.help) (acts : List Act) (hcareful : AllCareful font scaled m acts) :
    Sound (m.run font scaled acts).desktop (m.run font scaled acts).help := by
  induction acts generalizing m with
  | nil => exact h
  | cons a acts ih => exact ih (sound_step h a hcareful.1) hcareful.2

end Manager

/-- `beer.wm` loaded: the pointer is at the corner of the screen, and nothing is dragged. -/
structure Desktop.Fresh (d : Desktop) : Prop where
  booted : d.Booted
  pointer : d.sys.wm.pointer = (0, 0)
  drag : d.sys.wm.drag = none
  size : 0 < d.sys.wm.width ∧ 0 < d.sys.wm.height

theorem Desktop.Fresh.sound (h : d.Fresh) : Sound d [] := by
  have hno {w : Window} (hw : w ∈ d.sys.wm.windows) : False := by
    rw [h.booted.sys.windows] at hw
    cases hw
  refine ⟨h.booted.good, ?_, fun w hw => (hno hw).elim, fun w hw => (hno hw).elim, fun id o hdrag => ?_,
    List.forall_mem_nil _, fun w hw => (hno hw).elim⟩
  · rw [h.pointer]
    exact ⟨⟨Int.le_refl 0, h.size.1⟩, Int.le_refl 0, h.size.2⟩
  · rw [h.drag] at hdrag
    exact absurd hdrag.symm (Option.some_ne_none (id, o))

theorem Desktop.Good.restacked (h : d.Good) :
    ({ d with sys := { d.sys with wm := restack d.sys.wm } } : Desktop).Good := by
  refine ⟨⟨restack_good h.inv.good.toBase h.inv.good.focus, h.inv.distinct⟩, h.closed, ?_⟩
  exact h.placed.mono (fun w hw => ⟨w, hw, rfl, rfl, rfl, rfl⟩) (Nat.le_refl _) (fun _ _ => target_restack ..)
    (fun _ hc => ⟨hc, target_restack ..⟩) fun _ _ _ _ hc => hc

theorem sound_start (h : d.Fresh) (opts : OpenOpts) (granted : Bool) :
    Sound (start font opts granted d).desktop (start font opts granted d).help := by
  have hsound := h.sound
  have hrestacked : Sound { d with sys := { d.sys with wm := restack d.sys.wm } } [] :=
    hsound.grown hsound.good.restacked (grown_restack d.sys.wm d.content)
  unfold start
  exact Manager.sound_openWindow (Manager.sound_pointer (m := Manager.withWm (restack d.sys.wm)
    ⟨d, opts, [], fun _ => [], fun _ => [], false⟩) hrestacked ..) ..

end Sound

/-- A screen of twenty pixels. -/
def wideScreen : Desktop :=
  ⟨⟨⟨[], none, (0, 0), none, 1, { Gfx.onePixel with canvas := { Gfx.onePixel.canvas with w := 20 } }⟩, [], []⟩,
    fun _ => none⟩

theorem fresh_wideScreen : wideScreen.Fresh :=
  ⟨⟨⟨rfl, rfl, rfl, rfl, rfl⟩, fun _ => rfl⟩, rfl, rfl, by decide, by decide⟩

/-- The options of windows without contents. -/
def tiny : OpenOpts := { cols := 0, rows := 0 }

def keyA : Event := .key [] (named "a") none true false (some noMods)

/-- The pointer moves, and `a` is pressed. -/
def dragActs : List Act :=
  [.handle (.motion [] (-5) 3) true, .handle keyA true, .repaint]

end Beeros.Wm
