import Beeros.Wm
import Mathlib.Data.List.Perm.Basic

/-! Window stacking, focus and the owner map of `beer.wm` over whole runs. The invariant is `Good`; every
operation ends in `restack`, which makes the owner map that of the windows. -/

namespace Beeros.Wm

open Gfx (Pos Rect SameMap onScreen gfxOwn gfxSurfaces)

/-! ### The window under a pixel -/

/-- The surface of the last window that contains `p`, else `d`. -/
def surfOr (ws : List Window) (d : Int) (p : Pos) : Int :=
  ws.foldl (fun v w => if w.rect.Mem p then w.surf else v) d

theorem getLast?_filter_map {α β : Type} (l : List α) (q : α → Prop) [DecidablePred q] (f : α → β) (d : β) :
    ((l.filter q).getLast?.map f).getD d = l.foldl (fun v a => if q a then f a else v) d := by
  induction l generalizing d with
  | nil => rfl
  | cons a l ih =>
      rw [List.foldl_cons, ← ih, List.filter_cons]
      by_cases ha : q a
      · simp only [ha, decide_true, if_true, List.getLast?_cons, Option.map_some, Option.getD_some]
        cases (l.filter q).getLast? <;> rfl
      · simp [ha]

theorem windowAt_surf (s : State) (x y : Int) :
    ((s.windowAt x y).map Window.surf).getD 0 = surfOr s.windows 0 (x, y) :=
  getLast?_filter_map s.windows (fun w => w.x ≤ x ∧ x < w.x + w.w ∧ w.y ≤ y ∧ y < w.y + w.h) Window.surf 0

/-! ### The invariant -/

/-- A surface that exists, other than the screen. -/
structure InUse (k : Gfx.Canvas) (i : Int) : Prop where
  pos : 1 ≤ i
  lt : i < gfxSurfaces
  exists_ : (k.surfaces i).isSome = true

/-- The windows have ids and surfaces of their own; `held` are the surfaces that canvases draw on. -/
structure Base (s : State) (held : Int → Prop) : Prop where
  owner : s.gfx.canvas.owner.isSome = true
  ids : (s.windows.map Window.id).Nodup
  id_lt : ∀ w ∈ s.windows, w.id < s.next
  surfs : (s.windows.map Window.surf).Nodup
  inUse : ∀ w ∈ s.windows, InUse s.gfx.canvas w.surf
  held : ∀ i, held i → InUse s.gfx.canvas i ∧ ∀ w ∈ s.windows, w.surf ≠ i

structure Good (s : State) (held : Int → Prop) : Prop extends Base s held where
  focus : s.focus = s.windows.getLast?.map Window.id
  agree : ∀ own, s.gfx.canvas.owner = some own → ∀ p, onScreen s.gfx.canvas p → own p = surfOr s.windows 0 p

theorem InUse.sameMap {k k' : Gfx.Canvas} {i : Int} (h : InUse k i) (hk : SameMap k k') : InUse k' i :=
  ⟨h.pos, h.lt, by rw [hk.exists_iff]; exact h.exists_⟩

theorem Base.sameMap {s : State} {held : Int → Prop} (h : Base s held) {g : Gfx.State}
    (hg : SameMap s.gfx.canvas g.canvas) : Base { s with gfx := g } held where
  owner := by
    show g.canvas.owner.isSome = true
    rw [hg.owner]
    exact h.owner
  ids := h.ids
  id_lt := h.id_lt
  surfs := h.surfs
  inUse w hw := (h.inUse w hw).sameMap hg
  held i hi := ⟨(h.held i hi).1.sameMap hg, (h.held i hi).2⟩

/-! ### `restack!` -/

/-- The windows claim their pixels one after the other, each over the ones before it. -/
theorem own_windows (ws : List Window) {g : Gfx.State} {own : Pos → Int} (hown : g.canvas.owner = some own)
    (hws : ∀ w ∈ ws, 0 ≤ w.surf ∧ w.surf < gfxSurfaces) :
    ∃ own', (ws.foldl (fun g w => gfxOwn w.surf w.rect g) g).canvas = { g.canvas with owner := some own' } ∧
      ∀ p, onScreen g.canvas p → own' p = surfOr ws (own p) p := by
  induction ws generalizing g own with
  | nil => exact ⟨own, by rw [← hown]; rfl, fun _ _ => rfl⟩
  | cons w ws ih =>
      obtain ⟨hlo, hhi⟩ := hws w List.mem_cons_self
      obtain ⟨own₁, hcanvas, hpix⟩ := g.canvas.own_owner hown hlo hhi w.rect
      have hown₁ : (gfxOwn w.surf w.rect g).canvas.owner = some own₁ := by
        show (g.canvas.own w.surf w.rect).owner = some own₁
        rw [hcanvas]
      obtain ⟨own', hfold, hpix'⟩ := ih hown₁ fun w' hw' => hws w' (List.mem_cons_of_mem w hw')
      have hstep : (gfxOwn w.surf w.rect g).canvas = { g.canvas with owner := some own₁ } := hcanvas
      refine ⟨own', ?_, ?_⟩
      · rw [List.foldl_cons, hfold, hstep]
      · intro p hp
        rw [hpix' p (by rw [hstep]; exact hp)]
        unfold surfOr
        rw [List.foldl_cons]
        by_cases hmem : w.rect.Mem p
        · rw [if_pos hmem, (hpix p hp).1 hmem]
        · rw [if_neg hmem, (hpix p hp).2 hmem]

theorem sameMap_windows {f : Window → Gfx.State → Gfx.State}
    (h : ∀ w g, SameMap g.canvas (f w g).canvas) (ws : List Window) (g : Gfx.State) :
    SameMap g.canvas (ws.foldl (fun g w => f w g) g).canvas := by
  induction ws generalizing g with
  | nil => exact .refl _
  | cons w ws ih => exact (h w g).trans (ih (f w g))

theorem sameMap_repaint (s : State) (g : Gfx.State) :
    SameMap g.canvas (s.windows.foldl (fun g w => present w g)
      (Gfx.gfxFillOwned 0 ⟨0, 0, s.width, s.height⟩ desktopColor g)).canvas :=
  (Gfx.sameMap_fillOwned ..).trans
    (sameMap_windows (f := present) (fun _ g => Gfx.sameMap_present _ _ _ _ _ _ _ g) s.windows _)

/-- After `restack!` the owner map is that of the windows, and nothing else has changed. -/
theorem restack_canvas {s : State} {held : Int → Prop} (h : Base s held) :
    ∃ k own, SameMap { s.gfx.canvas with owner := some own } k ∧ (restack s).gfx.canvas = k ∧
      ∀ p, onScreen s.gfx.canvas p → own p = surfOr s.windows 0 p := by
  obtain ⟨own, hown⟩ := Option.isSome_iff_exists.mp h.owner
  obtain ⟨own₁, hdesktop, hzero⟩ := s.gfx.canvas.own_owner hown (Int.le_refl 0) (by decide)
    ⟨0, 0, s.width, s.height⟩
  have hcanvas₁ : (gfxOwn 0 ⟨0, 0, s.width, s.height⟩ s.gfx).canvas =
      { s.gfx.canvas with owner := some own₁ } := hdesktop
  have hown₁ : (gfxOwn 0 ⟨0, 0, s.width, s.height⟩ s.gfx).canvas.owner = some own₁ := by rw [hcanvas₁]
  obtain ⟨own₂, hwindows, hpix⟩ := own_windows s.windows hown₁ fun w hw =>
    ⟨Int.le_trans (by decide) (h.inUse w hw).pos, (h.inUse w hw).lt⟩
  have hcanvas₂ := hwindows
  rw [hcanvas₁] at hcanvas₂
  refine ⟨_, own₂, ?_, rfl, ?_⟩
  · rw [← hcanvas₂]
    exact sameMap_repaint s _
  · intro p hp
    rw [hpix p (by rw [hcanvas₁]; exact hp), (hzero p hp).1]
    unfold onScreen at hp
    exact ⟨by simp only; omega, by unfold State.width; simp only; omega, by simp only; omega,
      by unfold State.height; simp only; omega⟩

theorem restack_good {s : State} {held : Int → Prop} (h : Base s held)
    (hfocus : s.focus = s.windows.getLast?.map Window.id) : Good (restack s) held := by
  obtain ⟨k, own, hsame, hcanvas, hpix⟩ := restack_canvas h
  have hbase : Base (restack s) held := by
    have hk : ∀ i, InUse s.gfx.canvas i → InUse (restack s).gfx.canvas i := by
      intro i hi
      rw [hcanvas]
      exact ⟨hi.pos, hi.lt, by rw [hsame.exists_iff]; exact hi.exists_⟩
    refine ⟨?_, h.ids, h.id_lt, h.surfs, fun w hw => hk _ (h.inUse w hw), ?_⟩
    · rw [hcanvas, hsame.owner]
      rfl
    · intro i hi
      exact ⟨hk i (h.held i hi).1, (h.held i hi).2⟩
  refine ⟨hbase, hfocus, ?_⟩
  intro own' hown' p hp
  rw [hcanvas, hsame.owner] at hown'
  cases hown'
  apply hpix
  unfold onScreen at hp ⊢
  rw [hcanvas, hsame.w, hsame.h] at hp
  exact hp

/-! ### `focus!` -/

theorem sameMap_textOn (font : Font) (surf x y : Int) (text : String) (color : Gfx.Color) (g : Gfx.State) :
    SameMap g.canvas (textOn font surf x y text color g).canvas := by
  unfold textOn
  generalize text.toList = l
  induction l generalizing g x with
  | nil => exact .refl _
  | cons ch l ih =>
      rw [List.foldl_cons]
      exact (Gfx.sameMap_blitBitsOn _ _ _ _ _ _ _ _ _ _ g).trans (ih _ _)

theorem sameMap_drawFrame (font : Font) (w : Window) (focused : Bool) (g : Gfx.State) :
    SameMap g.canvas (drawFrame font w focused g).canvas := by
  unfold drawFrame
  by_cases hframe : w.frame = false
  · rw [if_pos hframe]
    exact .refl _
  · rw [if_neg hframe]
    simp only
    refine Loop.forRange_induct (P := fun g' : Gfx.State => SameMap g.canvas g'.canvas) ?_ ?_
    · refine SameMap.trans ?_ (Gfx.sameMap_fillRectOn _ _ _ _)
      refine SameMap.trans ?_ (Gfx.sameMap_fillRectOn _ _ _ _)
      refine SameMap.trans ?_ (sameMap_textOn _ _ _ _ _ _ _)
      refine SameMap.trans ?_ (Gfx.sameMap_fillRectOn _ _ _ _)
      refine SameMap.trans ?_ (Gfx.sameMap_fillRectOn _ _ _ _)
      refine SameMap.trans ?_ (Gfx.sameMap_fillRectOn _ _ _ _)
      refine SameMap.trans ?_ (Gfx.sameMap_fillRectOn _ _ _ _)
      refine SameMap.trans ?_ (Gfx.sameMap_fillRectOn _ _ _ _)
      exact Gfx.sameMap_fillRectOn _ _ _ _
    · intro i _ _ g' hg'
      refine SameMap.trans ?_ (Gfx.sameMap_fillRectOn _ _ _ _)
      exact hg'.trans (Gfx.sameMap_fillRectOn _ _ _ _)

theorem mem_of_window {s : State} {id : Nat} {w : Window} (h : s.window id = some w) :
    w ∈ s.windows ∧ w.id = id :=
  ⟨List.mem_of_find?_eq_some h, by simpa using List.find?_some h⟩

theorem window_of_mem {s : State} (hids : (s.windows.map Window.id).Nodup) {w : Window} (hw : w ∈ s.windows) :
    s.window w.id = some w := by
  cases hfound : s.window w.id with
  | none =>
      have hne := List.find?_eq_none.mp hfound w hw
      rw [beq_self_eq_true] at hne
      exact absurd rfl hne
  | some w' =>
      obtain ⟨hmem, hid⟩ := mem_of_window hfound
      rw [List.inj_on_of_nodup_map hids hmem hw hid]

/-- With the ids distinct, only one window has an id. -/
theorem filter_id {ws : List Window} (hids : (ws.map Window.id).Nodup) {w : Window} (hw : w ∈ ws) :
    ws.filter (fun x => x.id = w.id) = [w] := by
  induction ws with
  | nil => cases hw
  | cons a ws ih =>
      rw [List.map_cons, List.nodup_cons] at hids
      rcases List.mem_cons.mp hw with rfl | hmem
      · have hrest : ws.filter (fun x => x.id = w.id) = [] := by
          rw [List.filter_eq_nil_iff]
          intro x hx heq
          exact hids.1 (List.mem_map.mpr ⟨x, hx, of_decide_eq_true heq⟩)
        rw [List.filter_cons, if_pos (decide_eq_true rfl), hrest]
      · have hne : a.id ≠ w.id := fun heq => hids.1 (List.mem_map.mpr ⟨w, hmem, heq.symm⟩)
        rw [List.filter_cons, if_neg (by simpa using hne), ih hids.2 hmem]

/-- Raising a window only reorders. -/
theorem raise_perm {ws : List Window} (hids : (ws.map Window.id).Nodup) {w : Window} (hw : w ∈ ws) :
    ((ws.filter fun x => x.id ≠ w.id) ++ [w]).Perm ws := by
  have hperm := List.filter_append_perm (fun x : Window => decide (x.id = w.id)) ws
  rw [filter_id hids hw] at hperm
  refine List.perm_append_comm.trans ?_
  simpa using hperm

theorem focus_good (font : Font) {s : State} {held : Int → Prop} (h : Base s held) {id : Nat} {w : Window}
    (hw : s.window id = some w) : Good (focus font id s) held := by
  obtain ⟨hmem, rfl⟩ := mem_of_window hw
  have hperm := raise_perm h.ids hmem
  unfold focus
  rw [hw]
  apply restack_good
  · have hframe : ∀ g : Gfx.State, SameMap s.gfx.canvas g.canvas →
        Base { s with
          focus := some w.id
          windows := (s.windows.filter fun x => x.id ≠ w.id) ++ [w]
          gfx := drawFrame font w true g } held := by
      intro g hg
      have hbase := h.sameMap (hg.trans (sameMap_drawFrame font w true g))
      refine ⟨hbase.owner, ?_, ?_, ?_, ?_, ?_⟩
      · exact (hperm.map Window.id).nodup_iff.mpr h.ids
      · exact fun x hx => h.id_lt x (hperm.mem_iff.mp hx)
      · exact (hperm.map Window.surf).nodup_iff.mpr h.surfs
      · exact fun x hx => hbase.inUse x (hperm.mem_iff.mp hx)
      · intro i hi
        exact ⟨(hbase.held i hi).1, fun x hx => (hbase.held i hi).2 x (hperm.mem_iff.mp hx)⟩
    apply hframe
    split
    · split_ifs
      · exact sameMap_drawFrame font _ false _
      · exact .refl _
    · exact .refl _
  · show some w.id = Option.map Window.id (List.getLast? (_ ++ [w]))
    rw [List.getLast?_append, List.getLast?_singleton]
    rfl

/-! ### `close!` -/

/-- Freeing a surface leaves the others. -/
theorem InUse.surfaceFree {k : Gfx.Canvas} {i : Int} (h : InUse k i) {id : Int} (hne : i ≠ id) :
    InUse (k.surfaceFree id) i := by
  refine ⟨h.pos, h.lt, ?_⟩
  unfold Gfx.Canvas.surfaceFree
  split_ifs
  · exact h.exists_
  · show (Function.update k.surfaces id none i).isSome = true
    rw [Function.update_of_ne hne]
    exact h.exists_

theorem surfaceFree_owner (k : Gfx.Canvas) (id : Int) :
    (k.surfaceFree id).owner.isSome = k.owner.isSome := by
  unfold Gfx.Canvas.surfaceFree
  split_ifs
  · rfl
  · exact Option.isSome_map

/-- The windows that remain when `w` is closed. -/
theorem Base.without {s : State} {held : Int → Prop} (h : Base s held) {w : Window} (hw : w ∈ s.windows)
    (focus : Option Nat) :
    Base { s with
      windows := s.windows.filter fun x => x.id ≠ w.id
      focus := focus
      gfx := Gfx.gfxSurfaceFree w.surf s.gfx } held := by
  have hsub : (s.windows.filter fun x => x.id ≠ w.id).Sublist s.windows := List.filter_sublist
  have hother : ∀ x ∈ s.windows.filter (fun x => x.id ≠ w.id), x ∈ s.windows ∧ x.surf ≠ w.surf := by
    intro x hx
    obtain ⟨hmem, hne⟩ := List.mem_filter.mp hx
    refine ⟨hmem, ?_⟩
    intro heq
    have hsame := List.inj_on_of_nodup_map h.surfs hmem hw heq
    rw [hsame] at hne
    simp at hne
  refine ⟨?_, ?_, ?_, ?_, ?_, ?_⟩
  · show (s.gfx.canvas.surfaceFree w.surf).owner.isSome = true
    rw [surfaceFree_owner]
    exact h.owner
  · exact h.ids.sublist (hsub.map Window.id)
  · exact fun x hx => h.id_lt x (hother x hx).1
  · exact h.surfs.sublist (hsub.map Window.surf)
  · exact fun x hx => (h.inUse x (hother x hx).1).surfaceFree (hother x hx).2
  · intro i hi
    obtain ⟨huse, hne⟩ := h.held i hi
    exact ⟨huse.surfaceFree (hne w hw).symm, fun x hx => hne x (hother x hx).1⟩

/-- A last window that is not closed stays the last. -/
theorem getLast?_filter {ws : List Window} {top : Window} (h : ws.getLast? = some top) {id : Nat}
    (hne : top.id ≠ id) : (ws.filter fun x => x.id ≠ id).getLast? = some top := by
  obtain ⟨init, rfl⟩ := List.getLast?_eq_some_iff.mp h
  rw [List.filter_append, List.filter_cons, if_pos (by simpa using hne), List.filter_nil,
    List.getLast?_append, List.getLast?_singleton]
  rfl

theorem close_good (font : Font) {s : State} {held : Int → Prop} (h : Good s held) (id : Nat) :
    Good (close font id s) held := by
  unfold close
  cases hw : s.window id with
  | none => exact h
  | some w =>
      obtain ⟨hmem, rfl⟩ := mem_of_window hw
      have hbase := h.without hmem (if s.focus ≠ some w.id then s.focus else none)
      simp only
      have htop := List.getLast?_eq_some_getLast (List.ne_nil_of_mem hmem)
      have hfocus := h.focus
      rw [htop, Option.map_some] at hfocus
      by_cases heq : (s.windows.getLast (List.ne_nil_of_mem hmem)).id = w.id
      · -- the focused window: the next one below gets the focus
        have hnone : (if s.focus ≠ some w.id then s.focus else none) = none := by
          rw [hfocus, heq, if_neg (not_not_intro rfl)]
        rw [hnone] at hbase ⊢
        cases hlast : (s.windows.filter fun x => x.id ≠ w.id).getLast? with
        | none =>
            apply restack_good hbase
            show none = Option.map Window.id (List.getLast? _)
            rw [hlast]
            rfl
        | some top =>
            have hfound := (List.find?_isSome (p := fun x : Window => x.id == top.id)).mpr
              ⟨top, List.mem_of_getLast? hlast, beq_self_eq_true top.id⟩
            obtain ⟨w', hw'⟩ := Option.isSome_iff_exists.mp hfound
            exact focus_good font hbase hw'
      · have hsome : (if s.focus ≠ some w.id then s.focus else none) =
            some (s.windows.getLast (List.ne_nil_of_mem hmem)).id := by
          rw [hfocus, if_pos fun h => heq (Option.some.inj h)]
        rw [hsome] at hbase ⊢
        have hlast := getLast?_filter htop heq
        have hgood := restack_good hbase (by
          show some _ = Option.map Window.id (List.getLast? _)
          rw [hlast]
          rfl)
        split
        · rename_i heq'
          cases heq'
        · exact hgood

theorem closeFocused_good (font : Font) {s : State} {held : Int → Prop} (h : Good s held) :
    Good (closeFocused font s) held := by
  unfold closeFocused
  split
  · exact h
  · exact close_good font h _

theorem focus_any_good (font : Font) {s : State} {held : Int → Prop} (h : Good s held) (id : Nat) :
    Good (focus font id s) held := by
  cases hw : s.window id with
  | none =>
      unfold focus
      rw [hw]
      exact h
  | some w => exact focus_good font h.toBase hw

theorem nextWindow_good (font : Font) {s : State} {held : Int → Prop} (h : Good s held) :
    Good (nextWindow font s) held := by
  unfold nextWindow
  split
  · exact focus_any_good font h _
  · exact h

/-- Moving a window changes no id and no surface. -/
theorem move_good {s : State} {held : Int → Prop} (h : Good s held) (id : Nat) (x y : Int) :
    Good (restack (move id x y s)) held := by
  have hkeep : ∀ w : Window, (if w.id = id then { w with x := x, y := y } else w).id = w.id ∧
      (if w.id = id then { w with x := x, y := y } else w).surf = w.surf := by
    intro w
    split_ifs <;> exact ⟨rfl, rfl⟩
  have hids : (move id x y s).windows.map Window.id = s.windows.map Window.id := by
    unfold move
    rw [List.map_map]
    exact List.map_congr_left fun w _ => (hkeep w).1
  have hsurfs : (move id x y s).windows.map Window.surf = s.windows.map Window.surf := by
    unfold move
    rw [List.map_map]
    exact List.map_congr_left fun w _ => (hkeep w).2
  have hmem : ∀ w ∈ (move id x y s).windows, ∃ w' ∈ s.windows, w.id = w'.id ∧ w.surf = w'.surf := by
    intro w hw
    obtain ⟨w', hw', rfl⟩ := List.mem_map.mp hw
    exact ⟨w', hw', hkeep w'⟩
  apply restack_good
  · refine ⟨h.owner, by rw [hids]; exact h.ids, ?_, by rw [hsurfs]; exact h.surfs, ?_, ?_⟩
    · intro w hw
      obtain ⟨w', hw', heq, -⟩ := hmem w hw
      rw [heq]
      exact h.id_lt w' hw'
    · intro w hw
      obtain ⟨w', hw', -, heq⟩ := hmem w hw
      rw [heq]
      exact h.inUse w' hw'
    · intro i hi
      refine ⟨(h.held i hi).1, ?_⟩
      intro w hw
      obtain ⟨w', hw', -, heq⟩ := hmem w hw
      rw [heq]
      exact (h.held i hi).2 w' hw'
  · rw [← List.getLast?_map, hids, List.getLast?_map]
    exact h.focus

theorem dragTo_good {s : State} {held : Int → Prop} (h : Good s held) : Good (dragTo s) held := by
  unfold dragTo
  split
  · exact h
  · exact move_good h _ _ _

/-! ### New windows -/

/-- A number that `gfx_surface_new` can give. -/
def Free (k : Gfx.Canvas) (i : Int) : Prop := 1 ≤ i ∧ i < gfxSurfaces ∧ k.surfaces i = none

/-- A size that is one for `gfx_surface_new` too, with memory for it. -/
def Makes (granted : Bool) (w h : Int) : Prop :=
  granted = true ∧ (0 < w ∧ 0 < h) ∧ CInt.uint32 w ≠ 0 ∧ CInt.uint32 h ≠ 0

/-- `(beer.gfx/surface w h)` makes a surface if there is a number for it. -/
theorem surface_spec (granted : Bool) (w h : Int) (g : Gfx.State) :
    surface granted w h g = (none, g) ∧ ¬ (Makes granted w h ∧ ∃ i, Free g.canvas i) ∨
      Makes granted w h ∧ ∃ i, Free g.canvas i ∧
        surface granted w h g = (some i, { g with canvas := { g.canvas with
          surfaces := Function.update g.canvas.surfaces i (some ⟨fun _ => 0, CInt.uint32 w, CInt.uint32 h⟩) } }) := by
  unfold surface Gfx.gfxSurfaceNew Makes Free
  by_cases hsize : w ≤ 0 ∨ h ≤ 0
  · rw [if_pos hsize]
    exact Or.inl ⟨rfl, fun hmakes => by omega⟩
  · rw [if_neg hsize]
    dsimp only
    rcases g.canvas.surfaceNew_cases granted (CInt.uint32 w) (CInt.uint32 h) with
      ⟨hnew, hnot⟩ | ⟨hmakes, i, hfree, hnew⟩
    · rw [hnew]
      exact Or.inl ⟨rfl, fun hmakes => hnot ⟨⟨hmakes.1.1, hmakes.1.2.2⟩, hmakes.2⟩⟩
    · rw [hnew]
      dsimp only
      rw [if_neg (by omega)]
      exact Or.inr ⟨⟨hmakes.1, by omega, hmakes.2⟩, i, hfree, rfl⟩

/-- It gives nothing, or a surface that was not in use. -/
theorem surface_cases (granted : Bool) (w h : Int) (g : Gfx.State) :
    surface granted w h g = (none, g) ∨
      ∃ i t, 1 ≤ i ∧ i < gfxSurfaces ∧ g.canvas.surfaces i = none ∧
        surface granted w h g = (some i, { g with canvas := { g.canvas with
          surfaces := Function.update g.canvas.surfaces i (some t) } }) := by
  rcases surface_spec granted w h g with ⟨hnone, -⟩ | ⟨-, i, ⟨hlo, hhi, hfree⟩, hsome⟩
  · exact Or.inl hnone
  · exact Or.inr ⟨i, _, hlo, hhi, hfree, hsome⟩

theorem InUse.surfaceNew {k : Gfx.Canvas} {i j : Int} (h : InUse k i) (t : Gfx.Target) :
    InUse { k with surfaces := Function.update k.surfaces j (some t) } i := by
  refine ⟨h.pos, h.lt, ?_⟩
  show (Function.update k.surfaces j (some t) i).isSome = true
  by_cases hij : i = j
  · rw [hij, Function.update_self]
    rfl
  · rw [Function.update_of_ne hij]
    exact h.exists_

theorem InUse.ne_of_free {k : Gfx.Canvas} {i j : Int} (h : InUse k i) (hfree : k.surfaces j = none) : i ≠ j := by
  rintro rfl
  have := h.exists_
  rw [hfree] at this
  cases this

/-- A new surface that something outside the windows holds. -/
theorem Good.surfaceNew {s : State} {held : Int → Prop} (h : Good s held) {j : Int} {t : Gfx.Target}
    (hlo : 1 ≤ j) (hhi : j < gfxSurfaces) (hfree : s.gfx.canvas.surfaces j = none) :
    Good { s with gfx := { s.gfx with canvas := { s.gfx.canvas with
      surfaces := Function.update s.gfx.canvas.surfaces j (some t) } } } fun i => held i ∨ i = j where
  owner := h.owner
  ids := h.ids
  id_lt := h.id_lt
  surfs := h.surfs
  inUse w hw := (h.inUse w hw).surfaceNew t
  held i hi := by
    rcases hi with hi | rfl
    · exact ⟨(h.held i hi).1.surfaceNew t, (h.held i hi).2⟩
    · refine ⟨⟨hlo, hhi, ?_⟩, ?_⟩
      · show (Function.update s.gfx.canvas.surfaces i (some t) i).isSome = true
        rw [Function.update_self]
        rfl
      · exact fun w hw => (h.inUse w hw).ne_of_free hfree
  focus := h.focus
  agree := h.agree

theorem Good.mono {s : State} {held held' : Int → Prop} (h : Good s held) (hsub : ∀ i, held' i → held i) :
    Good s held' :=
  { h with held := fun i hi => h.held i (hsub i hi) }

theorem Base.ids_append {s : State} {held : Int → Prop} (h : Base s held) {win : Window} (hid : win.id = s.next) :
    ((s.windows ++ [win]).map Window.id).Nodup := by
  rw [List.map_append, List.nodup_append]
  refine ⟨h.ids, List.nodup_singleton _, ?_⟩
  intro i hi j hj
  obtain ⟨w, hw, rfl⟩ := List.mem_map.mp hi
  rw [List.map_singleton, List.mem_singleton] at hj
  have := h.id_lt w hw
  omega

/-- A window on a surface that was held gets the focus. -/
theorem addWindow_good (font : Font) {s : State} {held : Int → Prop} (win : Window)
    (h : Good s fun i => held i ∨ i = win.surf) (hid : win.id = s.next) (hheld : ¬ held win.surf) :
    Good (focus font win.id { s with next := s.next + 1, windows := s.windows ++ [win] }) held := by
  have hnew := h.held win.surf (Or.inr rfl)
  have hmem : ∀ w ∈ s.windows ++ [win], w ∈ s.windows ∨ w = win := by
    intro w hw
    rcases List.mem_append.mp hw with hw | hw
    · exact Or.inl hw
    · exact Or.inr (List.mem_singleton.mp hw)
  have hbase : Base { s with next := s.next + 1, windows := s.windows ++ [win] } held := by
    refine ⟨h.owner, h.ids_append hid, ?_, ?_, ?_, ?_⟩
    · intro w hw
      rcases hmem w hw with hw | rfl
      · exact Nat.lt_succ_of_lt (h.id_lt w hw)
      · exact hid ▸ Nat.lt_succ_self _
    · show ((s.windows ++ [win]).map Window.surf).Nodup
      rw [List.map_append, List.nodup_append]
      refine ⟨h.surfs, List.nodup_singleton _, ?_⟩
      intro i hi j hj
      obtain ⟨w, hw, rfl⟩ := List.mem_map.mp hi
      rw [List.map_singleton, List.mem_singleton] at hj
      rw [hj]
      exact hnew.2 w hw
    · intro w hw
      rcases hmem w hw with hw | rfl
      · exact h.inUse w hw
      · exact hnew.1
    · intro i hi
      refine ⟨(h.held i (Or.inl hi)).1, ?_⟩
      intro w hw
      rcases hmem w hw with hw | rfl
      · exact (h.held i (Or.inl hi)).2 w hw
      · rintro rfl
        exact hheld hi
  have hwindow : State.window { s with next := s.next + 1, windows := s.windows ++ [win] } win.id =
      some win := by
    unfold State.window
    rw [List.find?_append]
    have hnone : s.windows.find? (fun w => w.id == win.id) = none := by
      rw [List.find?_eq_none]
      intro w hw
      have := h.id_lt w hw
      simp only [beq_iff_eq]
      omega
    rw [hnone]
    simp
  exact focus_good font hbase hwindow

theorem openWindow_good (font : Font) {s : State} {held : Int → Prop} (h : Good s held) (o : OpenOpts)
    (granted : Bool) : Good (openWindow font o granted s).2 held := by
  unfold openWindow
  simp only
  generalize 2 * border + o.cols * (o.scale * fontSize) = w
  generalize border + tabH + border + o.rows * (o.scale * fontSize) + border = h'
  rcases surface_cases granted w h' s.gfx with hnone | ⟨i, t, hlo, hhi, hfree, hsome⟩
  · rw [hnone]
    exact h
  · rw [hsome]
    exact addWindow_good font ⟨s.next, i, _, _, _, _, _, true⟩ (h.surfaceNew hlo hhi hfree) rfl fun hi =>
      (h.held i hi).1.ne_of_free hfree rfl

/-- `canvas!` throws, or returns a canvas on a surface of its own. -/
theorem openCanvas_good (font : Font) {s : State} {held : Int → Prop} (h : Good s held) (o : CanvasOpts)
    (granted granted' : Bool) :
    (∃ e s', openCanvas font o granted granted' s = (.error e, s') ∧ Good s' held) ∨
      ∃ c s', openCanvas font o granted granted' s = (.ok c, s') ∧ ¬ held c.surface ∧
        Good s' fun i => held i ∨ i = c.surface := by
  unfold openCanvas
  split_ifs
  · exact Or.inl ⟨_, s, rfl, h⟩
  · simp only
    obtain ⟨r, scale⟩ := canvasLayout o s
    simp only
    rcases surface_cases granted r.w r.h s.gfx with hnone | ⟨i, t, hlo, hhi, hfree, hsome⟩
    · rw [hnone]
      left
      rcases surface_cases granted' o.w o.h s.gfx with hnone' | ⟨j, t', hlo', hhi', hfree', hsome'⟩
      · rw [hnone']
        exact ⟨_, _, rfl, h⟩
      · rw [hsome']
        exact ⟨_, _, rfl, (h.surfaceNew hlo' hhi' hfree').mono fun _ => Or.inl⟩
    · rw [hsome]
      have hfirst := h.surfaceNew (t := t) hlo hhi hfree
      obtain ⟨g, hg⟩ : ∃ g, { s.gfx with canvas := { s.gfx.canvas with
        surfaces := Function.update s.gfx.canvas.surfaces i (some t) } } = g := ⟨_, rfl⟩
      simp only [hg] at hfirst ⊢
      rcases surface_cases granted' o.w o.h g with hnone' | ⟨j, t', hlo', hhi', hfree', hsome'⟩
      · rw [hnone']
        exact Or.inl ⟨_, _, rfl, hfirst.mono fun _ => Or.inl⟩
      · rw [hsome']
        have hij : i ≠ j := (hfirst.held i (Or.inr rfl)).1.ne_of_free hfree'
        have hnew : ∀ x, held x → x ≠ j := fun x hx => (hfirst.held x (Or.inl hx)).1.ne_of_free hfree'
        right
        refine ⟨_, _, rfl, fun hj => hnew j hj rfl, ?_⟩
        refine addWindow_good font ⟨s.next, i, _, _, _, _, _, _⟩ ((hfirst.surfaceNew hlo' hhi' hfree').mono ?_)
          rfl ?_
        · intro x hx
          rcases hx with (hx | hx) | hx
          · exact Or.inl (Or.inl hx)
          · exact Or.inr hx
          · exact Or.inl (Or.inr hx)
        · rintro (hi | hi)
          · exact (h.held i hi).1.ne_of_free hfree rfl
          · exact hij hi

/-! ### `close-canvas!` -/

theorem mem_focus {font : Font} {s : State} {id : Nat} {w : Window} (h : w ∈ (focus font id s).windows) :
    w ∈ s.windows := by
  unfold focus at h
  cases hw : s.window id with
  | none =>
      rw [hw] at h
      exact h
  | some w' =>
      rw [hw] at h
      rcases List.mem_append.mp h with h | h
      · exact List.mem_of_mem_filter h
      · rw [List.mem_singleton.mp h]
        exact (mem_of_window hw).1

theorem mem_close {font : Font} {s : State} {id : Nat} {w : Window} (h : w ∈ (close font id s).windows) :
    w ∈ s.windows := by
  unfold close at h
  split at h
  · exact h
  · simp only at h
    split at h
    · exact List.mem_of_mem_filter (mem_focus h)
    · exact List.mem_of_mem_filter h

theorem surfOr_cases (ws : List Window) (d : Int) (p : Pos) :
    surfOr ws d p = d ∨ ∃ w ∈ ws, surfOr ws d p = w.surf := by
  unfold surfOr
  induction ws generalizing d with
  | nil => exact Or.inl rfl
  | cons w ws ih =>
      rw [List.foldl_cons]
      rcases ih (if w.rect.Mem p then w.surf else d) with heq | ⟨w', hw', heq⟩
      · rw [heq]
        split_ifs
        · exact Or.inr ⟨w, List.mem_cons_self, rfl⟩
        · exact Or.inl rfl
      · exact Or.inr ⟨w', List.mem_cons_of_mem w hw', heq⟩

/-- Freeing a surface that no window has. -/
theorem Good.surfaceFree {s : State} {held held' : Int → Prop} (h : Good s held) {i : Int}
    (hwin : ∀ w ∈ s.windows, w.surf ≠ i) (hheld : ∀ j, held' j → held j ∧ j ≠ i) :
    Good { s with gfx := Gfx.gfxSurfaceFree i s.gfx } held' := by
  refine ⟨⟨?_, h.ids, h.id_lt, h.surfs, ?_, ?_⟩, h.focus, ?_⟩
  · show (s.gfx.canvas.surfaceFree i).owner.isSome = true
    rw [surfaceFree_owner]
    exact h.owner
  · exact fun w hw => (h.inUse w hw).surfaceFree (hwin w hw)
  · intro j hj
    obtain ⟨hj, hne⟩ := hheld j hj
    exact ⟨(h.held j hj).1.surfaceFree hne, (h.held j hj).2⟩
  · show ∀ own, (s.gfx.canvas.surfaceFree i).owner = some own → ∀ p, onScreen (s.gfx.canvas.surfaceFree i) p →
      own p = surfOr s.windows 0 p
    unfold Gfx.Canvas.surfaceFree
    split_ifs with hargs
    · exact h.agree
    · intro own hown p hp
      obtain ⟨own₀, hown₀, rfl⟩ := Option.map_eq_some_iff.mp hown
      have hpix := h.agree own₀ hown₀ p hp
      rw [not_or, Int.not_le] at hargs
      have hne : own₀ p ≠ i := by
        rw [hpix]
        rcases surfOr_cases s.windows 0 p with hzero | ⟨w, hw, hsurf⟩
        · omega
        · rw [hsurf]
          exact hwin w hw
      show (if onScreen s.gfx.canvas p ∧ own₀ p = i then 0 else own₀ p) = _
      rw [if_neg fun hin => hne hin.2, hpix]

/-- `close-canvas!` on a surface that no window has. -/
theorem closeCanvas_good (font : Font) {s : State} {held held' : Int → Prop} (h : Good s held) {c : Canvas}
    (hwin : ∀ w ∈ s.windows, w.surf ≠ c.surface) (hheld : ∀ j, held' j → held j ∧ j ≠ c.surface) :
    Good (closeCanvas font c s) held' := by
  unfold closeCanvas
  simp only
  split_ifs
  · exact (close_good font h c.id).surfaceFree (fun w hw => hwin w (mem_close hw)) hheld
  · exact h.surfaceFree hwin hheld

/-! ### Whole runs -/

/-- The surfaces of the canvases that `close-canvas!` has not been called for. -/
def System.Held (sys : System) (i : Int) : Prop :=
  ∃ k c, sys.canvases[k]? = some c ∧ k ∉ sys.closed ∧ c.surface = i

structure Inv (sys : System) : Prop where
  good : Good sys.wm sys.Held
  distinct : ∀ k k' c c', sys.canvases[k]? = some c → sys.canvases[k']? = some c' → k ∉ sys.closed →
    k' ∉ sys.closed → c.surface = c'.surface → k = k'

theorem inv_booted {sys : System} (h : Booted sys) : Inv sys := by
  refine ⟨⟨⟨?_, ?_, ?_, ?_, ?_, ?_⟩, ?_, ?_⟩, ?_⟩
  · rw [h.owner]
    rfl
  · rw [h.windows]
    exact List.nodup_nil
  · rw [h.windows]
    nofun
  · rw [h.windows]
    exact List.nodup_nil
  · rw [h.windows]
    nofun
  · rintro i ⟨k, c, hc, -⟩
    rw [h.canvases] at hc
    cases hc
  · rw [h.windows, h.focus]
    rfl
  · intro own hown p _
    rw [h.owner] at hown
    cases hown
    rw [h.windows]
    rfl
  · intro k k' c c' hc
    rw [h.canvases] at hc
    cases hc

theorem getElem?_concat_cases {α : Type} {l : List α} {a b : α} {k : Nat} (hk : (l ++ [a])[k]? = some b) :
    l[k]? = some b ∨ k = l.length ∧ b = a := by
  rcases Nat.lt_or_ge k l.length with hlt | hge
  · rw [List.getElem?_append_left hlt] at hk
    exact Or.inl hk
  · rw [List.getElem?_append_right hge, List.getElem?_singleton] at hk
    split_ifs at hk with hzero
    cases hk
    exact Or.inr ⟨by omega, rfl⟩

theorem Inv.canvas {font : Font} {sys : System} (h : Inv sys) (o : CanvasOpts) (granted granted' : Bool) :
    Inv (sys.step font (.canvas o granted granted')) := by
  rcases openCanvas_good font h.good o granted granted' with ⟨e, s', heq, hgood⟩ | ⟨c, s', heq, hfresh, hgood⟩
  · simp only [System.step, heq]
    exact ⟨hgood, h.distinct⟩
  · simp only [System.step, heq]
    refine ⟨hgood.mono ?_, ?_⟩
    · rintro i ⟨k, c', hc', hk, rfl⟩
      rcases getElem?_concat_cases hc' with hold | ⟨-, rfl⟩
      · exact Or.inl ⟨k, c', hold, hk, rfl⟩
      · exact Or.inr rfl
    · intro k k' c₁ c₂ h₁ h₂ hk hk' hsurf
      rcases getElem?_concat_cases h₁ with hold | ⟨hlast, rfl⟩
      · rcases getElem?_concat_cases h₂ with hold' | ⟨-, rfl⟩
        · exact h.distinct k k' c₁ c₂ hold hold' hk hk' hsurf
        · exact absurd ⟨k, c₁, hold, hk, hsurf⟩ hfresh
      · rcases getElem?_concat_cases h₂ with hold' | ⟨hlast', -⟩
        · exact absurd ⟨k', c₂, hold', hk', hsurf.symm⟩ hfresh
        · exact hlast.trans hlast'.symm

theorem Inv.closeCanvas {font : Font} {sys : System} (h : Inv sys) {k : Nat}
    (hown : OwnSurface sys (.closeCanvas k)) : Inv (sys.step font (.closeCanvas k)) := by
  cases hc : sys.canvases[k]? with
  | none =>
      simp only [System.step, hc]
      exact h
  | some c =>
      simp only [System.step, hc]
      have hsub : ∀ {k'}, k' ∉ k :: sys.closed → k' ≠ k ∧ k' ∉ sys.closed := by
        intro k' hk'
        rwa [List.mem_cons, not_or] at hk'
      refine ⟨?_, ?_⟩
      · rcases hown c hc with hopen | hfree
        · refine closeCanvas_good font h.good (h.good.held c.surface ⟨k, c, hc, hopen, rfl⟩).2 ?_
          rintro j ⟨k', c', hc', hk', rfl⟩
          refine ⟨⟨k', c', hc', (hsub hk').2, rfl⟩, ?_⟩
          intro heq
          exact (hsub hk').1 (h.distinct k' k c' c hc' hc (hsub hk').2 hopen heq)
        · refine closeCanvas_good font h.good (fun w hw => (h.good.inUse w hw).ne_of_free hfree) ?_
          rintro j ⟨k', c', hc', hk', rfl⟩
          have hheld : sys.Held c'.surface := ⟨k', c', hc', (hsub hk').2, rfl⟩
          exact ⟨hheld, (h.good.held _ hheld).1.ne_of_free hfree⟩
      · intro k₁ k₂ c₁ c₂ h₁ h₂ hk₁ hk₂
        exact h.distinct k₁ k₂ c₁ c₂ h₁ h₂ (hsub hk₁).2 (hsub hk₂).2

theorem Inv.step {font : Font} {sys : System} (h : Inv sys) {op : Op} (hop : OwnSurface sys op) :
    Inv (sys.step font op) := by
  cases op with
  | openWindow o granted => exact ⟨openWindow_good font h.good o granted, h.distinct⟩
  | canvas o granted granted' => exact h.canvas o granted granted'
  | close id => exact ⟨close_good font h.good id, h.distinct⟩
  | closeFocused => exact ⟨closeFocused_good font h.good, h.distinct⟩
  | closeCanvas k => exact h.closeCanvas hop
  | focus id => exact ⟨focus_any_good font h.good id, h.distinct⟩
  | nextWindow => exact ⟨nextWindow_good font h.good, h.distinct⟩
  | dragTo pointer drag =>
      have hgood : Good { sys.wm with pointer := pointer, drag := drag } sys.Held := { h.good with }
      exact ⟨dragTo_good hgood, h.distinct⟩

theorem Inv.run {font : Font} {sys : System} (h : Inv sys) {ops : List Op} (hops : Along font OwnSurface sys ops) :
    Inv (sys.run font ops) := by
  induction ops generalizing sys with
  | nil => exact h
  | cons op ops ih => exact ih (h.step hops.1) hops.2

theorem Good.agrees {s : State} {held : Int → Prop} (h : Good s held) : Agrees s := by
  obtain ⟨own, hown⟩ := Option.isSome_iff_exists.mp h.owner
  refine ⟨?_, ?_, ?_, h.ids, h.surfs⟩
  · intro x y hx hx' hy hy'
    unfold State.width at hx'
    unfold State.height at hy'
    rw [windowAt_surf]
    unfold Gfx.gfxOwnerAt Gfx.Canvas.ownerAt
    rw [hown]
    simp only
    rw [if_neg (by omega)]
    apply h.agree own hown
    unfold onScreen
    simp only
    omega
  · rw [h.focus, Option.map_eq_none_iff, List.getLast?_eq_none_iff]
  · intro w hw
    rw [h.focus, hw]
    rfl

/-- A screen of one pixel and a font without ink. -/
def bootSystem : System :=
  ⟨⟨[], none, (0, 0), none, 1, Gfx.onePixel⟩, [], []⟩

def blank : Font := fun _ _ => 0

/-- A canvas is made and closed; its two surfaces go to two windows. -/
def reuse : List Op := [.canvas { w := 1, h := 1, scale := 1 } true true, .closeCanvas 0,
  .openWindow { cols := 0, rows := 0 } true, .openWindow { cols := 0, rows := 0 } true]

theorem booted_bootSystem : Booted bootSystem := ⟨rfl, rfl, rfl, rfl, rfl⟩

end Beeros.Wm
