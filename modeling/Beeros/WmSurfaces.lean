import Beeros.WmAgree

/-! Who has which surface in `beer.wm`: over a whole run the surfaces that exist are those of the windows and of
the open canvases, unless a `canvas!` gets one of the two surfaces it needs and throws. -/

namespace Beeros.Wm

open Gfx (SameMap gfxSurfaces gfxOwn)

variable {font : Font} {s : State} {held : Int → Prop} {k k' : Gfx.Canvas} {i j : Int}

/-! ### What the operations do to the surfaces -/

theorem inUse_iff : InUse k i ↔ (1 ≤ i ∧ i < gfxSurfaces) ∧ (k.target i).isSome = true := by
  have htarget (hlo : 1 ≤ i) (hhi : i < gfxSurfaces) : (k.target i).isSome = (k.surfaces i).isSome := by
    unfold Gfx.Canvas.target
    rw [if_neg (by omega), if_neg (by omega), Option.isSome_map]
  constructor
  · rintro ⟨hlo, hhi, hexists⟩
    exact ⟨⟨hlo, hhi⟩, (htarget hlo hhi).trans hexists⟩
  · rintro ⟨⟨hlo, hhi⟩, hsome⟩
    exact ⟨hlo, hhi, (htarget hlo hhi).symm.trans hsome⟩

theorem inUse_congr (h : ∀ i, k'.target i = k.target i) : InUse k' i ↔ InUse k i := by
  rw [inUse_iff, inUse_iff, h]

theorem target_own (k : Gfx.Canvas) (id : Int) (r : Gfx.Rect) (i : Int) : (k.own id r).target i = k.target i := by
  unfold Gfx.Canvas.own
  cases k.owner with
  | none => rfl
  | some own =>
      dsimp only
      split_ifs
      · rfl
      · cases Gfx.clip r k.w k.h <;> rfl

theorem target_own_windows (ws : List Window) (g : Gfx.State) (i : Int) :
    (ws.foldl (fun g w => gfxOwn w.surf w.rect g) g).canvas.target i = g.canvas.target i := by
  induction ws generalizing g with
  | nil => rfl
  | cons w ws ih =>
      rw [List.foldl_cons, ih]
      exact target_own g.canvas w.surf w.rect i

theorem target_restack (s : State) (i : Int) : (restack s).gfx.canvas.target i = s.gfx.canvas.target i := by
  refine ((sameMap_repaint s _).target i).trans ?_
  rw [target_own_windows]
  exact target_own s.gfx.canvas 0 _ i

theorem target_focus (font : Font) (id : Nat) (s : State) (i : Int) :
    (focus font id s).gfx.canvas.target i = s.gfx.canvas.target i := by
  unfold focus
  cases s.window id with
  | none => rfl
  | some w =>
      refine (target_restack _ i).trans ((sameMap_drawFrame font w true _).target i |>.trans ?_)
      cases s.focused with
      | none => rfl
      | some old =>
          dsimp only
          split_ifs
          · exact (sameMap_drawFrame font old false s.gfx).target i
          · rfl

/-- Raising keeps the windows. -/
theorem focus_perm (font : Font) (id : Nat) (hids : (s.windows.map Window.id).Nodup) :
    (focus font id s).windows.Perm s.windows := by
  unfold focus
  cases hw : s.window id with
  | none => exact .refl _
  | some w =>
      obtain ⟨hmem, rfl⟩ := mem_of_window hw
      exact raise_perm hids hmem

theorem inUse_surfaceFree : InUse (k.surfaceFree j) i ↔ InUse k i ∧ i ≠ j := by
  constructor
  · intro h
    unfold Gfx.Canvas.surfaceFree at h
    split_ifs at h with hargs
    · refine ⟨h, ?_⟩
      rintro rfl
      obtain ⟨hpos, hlt, hexists⟩ := h
      rcases hargs with hlow | hhigh | hnone
      · omega
      · omega
      · rw [Option.isNone_iff_eq_none] at hnone
        rw [hnone] at hexists
        cases hexists
    · obtain ⟨hpos, hlt, hexists⟩ := h
      change (Function.update k.surfaces j none i).isSome = true at hexists
      by_cases hij : i = j
      · rw [hij, Function.update_self] at hexists
        cases hexists
      · rw [Function.update_of_ne hij] at hexists
        exact ⟨⟨hpos, hlt, hexists⟩, hij⟩
  · rintro ⟨h, hne⟩
    exact h.surfaceFree hne

theorem inUse_surfaceNew (hlo : 1 ≤ j) (hhi : j < gfxSurfaces) (t : Gfx.Target) :
    InUse { k with surfaces := Function.update k.surfaces j (some t) } i ↔ InUse k i ∨ i = j := by
  constructor
  · rintro ⟨hpos, hlt, hexists⟩
    by_cases hij : i = j
    · exact Or.inr hij
    · change (Function.update k.surfaces j (some t) i).isSome = true at hexists
      rw [Function.update_of_ne hij] at hexists
      exact Or.inl ⟨hpos, hlt, hexists⟩
  · rintro (h | rfl)
    · exact h.surfaceNew t
    · refine ⟨hlo, hhi, ?_⟩
      show (Function.update k.surfaces i (some t) i).isSome = true
      rw [Function.update_self]
      rfl

/-- `close!` frees the window's surface and takes the window away. -/
theorem close_spec (font : Font) (h : Good s held) {id : Nat} {w : Window} (hw : s.window id = some w) :
    (∀ i, InUse (close font id s).gfx.canvas i ↔ InUse s.gfx.canvas i ∧ i ≠ w.surf) ∧
      ∀ x, x ∈ (close font id s).windows ↔ x ∈ s.windows ∧ x.id ≠ id := by
  have hids := h.ids.sublist ((List.filter_sublist (p := fun x : Window => x.id ≠ id)).map Window.id)
  unfold close
  rw [hw]
  dsimp only
  have hmem (x : Window) : x ∈ (s.windows.filter fun x => x.id ≠ id) ↔ x ∈ s.windows ∧ x.id ≠ id := by
    rw [List.mem_filter]
    exact and_congr_right fun _ => decide_eq_true_iff
  split
  · exact ⟨fun i => (inUse_congr (target_focus font _ _)).trans inUse_surfaceFree,
      fun x => (focus_perm font _ hids).mem_iff.trans (hmem x)⟩
  · exact ⟨fun i => (inUse_congr (target_restack _)).trans inUse_surfaceFree, hmem⟩

/-! ### Every surface has an owner -/

/-- The surface of a window or of an open canvas. -/
def System.Listed (sys : System) (i : Int) : Prop := (∃ w ∈ sys.wm.windows, w.surf = i) ∨ sys.Held i

/-- The surfaces that exist are those of the windows and of the open canvases, and none has two owners. -/
structure Accounted (sys : System) : Prop where
  all : ∀ i, InUse sys.wm.gfx.canvas i ↔ sys.Listed i
  windows : (sys.wm.windows.map Window.surf).Nodup
  canvases : ∀ k k' c c', sys.canvases[k]? = some c → sys.canvases[k']? = some c' → k ∉ sys.closed →
    k' ∉ sys.closed → c.surface = c'.surface → k = k'
  apart : ∀ w ∈ sys.wm.windows, ¬ sys.Held w.surf

/-- No surface is lost. -/
def Covered (sys : System) : Prop := ∀ i, InUse sys.wm.gfx.canvas i → sys.Listed i

variable {sys : System}

theorem accounted_iff (h : Inv sys) : Accounted sys ↔ Covered sys := by
  refine ⟨fun hacc i => (hacc.all i).mp, fun hcov => ⟨fun i => ⟨hcov i, ?_⟩, h.good.surfs, h.distinct, ?_⟩⟩
  · rintro (⟨w, hw, rfl⟩ | hheld)
    · exact h.good.inUse w hw
    · exact (h.good.held i hheld).1
  · intro w hw hheld
    exact (h.good.held w.surf hheld).2 w hw rfl

/-- What the windows and the canvases of a system give for `Covered`. -/
def State.Covered (s : State) (held : Int → Prop) : Prop :=
  ∀ i, InUse s.gfx.canvas i → (∃ w ∈ s.windows, w.surf = i) ∨ held i

theorem covered_focus (hids : (s.windows.map Window.id).Nodup) (h : s.Covered held) (id : Nat) :
    (focus font id s).Covered held := by
  intro i hi
  rcases h i ((inUse_congr (target_focus font id s)).mp hi) with ⟨w, hw, hsurf⟩ | hheld
  · exact Or.inl ⟨w, (focus_perm font id hids).mem_iff.mpr hw, hsurf⟩
  · exact Or.inr hheld

theorem covered_close (hgood : Good s held) (h : s.Covered held) (id : Nat) : (close font id s).Covered held := by
  cases hw : s.window id with
  | none =>
      unfold close
      rw [hw]
      exact h
  | some w =>
      obtain ⟨huse, hwin⟩ := close_spec font hgood hw
      intro i hi
      obtain ⟨hi, hne⟩ := (huse i).mp hi
      rcases h i hi with ⟨x, hx, rfl⟩ | hheld
      · refine Or.inl ⟨x, (hwin x).mpr ⟨hx, fun hid => hne ?_⟩, rfl⟩
        obtain ⟨hmem, hwid⟩ := mem_of_window hw
        rw [List.inj_on_of_nodup_map hgood.ids hx hmem (hid.trans hwid.symm)]
      · exact Or.inr hheld

theorem covered_dragTo (h : s.Covered held) : (dragTo s).Covered held := by
  unfold dragTo
  cases s.drag with
  | none => exact h
  | some d =>
      obtain ⟨id, ox, oy⟩ := d
      intro i hi
      have hold : InUse (move id (s.pointer.1 - ox) (s.pointer.2 - oy) s).gfx.canvas i :=
        (inUse_congr (target_restack _)).mp hi
      rcases h i hold with ⟨w, hw, rfl⟩ | hheld
      · refine Or.inl ⟨_, List.mem_map.mpr ⟨w, hw, rfl⟩, ?_⟩
        split_ifs <;> rfl
      · exact Or.inr hheld

/-- A new window takes the surface that was made for it. -/
theorem covered_newWindow {held' : Int → Prop} (win : Window) (hbase : Base s held) (hid : win.id = s.next)
    {g : Gfx.State} (h : ∀ i, InUse g.canvas i → InUse s.gfx.canvas i ∨ i = win.surf ∨ held' i)
    (hs : s.Covered held') :
    (focus font win.id { s with next := s.next + 1, windows := s.windows ++ [win], gfx := g }).Covered held' := by
  refine covered_focus (hbase.ids_append hid) ?_ win.id
  intro i hi
  rcases h i hi with hi | rfl | hheld
  · rcases hs i hi with ⟨w, hw, hsurf⟩ | hheld
    · exact Or.inl ⟨w, List.mem_append_left _ hw, hsurf⟩
    · exact Or.inr hheld
  · exact Or.inl ⟨win, List.mem_append_right _ List.mem_cons_self, rfl⟩
  · exact Or.inr hheld

theorem covered_openWindow (hgood : Good s held) (h : s.Covered held) (o : OpenOpts) (granted : Bool) :
    (openWindow font o granted s).2.Covered held := by
  unfold openWindow
  dsimp only
  generalize 2 * border + o.cols * (o.scale * fontSize) = w
  generalize border + tabH + border + o.rows * (o.scale * fontSize) + border = h'
  rcases surface_cases granted w h' s.gfx with hnone | ⟨i, t, hlo, hhi, hfree, hsome⟩
  · rw [hnone]
    exact h
  · rw [hsome]
    refine covered_newWindow ⟨s.next, i, _, _, _, _, _, true⟩ hgood.toBase rfl (fun j hj => ?_) h
    exact ((inUse_surfaceNew hlo hhi t).mp hj).imp_right Or.inl

/-! ### `canvas!` -/

/-- `canvas!` finds two free numbers and can make both surfaces, or it can make neither. -/
def BothOrNeither (o : CanvasOpts) (granted granted' : Bool) (s : State) : Prop :=
  let r := (canvasLayout o s).1
  o.fullscreen ∧ (o.w = 0 ∨ o.h = 0) ∨ (∀ i, ¬ Free s.gfx.canvas i) ∨
    ¬ Makes granted r.w r.h ∧ ¬ Makes granted' o.w o.h ∨
      Makes granted r.w r.h ∧ Makes granted' o.w o.h ∧ ∃ i j, i ≠ j ∧ Free s.gfx.canvas i ∧ Free s.gfx.canvas j

theorem surface_isSome (granted : Bool) (w h : Int) (g : Gfx.State) :
    (surface granted w h g).1.isSome = true ↔ Makes granted w h ∧ ∃ i, Free g.canvas i := by
  rcases surface_spec granted w h g with ⟨hnone, hnot⟩ | ⟨hmakes, i, hfree, hsome⟩
  · rw [hnone]
    exact ⟨fun h => (nomatch h), fun h => absurd h hnot⟩
  · rw [hsome]
    exact ⟨fun _ => ⟨hmakes, i, hfree⟩, fun _ => rfl⟩

/-- A surface that nobody keeps. -/
theorem not_covered_new (hbase : Base s held) (hlo : 1 ≤ j) (hhi : j < gfxSurfaces)
    (hfree : s.gfx.canvas.surfaces j = none) (t : Gfx.Target) :
    ¬ State.Covered { s with gfx := { s.gfx with canvas := { s.gfx.canvas with
      surfaces := Function.update s.gfx.canvas.surfaces j (some t) } } } held := by
  intro h
  rcases h j ((inUse_surfaceNew hlo hhi t).mpr (Or.inr rfl)) with ⟨w, hw, hsurf⟩ | hheld
  · exact (hbase.inUse w hw).ne_of_free hfree hsurf
  · exact (hbase.held j hheld).1.ne_of_free hfree rfl

/-- `canvas!` throws and loses a surface, throws and loses none, or has both. -/
theorem covered_openCanvas (font : Font) (hgood : Good s held) (h : s.Covered held) (o : CanvasOpts)
    (granted granted' : Bool) :
    (∃ e s', openCanvas font o granted granted' s = (.error e, s') ∧
      (s'.Covered held ↔ BothOrNeither o granted granted' s)) ∨
      ∃ c s', openCanvas font o granted granted' s = (.ok c, s') ∧ BothOrNeither o granted granted' s ∧
        s'.Covered fun i => held i ∨ i = c.surface := by
  unfold openCanvas BothOrNeither
  by_cases hzero : o.fullscreen ∧ (o.w = 0 ∨ o.h = 0)
  · rw [if_pos hzero]
    exact Or.inl ⟨_, s, rfl, fun _ => Or.inl hzero, fun _ => h⟩
  · rw [if_neg hzero]
    dsimp only
    obtain ⟨r, scale⟩ := canvasLayout o s
    dsimp only
    have hfirst := surface_isSome granted r.w r.h s.gfx
    rcases surface_cases granted r.w r.h s.gfx with hnone | ⟨i, t, hlo, hhi, hfree, hsome⟩
    · rw [hnone] at hfirst ⊢
      have hnot := mt hfirst.mpr (fun hsome => nomatch hsome)
      left
      have hsecond := surface_isSome granted' o.w o.h s.gfx
      rcases surface_cases granted' o.w o.h s.gfx with hnone' | ⟨j, t', hlo', hhi', hfree', hsome'⟩
      · rw [hnone'] at hsecond ⊢
        have hnot' := mt hsecond.mpr (fun hsome => nomatch hsome)
        refine ⟨_, _, rfl, fun _ => ?_, fun _ => h⟩
        by_cases hany : ∃ i, Free s.gfx.canvas i
        · exact Or.inr (Or.inr (Or.inl ⟨fun hm => hnot ⟨hm, hany⟩, fun hm => hnot' ⟨hm, hany⟩⟩))
        · exact Or.inr (Or.inl fun i hi => hany ⟨i, hi⟩)
      · rw [hsome'] at hsecond ⊢
        obtain ⟨hmakes', -⟩ := hsecond.mp rfl
        refine ⟨_, _, rfl, fun hcov => ?_, ?_⟩
        · exact absurd hcov (not_covered_new hgood.toBase hlo' hhi' hfree' t')
        · rintro (hz | hall | ⟨-, hnone⟩ | ⟨hmakes, -, -⟩)
          · exact absurd hz hzero
          · exact absurd ⟨hlo', hhi', hfree'⟩ (hall j)
          · exact absurd hmakes' hnone
          · exact absurd ⟨hmakes, j, hlo', hhi', hfree'⟩ hnot
    · rw [hsome] at hfirst ⊢
      obtain ⟨hmakes, -⟩ := hfirst.mp rfl
      have hsecond := surface_isSome granted' o.w o.h { s.gfx with canvas := { s.gfx.canvas with
        surfaces := Function.update s.gfx.canvas.surfaces i (some t) } }
      have hother (x : Int) : Free { s.gfx.canvas with
          surfaces := Function.update s.gfx.canvas.surfaces i (some t) } x ↔ Free s.gfx.canvas x ∧ x ≠ i := by
        unfold Free
        dsimp only
        by_cases hx : x = i
        · rw [hx, Function.update_self]
          exact ⟨fun hf => (nomatch hf.2.2), fun hf => absurd rfl hf.2⟩
        · rw [Function.update_of_ne hx]
          exact ⟨fun hf => ⟨hf, hx⟩, And.left⟩
      dsimp only at hsecond ⊢
      rcases surface_cases granted' o.w o.h { s.gfx with canvas := { s.gfx.canvas with
        surfaces := Function.update s.gfx.canvas.surfaces i (some t) } } with
          hnone' | ⟨j, t', hlo', hhi', hfree', hsome'⟩
      · rw [hnone'] at hsecond ⊢
        have hnot' := mt hsecond.mpr (fun hsome => nomatch hsome)
        refine Or.inl ⟨_, _, rfl, fun hcov => ?_, ?_⟩
        · exact absurd hcov (not_covered_new hgood.toBase hlo hhi hfree t)
        · rintro (hz | hall | ⟨hnone, -⟩ | ⟨-, hmakes', x, y, hne, hx, hy⟩)
          · exact absurd hz hzero
          · exact absurd ⟨hlo, hhi, hfree⟩ (hall i)
          · exact absurd hmakes hnone
          · by_cases hxi : x = i
            · exact absurd ⟨hmakes', y, (hother y).mpr ⟨hy, fun hyi => hne (hxi.trans hyi.symm)⟩⟩ hnot'
            · exact absurd ⟨hmakes', x, (hother x).mpr ⟨hx, hxi⟩⟩ hnot'
      · rw [hsome'] at hsecond ⊢
        obtain ⟨hmakes', -⟩ := hsecond.mp rfl
        obtain ⟨hfreej, hji⟩ := (hother j).mp ⟨hlo', hhi', hfree'⟩
        refine Or.inr ⟨_, _, rfl, Or.inr (Or.inr (Or.inr
          ⟨hmakes, hmakes', i, j, hji.symm, ⟨hlo, hhi, hfree⟩, hfreej⟩)), ?_⟩
        refine covered_newWindow ⟨s.next, i, _, _, _, _, _, _⟩ hgood.toBase rfl (fun x hx => ?_) ?_
        · rcases (inUse_surfaceNew hlo' hhi' t').mp hx with hx | rfl
          · exact ((inUse_surfaceNew hlo hhi t).mp hx).imp_right Or.inl
          · exact Or.inr (Or.inr (Or.inr rfl))
        · intro x hx
          exact (h x hx).imp_right Or.inl

/-! ### Runs -/

/-- `canvas!` gets both surfaces or none. -/
def Whole (sys : System) : Op → Prop
  | .canvas o granted granted' => BothOrNeither o granted granted' sys.wm
  | _ => True

/-- `close-canvas!` is called once for each canvas. -/
def ClosedOnce (sys : System) : Op → Prop
  | .closeCanvas k => k ∉ sys.closed
  | _ => True

theorem ClosedOnce.ownSurface {op : Op} (h : ClosedOnce sys op) : OwnSurface sys op := by
  cases op with
  | closeCanvas k => exact fun _ _ => Or.inl h
  | _ => trivial

/-- The invariant. -/
structure Settled (sys : System) : Prop where
  inv : Inv sys
  covered : Covered sys
  closed : ∀ k ∈ sys.closed, k < sys.canvases.length

theorem Settled.closeCanvas (h : Settled sys) {k : Nat} (hk : k ∉ sys.closed) :
    Settled (sys.step font (.closeCanvas k)) := by
  have hinv : Inv (sys.step font (.closeCanvas k)) := h.inv.step (fun _ _ => Or.inl hk)
  cases hc : sys.canvases[k]? with
  | none =>
      have heq : sys.step font (.closeCanvas k) = sys := by
        simp only [System.step, hc]
      rw [heq]
      exact h
  | some c =>
      simp only [System.step, hc] at hinv ⊢
      have hcov : State.Covered (if (sys.wm.window c.id).isSome then close font c.id sys.wm else sys.wm)
          sys.Held := by
        split_ifs
        · exact covered_close h.inv.good h.covered c.id
        · exact h.covered
      refine ⟨hinv, fun i hi => ?_, fun k' hk' => ?_⟩
      · obtain ⟨hi, hne⟩ := inUse_surfaceFree.mp hi
        rcases hcov i hi with hwin | ⟨k', c', hc', hk', rfl⟩
        · exact Or.inl hwin
        · refine Or.inr ⟨k', c', hc', fun hmem => ?_, rfl⟩
          rcases List.mem_cons.mp hmem with rfl | hmem
          · rw [hc] at hc'
            cases hc'
            exact hne rfl
          · exact hk' hmem
      · rcases List.mem_cons.mp hk' with rfl | hmem
        · exact (List.getElem?_eq_some_iff.mp hc).1
        · exact h.closed k' hmem

theorem Settled.canvas (h : Settled sys) (o : CanvasOpts) (granted granted' : Bool) :
    Covered (sys.step font (.canvas o granted granted')) ↔ BothOrNeither o granted granted' sys.wm := by
  rcases covered_openCanvas font h.inv.good h.covered o granted granted' with
      ⟨e, s', heq, hiff⟩ | ⟨c, s', heq, hboth, hcov⟩
  · simp only [System.step, heq]
    exact hiff
  · simp only [System.step, heq]
    refine ⟨fun _ => hboth, fun _ i hi => ?_⟩
    rcases hcov i hi with hwin | ⟨k, c', hc', hk, hsurf⟩ | hnew
    · exact Or.inl hwin
    · have hlt := (List.getElem?_eq_some_iff.mp hc').1
      exact Or.inr ⟨k, c', (List.getElem?_append_left hlt).trans hc', hk, hsurf⟩
    · refine Or.inr ⟨sys.canvases.length, c, ?_, fun hmem => ?_, hnew.symm⟩
      · exact List.getElem?_concat_length
      · exact Nat.lt_irrefl _ (h.closed _ hmem)

theorem closed_canvas (h : ∀ k ∈ sys.closed, k < sys.canvases.length) (o : CanvasOpts) (granted granted' : Bool) :
    ∀ k ∈ (sys.step font (.canvas o granted granted')).closed,
      k < (sys.step font (.canvas o granted granted')).canvases.length := by
  cases heq : openCanvas font o granted granted' sys.wm with
  | mk out wm =>
      cases out with
      | error e =>
          simp only [System.step, heq]
          exact h
      | ok c =>
          simp only [System.step, heq]
          intro k hk
          show k < (sys.canvases ++ [c]).length
          rw [List.length_append]
          exact Nat.lt_add_right _ (h k hk)

theorem Settled.step (h : Settled sys) {op : Op} (honce : ClosedOnce sys op) (hwhole : Whole sys op) :
    Settled (sys.step font op) := by
  have hinv : Inv (sys.step font op) := h.inv.step honce.ownSurface
  have hgood := h.inv.good
  cases op with
  | openWindow o granted => exact ⟨hinv, covered_openWindow hgood h.covered o granted, h.closed⟩
  | canvas o granted granted' =>
      exact ⟨hinv, (h.canvas o granted granted').mpr hwhole, closed_canvas h.closed _ _ _⟩
  | close id => exact ⟨hinv, covered_close hgood h.covered id, h.closed⟩
  | closeFocused =>
      refine ⟨hinv, ?_, h.closed⟩
      show (closeFocused font sys.wm).Covered sys.Held
      unfold closeFocused
      cases sys.wm.focused with
      | none => exact h.covered
      | some w => exact covered_close hgood h.covered w.id
  | closeCanvas k => exact h.closeCanvas honce
  | focus id => exact ⟨hinv, covered_focus hgood.ids h.covered id, h.closed⟩
  | nextWindow =>
      refine ⟨hinv, ?_, h.closed⟩
      show (nextWindow font sys.wm).Covered sys.Held
      unfold nextWindow
      split
      · exact covered_focus hgood.ids h.covered _
      · exact h.covered
  | dragTo pointer drag => exact ⟨hinv, covered_dragTo h.covered, h.closed⟩

/-- A throwing `canvas!` that keeps a surface is seen at once. -/
theorem Settled.whole (h : Settled sys) {op : Op} (hcov : Covered (sys.step font op)) : Whole sys op := by
  cases op with
  | canvas o granted granted' => exact (h.canvas o granted granted').mp hcov
  | _ => trivial

/-- Surfaces are accounted for after each call. -/
def AlwaysAccounted (font : Font) (sys : System) (ops : List Op) : Prop :=
  ∀ pre, pre <+: ops → Accounted (sys.run font pre)

theorem Settled.alwaysAccounted_iff (h : Settled sys) {ops : List Op} (honce : Along font ClosedOnce sys ops) :
    AlwaysAccounted font sys ops ↔ Along font Whole sys ops := by
  have hself : Accounted sys := (accounted_iff h.inv).mpr h.covered
  induction ops generalizing sys with
  | nil =>
      refine ⟨fun _ => trivial, fun _ pre hpre => ?_⟩
      rw [List.prefix_nil.mp hpre]
      exact hself
  | cons op ops ih =>
      have hinv : Inv (sys.step font op) := h.inv.step honce.1.ownSurface
      constructor
      · intro hall
        have hnext : Accounted (sys.step font op) := hall [op] (List.prefix_append [op] ops)
        have hwhole := h.whole ((accounted_iff hinv).mp hnext)
        refine ⟨hwhole, (ih (h.step honce.1 hwhole) honce.2 hnext).mp fun pre hpre => ?_⟩
        exact hall (op :: pre) ((List.prefix_cons_inj op).mpr hpre)
      · rintro ⟨hwhole, hrest⟩ pre hpre
        have hnext : Settled (sys.step font op) := h.step honce.1 hwhole
        cases pre with
        | nil => exact hself
        | cons op' pre =>
            obtain ⟨rfl, hpre'⟩ := List.cons_prefix_cons.mp hpre
            exact (ih hnext honce.2 ((accounted_iff hnext.inv).mpr hnext.covered)).mpr hrest pre hpre'

/-- `beer.wm` loaded, before anything has made a surface. -/
structure Fresh (sys : System) : Prop extends Booted sys where
  surfaces : ∀ i, sys.wm.gfx.canvas.surfaces i = none

theorem settled_fresh (h : Fresh sys) : Settled sys := by
  refine ⟨inv_booted h.toBooted, fun i hi => ?_, fun k hk => ?_⟩
  · have hexists := hi.exists_
    rw [h.surfaces] at hexists
    cases hexists
  · rw [h.closed] at hk
    cases hk

/-- As long as every canvas is closed once, no surface is lost or shared if and only if no `canvas!` gets one of
the two it needs. -/
theorem accounted_of_run_iff (font : Font) {sys : System} (hfresh : Fresh sys) (ops : List Op)
    (honce : Along font ClosedOnce sys ops) : AlwaysAccounted font sys ops ↔ Along font Whole sys ops :=
  (settled_fresh hfresh).alwaysAccounted_iff honce

theorem fresh_bootSystem : Fresh bootSystem := ⟨booted_bootSystem, fun _ => rfl⟩

/-- A canvas is made and closed. -/
def openClose : List Op := [.canvas { w := 1, h := 1, scale := 1 } true true, .closeCanvas 0]

theorem accounted_openClose : AlwaysAccounted blank bootSystem openClose := by
  refine (accounted_of_run_iff blank fresh_bootSystem openClose ⟨trivial, List.not_mem_nil, trivial⟩).mpr
    ⟨Or.inr (Or.inr (Or.inr ⟨⟨rfl, by decide, by decide⟩, ⟨rfl, by decide, by decide⟩, 1, 2, by decide, ?_, ?_⟩)),
      trivial, trivial⟩
  · exact ⟨by decide, by decide, rfl⟩
  · exact ⟨by decide, by decide, rfl⟩

/-- A canvas without width: there is room for its window, and none for what is drawn on. -/
def flat : CanvasOpts := { w := 0, h := 10, scale := 1 }

theorem not_accounted_flat : ¬ AlwaysAccounted blank bootSystem [.canvas flat true true] := by
  intro h
  have hsettled := settled_fresh fresh_bootSystem
  have hacc : Accounted (bootSystem.step blank (.canvas flat true true)) := h _ (List.prefix_refl _)
  have hcov := (accounted_iff (hsettled.inv.canvas flat true true)).mp hacc
  rcases (hsettled.canvas flat true true).mp hcov with hzero | hall | ⟨hneither, -⟩ | ⟨-, hboth, -⟩
  · exact absurd hzero.1 (by decide)
  · exact hall 1 ⟨by decide, by decide, rfl⟩
  · exact hneither ⟨rfl, by decide, by decide⟩
  · exact absurd hboth.2.1.1 (by decide)

end Beeros.Wm
