import Beeros.BeermacsDisplay
import Beeros.Tty

/-! `browse` of `beer.help` (`lib/beer/help.beer`) on a terminal of `beer.term`: only the rows that changed are
rewritten. What the pages are may be anything, and may change from one keystroke to the next. -/

namespace Beeros.Help

open Beerlang Interleave
open Beermacs (str csi pad Row rewritten withoutSgr)
open Term (Writes ReadsDecimal Printable csiText paramText)
open Tty (Key Keystroke)

/-- What a page is about. -/
inductive Target
  | home
  | load (ns : Str)
  | ns (ns : Str)
  | name (ns nm : Str)
  | doc (file : Str)
  | search (pat : Str)
  deriving DecidableEq

structure Line where
  text : Str
  target : Option Target

structure Page where
  title : Str
  lines : List Line

/-- `st` of the inner loop. -/
structure View where
  page : Page
  sel : Nat
  top : Nat

/-! ### Rows -/

/-- Text cut to fit a row of a terminal of `w` columns, of which there are two at least. -/
def fit (text : Str) (w : Nat) : Str := if w - 1 < text.length then text.take (w - 1 - 1) ++ ['$'] else text

def inverse (s : Str) : Str := csi ++ str "7m" ++ s ++ csi ++ str "0m"

def underlined (s : Str) : Str := csi ++ str "4m" ++ s ++ csi ++ str "0m"

def bodyRow (v : View) (cols r : Nat) : Str :=
  match v.page.lines[r]? with
  | none => []
  | some l =>
      if r = v.sel then inverse (pad (fit l.text cols) (cols - 1))
      else if l.target.isSome then underlined (fit l.text cols)
      else fit l.text cols

def keysText : Str := str " RET open  DEL back  / search  g home  q quit"

/-- `new` of `render!`. -/
def frame (v : View) (prompt : Option Str) (cols rows : Nat) : List Str :=
  [inverse (pad (fit (str " " ++ v.page.title) cols) (cols - 1))] ++
    (List.range (rows - 2)).map (fun i => bodyRow v cols (v.top + i)) ++
    [pad (fit (prompt.getD keysText) cols) (cols - 1)]

/-! ### Keys -/

/-- A string or a keyword. -/
def keyOf (k : Keystroke) : Option (Str ⊕ Key) :=
  match k.char with
  | some c => some (.inl c)
  | none => k.key.map .inr

def View.move (v : View) (d : Int) : View :=
  { v with sel := (max 0 (min ((max v.page.lines.length 1 : Nat) - 1 : Int) (v.sel + d))).toNat }

/-- The head of the inner loop: the selected line is on the screen. There are three rows at least. -/
def View.scroll (v : View) (h : Nat) : View :=
  { v with top := if v.sel < v.top then v.sel else if v.top + h ≤ v.sel then v.sel - (h - 1) else v.top }

def firstLink (page : Page) : Nat :=
  ((List.range page.lines.length).find? fun i => (page.lines[i]?.bind Line.target).isSome).getD 0

/-- What a keystroke does outside a search. -/
inductive Result
  | quit
  /-- Back with the selection, if it is kept. -/
  | go (target : Target) (sel : Option Nat)
  | back
  | search
  | stay (v : View)

def onKey (v : View) (h : Nat) (k : Keystroke) : Result :=
  let c := keyOf k
  if c = some (.inl (str "q")) ∨ c = some (.inr .escape) then .quit
  else if c = some (.inl (str "n")) ∨ c = some (.inr .down) ∨ c = some (.inl (str "j")) then .stay (v.move 1)
  else if c = some (.inl (str "p")) ∨ c = some (.inr .up) ∨ c = some (.inl (str "k")) then .stay (v.move (-1))
  else if c = some (.inl (str " ")) ∨ c = some (.inr .pageDown) then .stay (v.move (h - 1))
  else if c = some (.inl (str "b")) ∨ c = some (.inr .pageUp) then .stay (v.move (1 - h))
  else if c = some (.inl (str "g")) then .go .home none
  else if c = some (.inr .backspace) ∨ c = some (.inl (str "l")) then .back
  else if c = some (.inl (str "/")) then .search
  else if c = some (.inr .enter) then
    match v.page.lines[v.sel]?.bind Line.target with
    | some target => .go target (some v.sel)
    | none => .stay v
  else .stay v

/-- What a keystroke does in `read-search`. -/
inductive Searched
  | found (pat : Str)
  | cancelled
  | more (pat : Str)

def onSearchKey (pat : Str) (k : Keystroke) : Searched :=
  match keyOf k with
  | some (.inr key) =>
      if key = .enter then .found pat
      else if key = .escape ∨ key = .keyword ['g'] ∧ (k.mods.map Tty.Mods.ctrl).getD false then .cancelled
      else if key = .backspace then .more pat.dropLast
      else .more pat
  | some (.inl c) => .more (pat ++ c)
  | none => .more pat

/-! ### The loops -/

/-- The browser waiting for a key. -/
structure Browser where
  /-- The pages that `DEL` goes back to, with the line that was selected if it is kept; the next one first. -/
  stack : List (Target × Option Nat)
  target : Target
  view : View
  /-- The text of `read-search`. -/
  search : Option Str
  /-- The rows drawn last. -/
  old : List Str

def Browser.frame (b : Browser) (cols rows : Nat) : List Str :=
  Help.frame b.view (b.search.map fun pat => str " search: " ++ pat) cols rows

/-- `render!`: what it writes, and the new rows. -/
def Browser.render (b : Browser) (cols rows : Nat) : Str × Browser :=
  (csi ++ str "?25l" ++ Beermacs.Editor.changedRows b.old (b.frame cols rows), { b with old := b.frame cols rows })

/-- Round the inner loop. -/
def Browser.loop (b : Browser) (v : View) (cols rows : Nat) : Str × Browser :=
  Browser.render { b with view := v.scroll (rows - 2), search := none } cols rows

/-- Round the outer loop. -/
def Browser.visit (b : Browser) (page : Target → Page) (stack : List (Target × Option Nat)) (target : Target)
    (sel : Option Nat) (cols rows : Nat) : Str × Browser :=
  Browser.loop { b with stack := stack, target := target }
    ⟨page target, sel.getD (firstLink (page target)), 0⟩ cols rows

/-- Round the loop of `read-search`. -/
def Browser.prompt (b : Browser) (pat : Str) (cols rows : Nat) : Str × Browser :=
  Browser.render { b with search := some pat } cols rows

/-- A keystroke, and the pages as they are then. -/
structure Event where
  key : Keystroke
  page : Target → Page

/-- A keystroke, up to the next one; `none` when the browser ends. -/
def Browser.step (b : Browser) (e : Event) (cols rows : Nat) : Option (Str × Browser) :=
  match b.search with
  | some pat =>
      match onSearchKey pat e.key with
      | .found pat => b.visit e.page ((b.target, none) :: b.stack) (.search pat) none cols rows
      | .cancelled => b.loop b.view cols rows
      | .more pat => b.prompt pat cols rows
  | none =>
      match onKey b.view (rows - 2) e.key with
      | .quit => none
      | .go target sel => b.visit e.page ((b.target, sel) :: b.stack) target none cols rows
      | .back =>
          match b.stack with
          | [] => b.visit e.page [] b.target none cols rows
          | (target, sel) :: stack => b.visit e.page stack target sel cols rows
      | .search => b.prompt [] cols rows
      | .stay v => b.loop v cols rows

/-- The terminal, the surfaces, and the browser while it runs. -/
structure Screen where
  term : Term.State
  gfx : Gfx.State
  browser : Option Browser

/-- What is written is drawn. -/
def Screen.write (readString : Str → Except Error (Option Int)) (s : Screen) (out : Str) (browser : Option Browser) :
    Option Screen :=
  match Term.feed readString s.term out s.gfx with
  | .error _ => none
  | .ok (term, gfx) => some ⟨term, gfx, browser⟩

/-- `browse`, up to the first keystroke. -/
def browse (readString : Str → Except Error (Option Int)) (term : Term.State) (gfx : Gfx.State) (page : Target → Page)
    (target : Target) : Option Screen :=
  let start : Browser := ⟨[], target, ⟨page target, 0, 0⟩, none, []⟩
  let (out, b) := start.visit page [] target none term.cols term.rows
  (Screen.write readString ⟨term, gfx, none⟩ (csi ++ str "H" ++ csi ++ str "2J") none).bind fun s =>
    s.write readString out (some b)

def step (readString : Str → Except Error (Option Int)) (e : Event) (s : Screen) : Option Screen :=
  match s.browser with
  | none => some s
  | some b =>
      match b.step e s.term.cols s.term.rows with
      | none => s.write readString (csi ++ str "0m" ++ csi ++ str "H" ++ csi ++ str "2J" ++ csi ++ str "?25h") none
      | some (out, b') => s.write readString out (some b')


/-! ### The rows fit -/

variable {readString : Str → Except Error (Option Int)} {b : Browser} {v : View} {cols rows : Nat} {text : Str}

/-- All that a page says is printable. -/
structure Page.Legible (page : Page) : Prop where
  title : ∀ c ∈ page.title, Printable c
  line : ∀ l ∈ page.lines, ∀ c ∈ l.text, Printable c

/-- The pages are printable, and what is typed. -/
structure Event.Legible (e : Event) : Prop where
  page : ∀ target, (e.page target).Legible
  char : ∀ s, e.key.char = some s → ∀ c ∈ s, Printable c

theorem fit_spec (htext : ∀ c ∈ text, Printable c) (hcols : 2 ≤ cols) :
    (fit text cols).length ≤ cols - 1 ∧ ∀ c ∈ fit text cols, Printable c := by
  unfold fit
  split_ifs with hlong
  · constructor
    · rw [List.length_append, List.length_take, List.length_singleton]
      omega
    · intro c hc
      rcases List.mem_append.mp hc with hc | hc
      · exact htext c (List.mem_of_mem_take hc)
      · rw [List.mem_singleton.mp hc]
        decide
  · exact ⟨not_lt.mp hlong, htext⟩

/-- A text that is cut to fit and padded. -/
theorem pad_fit_spec (htext : ∀ c ∈ text, Printable c) (hcols : 2 ≤ cols) :
    (pad (fit text cols) (cols - 1)).length ≤ cols - 1 ∧ ∀ c ∈ pad (fit text cols) (cols - 1), Printable c := by
  obtain ⟨hlen, hchars⟩ := Beermacs.pad_spec (fit_spec htext hcols).2 (cols - 1)
  exact ⟨Nat.le_of_eq hlen, hchars⟩

theorem bodyRow_row (hpage : v.page.Legible) (hcols : 2 ≤ cols) (r : Nat) :
    ∃ s, Row (cols - 1) (bodyRow v cols r) s := by
  unfold bodyRow
  cases hl : v.page.lines[r]? with
  | none => exact ⟨[], .text (List.forall_mem_nil _) (Nat.zero_le _)⟩
  | some l =>
      have htext := hpage.line l (List.mem_of_getElem? hl)
      obtain ⟨hlen, hchars⟩ := fit_spec htext hcols
      dsimp only
      split_ifs
      · obtain ⟨hlen', hchars'⟩ := pad_fit_spec htext hcols
        exact ⟨_, .inverse hchars' hlen'⟩
      · exact ⟨_, .underlined hchars hlen⟩
      · exact ⟨_, .text hchars hlen⟩

theorem length_frame (v : View) (prompt : Option Str) (cols : Nat) (hrows : 3 ≤ rows) :
    (frame v prompt cols rows).length = rows := by
  unfold frame
  rw [List.length_append, List.length_append, List.length_map, List.length_range, List.length_singleton,
    List.length_singleton]
  omega

/-- The rows of a legible page leave the last column free. -/
theorem frame_row {prompt : Option Str} (hpage : v.page.Legible) (hprompt : ∀ p, prompt = some p → ∀ c ∈ p, Printable c)
    (hcols : 2 ≤ cols) : ∀ line ∈ frame v prompt cols rows, ∃ s, Row (cols - 1) line s := by
  intro line hline
  rcases List.mem_append.mp hline with hline | hline
  · rcases List.mem_append.mp hline with hline | hline
    · have htitle : ∀ c ∈ str " " ++ v.page.title, Printable c := by
        intro c hc
        rcases List.mem_append.mp hc with hc | hc
        · exact Term.printable_of_all (by decide) c hc
        · exact hpage.title c hc
      obtain ⟨hlen, hchars⟩ := pad_fit_spec htitle hcols
      rw [List.mem_singleton.mp hline]
      exact ⟨_, .inverse hchars hlen⟩
    · obtain ⟨i, -, rfl⟩ := List.mem_map.mp hline
      exact bodyRow_row hpage hcols _
  · have htext : ∀ c ∈ prompt.getD keysText, Printable c := by
      cases prompt with
      | none => exact (Term.printable_of_all (by decide) : ∀ c ∈ keysText, Printable c)
      | some p => exact hprompt p rfl
    obtain ⟨hlen, hchars⟩ := pad_fit_spec htext hcols
    rw [List.mem_singleton.mp hline]
    exact ⟨_, .text hchars hlen⟩

/-! ### What the browser keeps -/

/-- The selected line is on the screen. -/
def View.InView (v : View) (h : Nat) : Prop := v.top ≤ v.sel ∧ v.sel < v.top + h

/-- The browser waits for a key, on `rows` rows of `cols` columns. -/
structure Browser.Good (b : Browser) (cols rows : Nat) : Prop where
  page : b.view.page.Legible
  search : ∀ pat, b.search = some pat → ∀ c ∈ pat, Printable c
  sel : b.view.InView (rows - 2)
  old : b.old = b.frame cols rows

/-- A text is written, and the browser waits again. -/
structure Browser.Renders (b : Browser) (out : Str) (b' : Browser) (cols rows : Nat) : Prop where
  good : b'.Good cols rows
  out : out = csi ++ str "?25l" ++ Beermacs.Editor.changedRows b.old b'.old

theorem inView_scroll (v : View) {h : Nat} (hh : 0 < h) : (v.scroll h).InView h := by
  unfold View.InView View.scroll
  dsimp only
  split_ifs <;> omega

theorem Browser.Good.frame_row (h : b.Good cols rows) (hcols : 2 ≤ cols) :
    ∀ line ∈ b.frame cols rows, ∃ s, Row (cols - 1) line s := by
  refine Help.frame_row h.page (fun p hp => ?_) hcols
  obtain ⟨pat, hpat, rfl⟩ := Option.map_eq_some_iff.mp hp
  intro c hc
  rcases List.mem_append.mp hc with hc | hc
  · exact (Term.printable_of_all (by decide) : ∀ c ∈ str " search: ", Printable c) c hc
  · exact h.search pat hpat c hc

theorem renders_loop (hpage : v.page.Legible) (hrows : 3 ≤ rows) :
    b.Renders (b.loop v cols rows).1 (b.loop v cols rows).2 cols rows where
  good :=
    { page := hpage
      search := fun _ h => absurd h (Option.some_ne_none _).symm
      sel := inView_scroll v (by omega)
      old := rfl }
  out := rfl

theorem renders_visit {page : Target → Page} {target : Target} (hpage : (page target).Legible) (hrows : 3 ≤ rows)
    (stack : List (Target × Option Nat)) (sel : Option Nat) :
    b.Renders (b.visit page stack target sel cols rows).1 (b.visit page stack target sel cols rows).2 cols rows where
  good := (renders_loop hpage hrows).good
  out := rfl

theorem renders_prompt (hb : b.Good cols rows) {pat : Str} (hpat : ∀ c ∈ pat, Printable c) :
    b.Renders (b.prompt pat cols rows).1 (b.prompt pat cols rows).2 cols rows where
  good :=
    { page := hb.page
      search := fun _ h => Option.some.inj h ▸ hpat
      sel := hb.sel
      old := rfl }
  out := rfl

/-- What is typed in `read-search` is printable. -/
theorem onSearchKey_more {pat pat' : Str} {k : Keystroke} (hk : ∀ s, k.char = some s → ∀ c ∈ s, Printable c)
    (hpat : ∀ c ∈ pat, Printable c) (h : onSearchKey pat k = .more pat') : ∀ c ∈ pat', Printable c := by
  unfold onSearchKey keyOf at h
  cases hc : k.char with
  | some s =>
      rw [hc] at h
      cases h
      intro c hmem
      rcases List.mem_append.mp hmem with hmem | hmem
      · exact hpat c hmem
      · exact hk s hc c hmem
  | none =>
      rw [hc] at h
      cases hkey : k.key with
      | none =>
          rw [hkey] at h
          cases h
          exact hpat
      | some key =>
          rw [hkey] at h
          dsimp only [Option.map_some] at h
          split_ifs at h
          · cases h
            exact fun c hc => hpat c (List.dropLast_subset pat hc)
          · cases h
            exact hpat

/-- What a keystroke can do outside a search: the browser stays on its page, goes home, or follows the selected link. -/
inductive Keyed (v : View) (k : Keystroke) : Result → Prop
  | quit : Keyed v k .quit
  | home (hk : keyOf k ≠ some (.inr .enter)) : Keyed v k (.go .home none)
  | follow (hk : keyOf k = some (.inr .enter)) (target : Target) : Keyed v k (.go target (some v.sel))
  | back : Keyed v k .back
  | search : Keyed v k .search
  | stay {v' : View} (hpage : v'.page = v.page) : Keyed v k (.stay v')

theorem keyed_onKey (v : View) (h : Nat) (k : Keystroke) : Keyed v k (onKey v h k) := by
  unfold onKey
  refine iteInduction (fun _ => .quit) fun _ => ?_
  refine iteInduction (fun _ => .stay rfl) fun _ => ?_
  refine iteInduction (fun _ => .stay rfl) fun _ => ?_
  refine iteInduction (fun _ => .stay rfl) fun _ => ?_
  refine iteInduction (fun _ => .stay rfl) fun _ => ?_
  refine iteInduction (fun hg => .home ?_) fun _ => ?_
  · rw [hg]
    exact Option.some_injective _ |>.ne Sum.inl_ne_inr
  refine iteInduction (fun _ => .back) fun _ => ?_
  refine iteInduction (fun _ => .search) fun _ => ?_
  refine iteInduction (fun henter => ?_) fun _ => .stay rfl
  cases v.page.lines[v.sel]?.bind Line.target with
  | none => exact .stay rfl
  | some target => exact .follow henter target

theorem onKey_stay {h : Nat} {k : Keystroke} {v' : View} (hv : onKey v h k = .stay v') : v'.page = v.page := by
  have hkeyed := keyed_onKey v h k
  rw [hv] at hkeyed
  cases hkeyed with
  | stay hpage => exact hpage

/-- What a keystroke does to the browser. -/
theorem step_renders (hb : b.Good cols rows) {e : Event} (he : e.Legible) (hrows : 3 ≤ rows) {out : Str} {b' : Browser}
    (h : b.step e cols rows = some (out, b')) : b.Renders out b' cols rows := by
  unfold Browser.step at h
  cases hsearch : b.search with
  | some pat =>
      rw [hsearch] at h
      dsimp only at h
      cases hkey : onSearchKey pat e.key with
      | found pat' =>
          rw [hkey] at h
          cases h
          exact renders_visit (he.page _) hrows _ _
      | cancelled =>
          rw [hkey] at h
          cases h
          exact renders_loop hb.page hrows
      | more pat' =>
          rw [hkey] at h
          cases h
          exact renders_prompt hb (onSearchKey_more he.char (hb.search pat hsearch) hkey)
  | none =>
      rw [hsearch] at h
      dsimp only at h
      cases hkey : onKey b.view (rows - 2) e.key with
      | quit =>
          rw [hkey] at h
          cases h
      | go target sel =>
          rw [hkey] at h
          cases h
          exact renders_visit (he.page _) hrows _ _
      | back =>
          rw [hkey] at h
          dsimp only at h
          cases hstack : b.stack with
          | nil =>
              rw [hstack] at h
              cases h
              exact renders_visit (he.page _) hrows _ _
          | cons t stack =>
              rw [hstack] at h
              cases h
              exact renders_visit (he.page _) hrows _ _
      | search =>
          rw [hkey] at h
          cases h
          exact renders_prompt hb (List.forall_mem_nil _)
      | stay v =>
          rw [hkey] at h
          cases h
          have hpage : v.page.Legible := onKey_stay hkey ▸ hb.page
          exact renders_loop hpage hrows

/-! ### The way back -/

/-- The next browser. -/
def Browser.next (cols rows : Nat) (e : Event) (b : Browser) : Option Browser := (b.step e cols rows).map Prod.snd

/-- The line that is kept for the way back: that of the link that `RET` follows. -/
def Browser.kept (b : Browser) (e : Event) : Option Nat :=
  if b.search = none ∧ keyOf e.key = some (.inr .enter) then some b.view.sel else none

/-- What a keystroke does to the stack of pages. -/
inductive Stacked (e : Event) (b b' : Browser) : Prop
  | stay (target : b'.target = b.target) (stack : b'.stack = b.stack)
  /-- On to another page. -/
  | push (stack : b'.stack = (b.target, b.kept e) :: b.stack)
  /-- Back, to the line that was kept or to the first link. -/
  | pop (sel : Option Nat) (stack : b.stack = (b'.target, sel) :: b'.stack)
      (line : b'.view.sel = sel.getD (firstLink b'.view.page))

variable {b' : Browser} {e : Event}

theorem onKey_go {h : Nat} {k : Keystroke} {target : Target} {sel : Option Nat} (hgo : onKey v h k = .go target sel) :
    sel = if keyOf k = some (.inr .enter) then some v.sel else none := by
  have hkeyed := keyed_onKey v h k
  rw [hgo] at hkeyed
  cases hkeyed with
  | home hk => exact (if_neg hk).symm
  | follow hk => exact (if_pos hk).symm

theorem stacked_next (h : b.next cols rows e = some b') : Stacked e b b' := by
  obtain ⟨p, hstep, rfl⟩ := Option.map_eq_some_iff.mp h
  unfold Browser.step at hstep
  cases hsearch : b.search with
  | some pat =>
      rw [hsearch] at hstep
      dsimp only at hstep
      cases hkey : onSearchKey pat e.key with
      | found pat' =>
          rw [hkey] at hstep
          cases hstep
          have hkept : b.kept e = none := if_neg fun h => absurd (hsearch.symm.trans h.1) (Option.some_ne_none pat)
          exact .push (by rw [hkept]; rfl)
      | cancelled =>
          rw [hkey] at hstep
          cases hstep
          exact .stay rfl rfl
      | more pat' =>
          rw [hkey] at hstep
          cases hstep
          exact .stay rfl rfl
  | none =>
      rw [hsearch] at hstep
      dsimp only at hstep
      cases hkey : onKey b.view (rows - 2) e.key with
      | quit =>
          rw [hkey] at hstep
          cases hstep
      | go target sel =>
          rw [hkey] at hstep
          cases hstep
          have hkept : b.kept e = sel := by
            rw [onKey_go hkey, Browser.kept]
            exact if_congr (and_iff_right hsearch) rfl rfl
          exact .push (by rw [hkept]; rfl)
      | back =>
          rw [hkey] at hstep
          dsimp only at hstep
          cases hstack : b.stack with
          | nil =>
              rw [hstack] at hstep
              cases hstep
              exact .stay rfl hstack.symm
          | cons t stack =>
              rw [hstack] at hstep
              cases hstep
              exact .pop t.2 hstack rfl
      | search =>
          rw [hkey] at hstep
          cases hstep
          exact .stay rfl rfl
      | stay v =>
          rw [hkey] at hstep
          cases hstep
          exact .stay rfl rfl

/-- While the stack does not get shorter than it is, all of it stays. -/
theorem stack_kept {b₁ : Browser} {es : List Event} {base : List (Target × Option Nat)}
    (hrun : Run (Browser.next cols rows) (fun _ b => base.length ≤ b.stack.length) b es b₁)
    (hlen : base.length ≤ b₁.stack.length) (hbase : base <:+ b.stack) : base <:+ b₁.stack := by
  induction hrun with
  | nil => exact hbase
  | @snoc es e s s' hrun hok hstep ih =>
      have hs := ih hok
      cases stacked_next hstep with
      | stay _ hstack => exact hstack ▸ hs
      | push hstack => exact hstack ▸ hs.trans (List.suffix_cons _ _)
      | pop sel hstack _ =>
          rw [hstack] at hs
          rcases List.suffix_cons_iff.mp hs with rfl | hs
          · rw [List.length_cons] at hlen
            omega
          · exact hs

/-- Whatever is typed on the way, and however the pages change: when the browser first comes back from the pages that it
went on to, it is on the page that it left, on the line that was kept or on the first link, and it goes back from there
as before. -/
theorem back_returns {b₁ b₂ : Browser} {es : List Event} (hleave : b.next cols rows e = some b₁)
    (hon : b.stack.length < b₁.stack.length)
    (hrun : Run (Browser.next cols rows) (fun _ s => b.stack.length < s.stack.length) b₁ es b₂)
    (hback : b₂.stack.length ≤ b.stack.length) :
    b₂.target = b.target ∧ b₂.stack = b.stack ∧ b₂.view.sel = (b.kept e).getD (firstLink b₂.view.page) := by
  have hpush : b₁.stack = (b.target, b.kept e) :: b.stack := by
    cases stacked_next hleave with
    | stay _ hstack => exact absurd hon (by rw [hstack]; exact Nat.lt_irrefl _)
    | push hstack => exact hstack
    | pop _ hstack _ =>
        rw [hstack, List.length_cons] at hon
        omega
  have hbase : b₁.stack.length = b.stack.length + 1 := by rw [hpush, List.length_cons]
  cases hrun with
  | nil => omega
  | @snoc es e' s _ hrun habove hstep =>
      have hkept : b₁.stack <:+ s.stack := by
        refine stack_kept (hrun.mono fun _ _ s hs => ?_) ?_ (List.suffix_refl _)
        · exact hbase.trans_le hs
        · exact hbase.trans_le habove
      cases stacked_next hstep with
      | stay _ hstack =>
          rw [hstack] at hback
          omega
      | push hstack =>
          rw [hstack, List.length_cons] at hback
          omega
      | pop sel hstack hline =>
          have hlen : s.stack.length = b₂.stack.length + 1 := by rw [hstack, List.length_cons]
          have hsame : b₁.stack = s.stack := hkept.eq_of_length_le (by omega)
          rw [hpush, hstack, List.cons.injEq, Prod.mk.injEq] at hsame
          obtain ⟨⟨htarget, hsel⟩, hrest⟩ := hsame
          exact ⟨htarget.symm, hrest.symm, hsel ▸ hline⟩

/-- A page with two links. -/
def homePage : Page where
  title := str "beeros help"
  lines := [⟨str "  beer.fs", some (.ns (str "beer.fs"))⟩, ⟨str "  beer.wm", some (.ns (str "beer.wm"))⟩]

/-- A page without links. -/
def plainPage : Page where
  title := str "namespace beer.fs"
  lines := [⟨str "  ls", none⟩]

def helpPages (target : Target) : Page := if target = .home then homePage else plainPage

def enterKey : Event := ⟨.ofKey .enter Tty.noMods, helpPages⟩

def delKey : Event := ⟨.ofKey .backspace Tty.noMods, helpPages⟩

def atSecondLink : Browser := ⟨[], .home, ⟨helpPages .home, 1, 0⟩, none, []⟩

theorem back_returns_home : ∃ b₁ b₂, atSecondLink.next 40 3 enterKey = some b₁ ∧ b₁.next 40 3 delKey = some b₂ ∧
    b₂.target = .home ∧ b₂.stack = [] ∧ b₂.view.sel = 1 := by
  refine ⟨_, _, rfl, rfl, ?_⟩
  have hleave : atSecondLink.next 40 3 enterKey = some _ := rfl
  exact back_returns hleave (by decide) (.snoc .nil (by decide) (e := delKey) rfl) (by decide)

/-! ### The terminal -/

/-- The terminal takes text, and the rows drawn last stand in it. -/
structure Drawn (term : Term.State) (old : List Str) : Prop where
  ready : term.Ready
  row : ∀ i line, old[i]? = some line → ∀ col, i < term.rows → col < term.cols →
    term.charAt i col = some (rewritten term.cols line col)

theorem Drawn.nil {term : Term.State} (h : term.Ready) : Drawn term [] where
  ready := h
  row := fun _ _ hi => absurd hi (Option.some_ne_none _).symm

/-- The terminal with its cursor hidden. -/
theorem ready_hidden {term : Term.State} (h : term.Ready) : ({ term with drawnCursor := none } : Term.State).Ready :=
  { toGood := h.toGood.cursorAt fun _ hp => absurd hp (Option.some_ne_none _).symm, mode := h.mode, params := h.params }

/-- `write!` of a text. -/
theorem write_ok {s : Screen} {out : Str} {term : Term.State} (hr : s.term.Ready)
    (hw : Writes readString { s.term with drawnCursor := none } out term) (browser : Option Browser) :
    ∃ gfx, s.write readString out browser = some ⟨term.withCursor, gfx, browser⟩ := by
  obtain ⟨gfx, hfeed⟩ := Term.feed_of_writes hr.toGood hw s.gfx
  refine ⟨gfx, ?_⟩
  unfold Screen.write
  rw [hfeed]

/-- The screen shows what the browser drew, and the browser waits for a key if it runs. -/
structure Screen.Good (cols rows : Nat) (s : Screen) : Prop where
  width : s.term.cols = cols
  height : s.term.rows = rows
  ready : s.term.Ready
  browser : ∀ b, s.browser = some b → b.Good cols rows ∧ Drawn s.term b.old

theorem good_waits {s : Screen} {out : Str} {b' : Browser} (hread : ReadsDecimal readString)
    (hs : Drawn s.term b.old) (h : b.Renders out b' s.term.cols s.term.rows) (hcols : 2 ≤ s.term.cols)
    (hrows : 3 ≤ s.term.rows) :
    ∃ s', s.write readString out (some b') = some s' ∧ s'.Good s.term.cols s.term.rows := by
  have hr := ready_hidden hs.ready
  have hhide := Term.writes_cursor hread hr (.inl rfl)
  have hlines : ∀ line ∈ b'.old, ∃ t, Row s.term.cols line t := by
    intro line hline
    rw [h.good.old] at hline
    obtain ⟨t, ht⟩ := h.good.frame_row hcols line hline
    exact ⟨t, ht.mono (Nat.sub_le _ 1)⟩
  have hlen : b'.old.length = s.term.rows := by
    rw [h.good.old]
    exact length_frame b'.view _ _ hrows
  obtain ⟨term, hw, hchars⟩ := Beermacs.writes_changedRows hread (hhide.ready hr) hlines hlen hs.row
  have hall := hhide.append hw
  obtain ⟨gfx, hwrite⟩ := write_ok hs.ready hall (some b')
  have hscreen := hall.goes.screen
  have hcursor := Term.sameScreen_withCursor term
  have hcols' : term.withCursor.cols = s.term.cols := hcursor.cols.trans hscreen.cols
  have hrows' : term.withCursor.rows = s.term.rows := hcursor.rows.trans hscreen.rows
  have hready := Term.ready_withCursor (hall.ready hr)
  refine ⟨⟨term.withCursor, gfx, some b'⟩, ?_, hcols', hrows', hready, fun b₁ hb₁ => ?_⟩
  · rw [h.out]
    exact hwrite
  · obtain rfl : b' = b₁ := Option.some.inj hb₁
    refine ⟨h.good, hready, fun i line hi col _ hcol => ?_⟩
    rw [Term.charAt_withCursor, hcols']
    exact hchars i line hi col (hcols' ▸ hcol)

/-- `CSI H` and `CSI 2 J`. -/
theorem writes_clear {term : Term.State} (hread : ReadsDecimal readString) (hr : term.Ready) :
    ∃ term', Writes readString term (csi ++ str "H" ++ csi ++ str "2J") term' := by
  have hhome : Writes readString term (csiText [] 'H') (Term.moveTo term 0 0) := Term.writes_home hr
  have hclear := Term.writes_eraseAll hread (hhome.ready hr)
  exact ⟨_, hhome.append hclear⟩

/-- The browser is not there, or no more. -/
theorem good_none {s : Screen} {out : Str} {term : Term.State} (hr : s.term.Ready)
    (hw : Writes readString { s.term with drawnCursor := none } out term) :
    ∃ s', s.write readString out none = some s' ∧ s'.Good s.term.cols s.term.rows := by
  obtain ⟨gfx, hwrite⟩ := write_ok hr hw none
  have hscreen := hw.goes.screen
  have hcursor := Term.sameScreen_withCursor term
  refine ⟨_, hwrite, hcursor.cols.trans hscreen.cols, hcursor.rows.trans hscreen.rows, ?_, fun b hb => ?_⟩
  · exact Term.ready_withCursor (hw.ready (ready_hidden hr))
  · exact absurd hb (Option.some_ne_none _).symm

theorem good_browse (hread : ReadsDecimal readString) {term : Term.State} (hr : term.Ready) (hcols : 2 ≤ term.cols)
    (hrows : 3 ≤ term.rows) (gfx : Gfx.State) {page : Target → Page} {target : Target}
    (hpage : (page target).Legible) :
    ∃ s, browse readString term gfx page target = some s ∧ s.Good term.cols term.rows := by
  obtain ⟨term', hw⟩ := writes_clear hread (ready_hidden hr)
  obtain ⟨s₁, hwrite, h₁⟩ := good_none (s := ⟨term, gfx, none⟩) hr hw
  let start : Browser := ⟨[], target, ⟨page target, 0, 0⟩, none, []⟩
  have hfirst : start.Renders _ _ s₁.term.cols s₁.term.rows := renders_visit hpage (h₁.height ▸ hrows) [] none
  obtain ⟨s, hs, hgood⟩ := good_waits hread (.nil h₁.ready) hfirst (h₁.width ▸ hcols) (h₁.height ▸ hrows)
  rw [h₁.width, h₁.height] at hs hgood
  refine ⟨s, ?_, hgood⟩
  unfold browse
  dsimp only
  rw [hwrite]
  exact hs

theorem good_step (hread : ReadsDecimal readString) {s : Screen} (hs : s.Good cols rows) (hcols : 2 ≤ cols)
    (hrows : 3 ≤ rows) {e : Event} (he : e.Legible) : ∃ s', step readString e s = some s' ∧ s'.Good cols rows := by
  obtain ⟨rfl, rfl, hr, hbrowser⟩ := hs
  unfold step
  cases hb : s.browser with
  | none => exact ⟨s, rfl, rfl, rfl, hr, fun b h => hbrowser b h⟩
  | some b =>
      obtain ⟨hgood, hdrawn⟩ := hbrowser b hb
      dsimp only
      cases hstep : b.step e s.term.cols s.term.rows with
      | none =>
          have hr₁ := ready_hidden hr
          have hplain := Term.writes_sgr hread hr₁ (.inr (.inl rfl))
          obtain ⟨term, hclear⟩ := writes_clear hread (hplain.ready hr₁)
          have hshow := Term.writes_cursor hread (hclear.ready (hplain.ready hr₁)) (.inr rfl)
          exact good_none hr (hplain.append (hclear.append hshow))
      | some p => exact good_waits hread hdrawn (step_renders hgood he hrows hstep) hcols hrows

theorem good_run (hread : ReadsDecimal readString) {s : Screen} (hs : s.Good cols rows) (hcols : 2 ≤ cols)
    (hrows : 3 ≤ rows) {es : List Event} (hes : ∀ e ∈ es, e.Legible) :
    ∃ s', runEvents (step readString) s es = some s' ∧ s'.Good cols rows := by
  induction es generalizing s with
  | nil => exact ⟨s, rfl, hs⟩
  | cons e es ih =>
      obtain ⟨he, hrest⟩ := List.forall_mem_cons.mp hes
      obtain ⟨s₁, hstep, h₁⟩ := good_step hread hs hcols hrows he
      rw [runEvents, hstep]
      exact ih h₁ hrest

/-! ### The runs -/

/-- The terminal shows the rows of the browser. -/
def ShowsFrame (term : Term.State) (b : Browser) : Prop :=
  (b.frame term.cols term.rows).length = term.rows ∧
    ∀ i line, (b.frame term.cols term.rows)[i]? = some line → ∀ col, col < term.cols →
      term.charAt i col = some ((withoutSgr line).getD col ' ')

theorem Screen.Good.shows {s : Screen} (hs : s.Good cols rows) (hcols : 2 ≤ cols) (hrows : 3 ≤ rows)
    (hb : s.browser = some b) : ShowsFrame s.term b := by
  obtain ⟨rfl, rfl, -, hbrowser⟩ := hs
  obtain ⟨hgood, hdrawn⟩ := hbrowser b hb
  have hlen : (b.frame s.term.cols s.term.rows).length = s.term.rows := length_frame b.view _ _ hrows
  refine ⟨hlen, fun i line hi col hcol => ?_⟩
  obtain ⟨t, ht⟩ := hgood.frame_row hcols line (List.mem_of_getElem? hi)
  have hshort : (withoutSgr line).length ≠ s.term.cols := by
    rw [Beermacs.withoutSgr_row ht]
    have := ht.length_le
    omega
  have hfull := (Beermacs.rewritten_eq_iff (ht.mono (Nat.sub_le _ 1)) (by omega)).mpr (absurd · hshort) col hcol
  rw [← hfull]
  exact hdrawn.row i line (hgood.old ▸ hi) col (hlen ▸ (List.getElem?_eq_some_iff.mp hi).1) hcol

theorem legible_helpPages (target : Target) : (helpPages target).Legible := by
  unfold helpPages
  split_ifs
  · refine ⟨Term.printable_of_all (by decide), fun l hl => ?_⟩
    rcases List.mem_pair.mp hl with rfl | rfl
    · exact Term.printable_of_all (by decide)
    · exact Term.printable_of_all (by decide)
  · refine ⟨Term.printable_of_all (by decide), fun l hl => ?_⟩
    rw [List.mem_singleton.mp hl]
    exact Term.printable_of_all (by decide)

end Beeros.Help
