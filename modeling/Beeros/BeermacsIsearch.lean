import Beeros.BeermacsDisplay
import Beeros.BeermacsNames
import Beeros.BeermacsSearch

/-! `isearch-forward` of `beermacs.core`: each key saves the pattern and the origin of the search on a stack, and `DEL`
goes back to the last ones. Point is not saved: it goes where the search finds the pattern, and stays where it is when
the search finds nothing. -/

namespace Beeros.Beermacs

open Beerlang
open Lines (Pos Valid Le)

namespace Isearch

/-! ### Incremental search -/

/-- What the search has before it looks for the pattern. -/
structure State where
  point : Pos
  pat : Str
  origin : Pos
  stack : List (Str × Pos)

/-- The keys after which the search goes on. -/
inductive Key
  /-- `C-s`. -/
  | next
  | extend (t : Str)
  /-- `DEL`. -/
  | back
  deriving DecidableEq

def keyOf (k : Str) : Option Key :=
  if k = str "C-s" then some .next
  else if k = str "DEL" then some .back
  else if k.length = 1 then some (.extend k)
  else if k = str "SPC" then some (.extend [' '])
  else none

/-- A key that is not `DEL`. -/
def Key.Forward : Key → Prop
  | next => True
  | extend t => t ≠ []
  | back => False

section Search

-- Where a pattern is found from a position on.
variable (find : Str → Pos → Option Pos)

def State.found (s : State) : Option Pos := if s.pat = [] then none else find s.pat s.origin

/-- Where point is shown. -/
def State.shown (s : State) : Pos :=
  match s.found find with
  | some f => (f.1, f.2 + s.pat.length)
  | none => s.point

def State.press (start : Pos) (s : State) : Key → State
  | .next => ⟨s.shown find, s.pat, match s.found find with
      | some f => (f.1, f.2 + 1)
      | none => s.origin, s.stack ++ [(s.pat, s.origin)]⟩
  | .extend t => ⟨s.shown find, s.pat ++ t, s.origin, s.stack ++ [(s.pat, s.origin)]⟩
  | .back =>
      match s.stack.getLast? with
      | none => ⟨s.shown find, [], start, s.stack⟩
      | some (p, f) => ⟨s.shown find, p, f, s.stack.dropLast⟩

def State.start (p : Pos) : State := ⟨p, [], p, []⟩

def State.pressAll (start : Pos) (s : State) (ks : List Key) : State := ks.foldl (State.press find start) s

/-- The same pattern, origin and stack, and point shown at the same place. -/
structure Agree (s s' : State) : Prop where
  pat : s.pat = s'.pat
  origin : s.origin = s'.origin
  stack : s.stack = s'.stack
  shown : s.shown find = s'.shown find

/-- After the keys and some `DEL`s the search is as it was that many keys before. -/
def BacksUp (start : Pos) (s : State) (ks : List Key) : Prop :=
  ∀ i ≤ ks.length, Agree find (s.pressAll find start (ks ++ List.replicate i .back))
    (s.pressAll find start (ks.take (ks.length - i)))

/-- The first key that adds to the empty pattern gives one that is not found. -/
def FirstFails (start : Pos) : List Key → Prop
  | [] => True
  | .next :: ks => FirstFails start ks
  | .extend t :: _ => find t start = none
  | .back :: _ => True

/-- A key after which the search does not find what it did not find before. -/
def Steady (start : Pos) : State → List Key → Prop
  | _, [] => True
  | s, k :: ks => (s.found find = none → (s.press find start k).found find = none) ∧
      Steady start (s.press find start k) ks

/-- The pattern is empty, and nothing has happened. -/
structure Idle (start : Pos) (s : State) : Prop where
  pat : s.pat = []
  origin : s.origin = start
  point : s.point = start

end Search

variable {find : Str → Pos → Option Pos} {start : Pos} {s s' s'' : State} {k : Key} {ks : List Key}

theorem Agree.refl (s : State) : Agree find s s := ⟨rfl, rfl, rfl, rfl⟩

theorem Agree.found (h : Agree find s s') : s.found find = s'.found find := by
  unfold State.found
  rw [h.pat, h.origin]

theorem shown_of_none (h : s.found find = none) : s.shown find = s.point := by
  unfold State.shown
  rw [h]

theorem stack_press (hk : k.Forward) : (s.press find start k).stack = s.stack ++ [(s.pat, s.origin)] := by
  cases k with
  | next => rfl
  | extend t => rfl
  | back => exact hk.elim

/-- Point is where it was shown. -/
theorem point_press (k : Key) : (s.press find start k).point = s.shown find := by
  cases k with
  | next => rfl
  | extend t => rfl
  | back =>
      unfold State.press
      cases s.stack.getLast? with
      | none => rfl
      | some pf => rfl

/-- `DEL` after a key. -/
theorem press_back (hk : k.Forward) (h : Agree find s' (s.press find start k)) :
    s'.press find start .back = ⟨(s.press find start k).shown find, s.pat, s.origin, s.stack⟩ := by
  have hstack := h.stack.trans (stack_press hk)
  unfold State.press
  rw [hstack, List.getLast?_concat, List.dropLast_concat, h.shown]
  rfl

/-- `DEL` takes back a key, unless the pattern is found only with it. -/
theorem agree_back (hk : k.Forward) (hsteady : s.found find = none → (s.press find start k).found find = none)
    (h : Agree find s' (s.press find start k)) : Agree find (s'.press find start .back) s := by
  rw [press_back hk h]
  refine ⟨rfl, rfl, rfl, ?_⟩
  unfold State.shown
  show (match s.found find with | some f => _ | none => (s.press find start k).shown find) = _
  cases hf : s.found find with
  | some f => rfl
  | none =>
      dsimp only
      rw [shown_of_none (hsteady hf), point_press k, shown_of_none hf]

theorem pressAll_append (ks ks' : List Key) :
    s.pressAll find start (ks ++ ks') = (s.pressAll find start ks).pressAll find start ks' := List.foldl_append

theorem pressAll_back (i : Nat) : s.pressAll find start (ks ++ List.replicate (i + 1) .back) =
    (s.pressAll find start (ks ++ List.replicate i .back)).press find start .back := by
  rw [List.replicate_succ', ← List.append_assoc, pressAll_append]
  rfl

theorem Steady.at {ks' : List Key} (h : Steady find start s (ks ++ k :: ks')) :
    (s.pressAll find start ks).found find = none →
      ((s.pressAll find start ks).press find start k).found find = none := by
  induction ks generalizing s with
  | nil => exact h.1
  | cons k' ks ih => exact ih h.2

/-- Where no key loses the search, the `DEL`s take the keys back one by one. -/
theorem backsUp_of_steady (hks : ∀ k ∈ ks, k.Forward) (h : Steady find start s ks) : BacksUp find start s ks := by
  intro i hi
  induction i with
  | zero =>
      rw [List.replicate_zero, List.append_nil, Nat.sub_zero, List.take_length]
      exact .refl _
  | succ i ih =>
      have hlt : ks.length - (i + 1) < ks.length := by omega
      have htake : ks.take (ks.length - i) = ks.take (ks.length - (i + 1)) ++ [ks[ks.length - (i + 1)]] := by
        rw [show ks.length - i = ks.length - (i + 1) + 1 by omega, List.take_succ_eq_append_getElem hlt]
      have hsplit : ks = ks.take (ks.length - (i + 1)) ++ ks[ks.length - (i + 1)] ::
          ks.drop (ks.length - (i + 1) + 1) := by
        rw [← List.drop_eq_getElem_cons hlt, List.take_append_drop]
      have hagree := ih (Nat.le_of_succ_le hi)
      rw [htake, pressAll_append (ks.take (ks.length - (i + 1)))] at hagree
      rw [pressAll_back]
      exact agree_back (hks _ (List.getElem_mem hlt)) (Steady.at (hsplit ▸ h)) hagree

section Steady

-- A pattern that is not found is not found with more behind it; a pattern is found behind where the search begins.
variable (hmore : ∀ pat t p, pat ≠ [] → find pat p = none → find (pat ++ t) p = none)
  (hbehind : ∀ pat p f, pat ≠ [] → find pat p = some f → (f.1, f.2 + pat.length) ≠ p)

include hmore in
/-- With a pattern no key finds what was not found. -/
theorem found_press (hk : k.Forward) (hpat : s.pat ≠ []) (hf : s.found find = none) :
    (s.press find start k).pat ≠ [] ∧ (s.press find start k).found find = none := by
  have hfind : find s.pat s.origin = none := by
    unfold State.found at hf
    rwa [if_neg hpat] at hf
  cases k with
  | next =>
      refine ⟨hpat, ?_⟩
      unfold State.press
      rw [hf]
      exact (if_neg hpat).trans hfind
  | extend t =>
      have hne : s.pat ++ t ≠ [] := fun h => hpat (List.append_eq_nil_iff.mp h).1
      exact ⟨hne, (if_neg hne).trans (hmore _ t _ hpat hfind)⟩
  | back => exact hk.elim

theorem pat_press (hk : k.Forward) (hpat : s.pat ≠ []) : (s.press find start k).pat ≠ [] := by
  cases k with
  | next => exact hpat
  | extend t => exact fun h => hpat (List.append_eq_nil_iff.mp h).1
  | back => exact hk.elim

include hmore in
theorem steady_of_pat (hks : ∀ k ∈ ks, k.Forward) (hpat : s.pat ≠ []) : Steady find start s ks := by
  induction ks generalizing s with
  | nil => trivial
  | cons k ks ih =>
      rw [List.forall_mem_cons] at hks
      exact ⟨fun hf => (found_press hmore hks.1 hpat hf).2, ih hks.2 (pat_press hks.1 hpat)⟩

theorem Idle.next (h : Idle start s) : Idle start (s.press find start .next) := by
  have hf : s.found find = none := if_pos h.pat
  refine ⟨h.pat, ?_, (shown_of_none hf).trans h.point⟩
  unfold State.press
  rw [hf]
  exact h.origin

theorem Idle.found_extend (find : Str → Pos → Option Pos) (h : Idle start s) {t : Str} (ht : t ≠ []) :
    (s.press find start (.extend t)).pat = t ∧ (s.press find start (.extend t)).found find = find t start := by
  have hpat : (s.press find start (.extend t)).pat = t := by
    show s.pat ++ t = t
    rw [h.pat, List.nil_append]
  refine ⟨hpat, ?_⟩
  unfold State.found
  rw [hpat, if_neg ht]
  exact congrArg _ h.origin

include hmore in
theorem Idle.steady (h : Idle start s) (hks : ∀ k ∈ ks, k.Forward) (hfirst : FirstFails find start ks) :
    Steady find start s ks := by
  induction ks generalizing s with
  | nil => trivial
  | cons k ks ih =>
      rw [List.forall_mem_cons] at hks
      cases k with
      | next => exact ⟨fun _ => if_pos h.next.pat, ih h.next hks.2 hfirst⟩
      | extend t =>
          obtain ⟨hpat, hf⟩ := h.found_extend find hks.1
          refine ⟨fun _ => hf.trans hfirst, steady_of_pat hmore hks.2 ?_⟩
          rw [hpat]
          exact hks.1
      | back => exact hks.1.elim

theorem BacksUp.tail (h : BacksUp find start s (k :: ks)) : BacksUp find start (s.press find start k) ks := by
  intro i hi
  have := h i (Nat.le_succ_of_le hi)
  rw [List.length_cons, show ks.length + 1 - i = ks.length - i + 1 by omega, List.take_succ_cons] at this
  exact this

include hbehind in
theorem Idle.firstFails (h : Idle start s) (hks : ∀ k ∈ ks, k.Forward) (hback : BacksUp find start s ks) :
    FirstFails find start ks := by
  induction ks generalizing s with
  | nil => trivial
  | cons k ks ih =>
      rw [List.forall_mem_cons] at hks
      cases k with
      | next => exact ih h.next hks.2 hback.tail
      | back => exact hks.1.elim
      | extend t =>
          obtain ⟨hpat, hf⟩ := h.found_extend find hks.1
          -- the last two states of the way back: with the first key, and without it
          have hwith := hback ks.length (Nat.le_succ _)
          have hwithout := hback (ks.length + 1) (Nat.le_refl _)
          rw [List.length_cons, Nat.add_sub_cancel_left] at hwith
          rw [List.length_cons, Nat.sub_self, pressAll_back] at hwithout
          have hshown := hwithout.shown
          rw [press_back hks.1 hwith] at hshown
          have hempty : (⟨(s.press find start (.extend t)).shown find, s.pat, s.origin, s.stack⟩ : State).found find =
              none := if_pos h.pat
          rw [shown_of_none hempty] at hshown
          have hidle : (s.pressAll find start []).shown find = start := (shown_of_none (if_pos h.pat)).trans h.point
          rw [List.take_zero, hidle] at hshown
          show find t start = none
          cases hfind : find t start with
          | none => rfl
          | some f =>
              refine absurd ?_ (hbehind t start f hks.1 hfind)
              unfold State.shown at hshown
              rw [hf, hfind, hpat] at hshown
              exact hshown

include hmore hbehind in
/-- The `DEL`s take back the keys exactly when the first key that is typed into the empty pattern finds nothing: back
at the empty pattern nothing is searched for, and point stays where it is. -/
theorem backsUp_iff (hks : ∀ k ∈ ks, k.Forward) : BacksUp find start (.start start) ks ↔ FirstFails find start ks := by
  have hidle : Idle start (.start start) := ⟨rfl, rfl, rfl⟩
  exact ⟨hidle.firstFails hbehind hks, fun h => backsUp_of_steady hks (hidle.steady hmore hks h)⟩

end Steady

end Isearch

/-! ### `search-forward` -/

/-- What `search-forward` finds. -/
def Buffer.find (b : Buffer) (lowerCase : Str → Str) (pat : Str) (p : Pos) : Option Pos :=
  match b.searchForward lowerCase pat p with
  | .ok r => r
  | .error _ => none

variable {lowerCase : Str → Str} {b b' : Buffer} {pat t : Str} {p f : Pos}

theorem find_ok (hlow : LowersAscii lowerCase) (hpat : pat ≠ []) (hb : b.lines ≠ []) (p : Pos) :
    b.searchForward lowerCase pat p = .ok (b.find lowerCase pat p) ∧
      FirstAt (b.MatchesAt pat) p (b.find lowerCase pat p) := by
  obtain ⟨r, hr, hfirst⟩ := searchForward_ok hlow hpat hb p
  unfold Buffer.find
  rw [hr]
  exact ⟨rfl, hfirst⟩

theorem find_congr (h : b'.lines = b.lines) : b'.find lowerCase = b.find lowerCase := by
  unfold Buffer.find Buffer.searchForward Buffer.lastRow Buffer.line
  rw [h]

theorem Same.length {s : Str} (h : Same pat s) : s.length = pat.length := by
  have := congrArg List.length (same_iff.mp h)
  rwa [List.length_map] at this

/-- Where a longer pattern stands, its beginning stands too. -/
theorem matchesAt_of_append (h : b.MatchesAt (pat ++ t) p) : b.MatchesAt pat p := by
  obtain ⟨pre, s, post, hline, hlen, hsame⟩ := h
  have hs : s.take pat.length ++ s.drop pat.length = s := List.take_append_drop _ _
  refine ⟨pre, s.take pat.length, s.drop pat.length ++ post, ?_, hlen, ?_⟩
  · rw [hline, ← List.append_assoc, List.append_assoc pre (s.take pat.length), hs]
  · unfold Same at hsame ⊢
    rw [List.any_append] at hsame
    cases hup : pat.any Char.isUpper with
    | true =>
        rw [hup, Bool.true_or, if_pos rfl] at hsame
        rw [if_pos rfl, hsame, List.take_left]
    | false =>
        rw [if_neg Bool.false_ne_true]
        have hmap : s.map Char.toLower = (pat ++ t).map Char.toLower := by
          split_ifs at hsame
          · rw [hsame]
          · exact hsame
        rw [List.map_take, hmap, List.map_append, List.take_left' (List.length_map ..)]

theorem find_append (hlow : LowersAscii lowerCase) (hb : b.lines ≠ []) (hpat : pat ≠ [])
    (h : b.find lowerCase pat p = none) : b.find lowerCase (pat ++ t) p = none := by
  have hnone := (find_ok hlow hpat hb p).2
  rw [h] at hnone
  have hfirst := (find_ok hlow (fun h => hpat (List.append_eq_nil_iff.mp h).1 : pat ++ t ≠ []) hb p).2
  cases hf : b.find lowerCase (pat ++ t) p with
  | none => rfl
  | some q =>
      rw [hf] at hfirst
      exact absurd hfirst.2.1 (hnone q (matchesAt_of_append hfirst.1))

/-- The end of a match is a position of the text, and not where the search began. -/
theorem find_some (hlow : LowersAscii lowerCase) (hb : b.lines ≠ []) (hpat : pat ≠ [])
    (h : b.find lowerCase pat p = some f) :
    Valid b.lines (f.1, f.2 + pat.length) ∧ (f.1, f.2 + pat.length) ≠ p := by
  have hfirst := (find_ok hlow hpat hb p).2
  rw [h] at hfirst
  obtain ⟨⟨pre, s, post, hline, hlen, hsame⟩, hle, -⟩ := hfirst
  obtain ⟨hrow, -⟩ := List.getElem?_eq_some_iff.mp hline
  refine ⟨⟨hrow, ?_⟩, ?_⟩
  · dsimp only
    rw [List.getD_eq_getElem?_getD, hline, Option.getD_some, List.length_append, List.length_append, hlen, hsame.length]
    exact Nat.le_add_right _ _
  · rintro rfl
    have hpos := List.length_pos_of_ne_nil hpat
    unfold Le at hle
    dsimp only at hle
    omega

namespace Isearch

/-- The editor is at a state of the search in the text of `b`. -/
def At (b : Buffer) (ed : Editor) (s : State) : Prop :=
  ∃ b', ed.buf = some b' ∧ b'.Ok ∧ b'.lines = b.lines ∧ b'.point = s.point

variable {env : Env} {ed ed' : Editor} {s : State} {start : Pos}

theorem isearchFind_ok (hlow : LowersAscii env.lowerCase) (h : At b ed s) :
    ed.isearchFind env s.pat s.origin = .ok (s.found (b.find env.lowerCase)) := by
  obtain ⟨b', hb', hok, hlines, -⟩ := h
  unfold Editor.isearchFind State.found
  split_ifs with hpat
  · rfl
  · have hbuf : ed.buf! = .ok b' := by
      unfold Editor.buf!
      rw [hb']
    rw [hbuf, ok_bind, ← find_congr hlines]
    exact (find_ok hlow hpat (List.ne_nil_of_length_pos (Nat.zero_lt_of_lt hok.point.row)) s.origin).1

/-- Point goes behind the match. -/
theorem goto_shown (hlow : LowersAscii env.lowerCase) (h : At b ed s) : ∃ ed₁,
    (match s.found (b.find env.lowerCase) with
      | some f => ed.updateBuf fun x => x.goto f.1 (f.2 + s.pat.length)
      | none => pure ed : Except Error Editor) = .ok ed₁ ∧
      ed₁.size = ed.size ∧ At b ed₁ { s with point := s.shown (b.find env.lowerCase) } := by
  obtain ⟨b', hb', hok, hlines, hpoint⟩ := h
  unfold State.shown
  cases hf : s.found (b.find env.lowerCase) with
  | none => exact ⟨ed, rfl, rfl, b', hb', hok, hlines, hpoint⟩
  | some f =>
      unfold State.found at hf
      split_ifs at hf with hpat
      have hne : b'.lines ≠ [] := List.ne_nil_of_length_pos (Nat.zero_lt_of_lt hok.point.row)
      rw [← find_congr hlines] at hf
      have hv := (find_some hlow hne hpat hf).1
      have hgoto := Buffer.goto_of_valid hv
      exact ⟨ed.setBuf _, Editor.updateBuf_ok.mpr ⟨b', _, hb', hgoto, rfl⟩, rfl, _, AList.lookup_insert _,
        ⟨hok.clean, hv, hok.undo⟩, hlines, rfl⟩

theorem visible_ok (l : Str) (left : Nat) {cols : Nat} (hcols : 0 < cols) : ∃ shown, visible l left cols = .ok shown := by
  unfold visible
  by_cases hleft : left ≥ l.length
  · rw [if_pos hleft]
    refine ⟨[], ?_⟩
    show (if l.length > left + cols then _ else pure []) = _
    rw [if_neg (by omega)]
    rfl
  · rw [if_neg hleft, subvec_ok (by omega) (Nat.min_le_left _ _), ok_bind]
    dsimp only
    split_ifs with hlong
    · have hcast : (cols : Int) - 1 = (cols - 1 : Nat) := by omega
      have hlen : cols - 1 ≤ ((l.take (min l.length (left + cols))).drop left).length := by
        rw [List.length_drop, List.length_take]
        omega
      rw [hcast, subvec_zero hlen, ok_bind]
      exact ⟨_, rfl⟩
    · exact ⟨_, rfl⟩

theorem screenRows_total {b' : Buffer} (hbuf : ed.buf = some b') (hlines : b'.lines ≠ []) (hcols : 0 < ed.size.1) :
    ∃ rows, ed.screenRows = .ok rows := by
  have htext : ∀ i ∈ List.range ed.textRows.toNat, ∃ line, (do
      let r := b'.top + i
      if r ≤ b'.lastRow then visible (← b'.line r) b'.left ed.size.1 else pure [] : Except Error Str) = .ok line ∧
      True := by
    intro i _
    dsimp only
    split_ifs with hr
    · have hlt : b'.top + i < b'.lines.length := by
        have := List.length_pos_iff.mpr hlines
        unfold Buffer.lastRow at hr
        omega
      obtain ⟨line, hline⟩ := visible_ok (b'.lines.getD (b'.top + i) []) b'.left hcols
      refine ⟨line, ?_, trivial⟩
      show (nth b'.lines (b'.top + i : Nat) >>= _) = _
      rw [nth_ok [] hlt, ok_bind, hline]
    · exact ⟨[], rfl, trivial⟩
  obtain ⟨lines, hrows, -⟩ := mapM_ok htext
  obtain ⟨m, hm⟩ := visible_ok (ed.prompt.getD ed.msg) 0 hcols
  have hbuf! : ed.buf! = .ok b' := by
    unfold Editor.buf!
    rw [hbuf]
  have hmode : ∃ line, ed.modeLine ed.size.1 = .ok line := by
    unfold Editor.modeLine
    rw [hbuf!]
    exact ⟨_, rfl⟩
  obtain ⟨line, hline⟩ := hmode
  refine ⟨lines ++ [line] ++ [m], ?_⟩
  unfold Editor.screenRows
  rw [hbuf!]
  dsimp only
  rw [ok_bind, hrows, ok_bind, hline, ok_bind, hm]
  rfl

/-- The display keeps the text, point and the prompt. -/
theorem redisplay_total (h : At b ed s) (hcols : 0 < ed.size.1) (t : Tty) :
    ∃ ed' out, ed.redisplay! t = .ok ed' ⟨t.keys, out⟩ ∧ At b ed' s ∧ ed'.prompt = ed.prompt ∧ ed'.size = ed.size := by
  obtain ⟨b', hb', hok, hlines, hpoint⟩ := h
  have hbuf! : ed.buf! = .ok b' := by
    unfold Editor.buf!
    rw [hb']
  have hscroll : ∃ top left : Nat, ed.scrollToPoint = .ok (ed.setBuf { b' with top := top, left := left }) := by
    unfold Editor.scrollToPoint Editor.updateBuf
    rw [hbuf!]
    exact ⟨_, _, rfl⟩
  obtain ⟨top, left, hscroll⟩ := hscroll
  have hbuf : (ed.setBuf { b' with top := top, left := left }).buf = some { b' with top := top, left := left } :=
    AList.lookup_insert _
  have hne : b'.lines ≠ [] := List.ne_nil_of_length_pos (Nat.zero_lt_of_lt hok.point.row)
  obtain ⟨rows, hrows⟩ := screenRows_total hbuf hne hcols
  have hbuf!' : (ed.setBuf { b' with top := top, left := left }).buf! = .ok { b' with top := top, left := left } := by
    unfold Editor.buf!
    rw [hbuf]
  have hred : ∃ out, ed.redisplay = .ok (out, { ed.setBuf { b' with top := top, left := left } with screen := rows }) := by
    unfold Editor.redisplay
    rw [hscroll, ok_bind, hrows, ok_bind, hbuf!']
    exact ⟨_, rfl⟩
  obtain ⟨out, hred⟩ := hred
  refine ⟨{ ed.setBuf { b' with top := top, left := left } with screen := rows }, t.out ++ out, ?_, ⟨_, hbuf,
    ⟨hok.clean, hok.point, hok.undo⟩, hlines, hpoint⟩, rfl, rfl⟩
  unfold Editor.redisplay!
  rw [hred]
  rfl

/-- A round of the loop: the editor is shown with the pattern and point of the state, and the key leads to the next
state. -/
theorem isearchLoop_press (hlow : LowersAscii env.lowerCase) (start : Pos) (h : At b ed s) (hcols : 0 < ed.size.1)
    {k : Str} {key : Key} (hk : keyOf k = some key) (n : Nat) (keys : List Str) (out : Str) : ∃ ed' out' w,
      ed'.prompt = some (w ++ s.pat) ∧ ed'.size = ed.size ∧ At b ed' (s.press (b.find env.lowerCase) start key) ∧
      Editor.isearchLoop env start (n + 1) ed s.pat s.origin s.stack ⟨k :: keys, out⟩ =
        Editor.isearchLoop env start n ed' (s.press (b.find env.lowerCase) start key).pat
          (s.press (b.find env.lowerCase) start key).origin (s.press (b.find env.lowerCase) start key).stack
          ⟨keys, out'⟩ := by
  obtain ⟨ed₁, hgoto, hsize, hat⟩ := goto_shown hlow h
  generalize hw : str (if (s.found (b.find env.lowerCase)).isSome ∨ s.pat = [] then "" else "Failing ") ++
    str "I-search: " = w
  have hat₂ : At b { ed₁ with prompt := some (w ++ s.pat) } { s with point := s.shown (b.find env.lowerCase) } := hat
  obtain ⟨ed', out', hshow, hat', hprompt, hsize'⟩ := redisplay_total hat₂ (hsize ▸ hcols) ⟨k :: keys, out⟩
  refine ⟨ed', out', w, hprompt, hsize'.trans hsize, ?_, ?_⟩
  · obtain ⟨b', hb', hok, hlines, hpoint⟩ := hat'
    exact ⟨b', hb', hok, hlines, hpoint.trans (point_press key).symm⟩
  have hfind : lift (ed.isearchFind env s.pat s.origin) ⟨k :: keys, out⟩ =
      .ok (s.found (b.find env.lowerCase)) ⟨k :: keys, out⟩ := by
    rw [isearchFind_ok hlow h]
    rfl
  have hread : readKey ⟨k :: keys, out'⟩ = .ok k ⟨keys, out'⟩ := rfl
  have hmove := congrFun (congrArg lift hgoto) ⟨k :: keys, out⟩
  have hquit : k ≠ str "C-g" := by
    rintro rfl
    cases hk
  conv_lhs => unfold Editor.isearchLoop
  rw [Exec.bind_apply hfind]
  refine (Exec.bind_apply hmove).trans ?_
  rw [hw, Exec.bind_apply hshow, Exec.bind_apply hread, if_neg hquit]
  unfold keyOf at hk
  split_ifs at hk with hnext hback hchar hspc <;> cases hk
  · rw [if_pos hnext]
    rfl
  · rw [if_neg hnext, if_pos hback]
    unfold State.press
    cases s.stack.getLast? with
    | none => rfl
    | some pf => rfl
  · rw [if_neg hnext, if_neg hback, if_pos hchar]
    rfl
  · rw [if_neg hnext, if_neg hback, if_neg hchar, if_pos hspc]
    rfl

/-- What the loop does with the keys, and with what comes after them. -/
theorem isearchLoop_run (hlow : LowersAscii env.lowerCase) (start : Pos) (h : At b ed s) (hcols : 0 < ed.size.1)
    {keys : List Str} {ks : List Key} (hkeys : keys.map keyOf = ks.map some) (n : Nat) (rest : List Str) (out : Str) : ∃ ed' out',
      ed'.size = ed.size ∧ At b ed' (s.pressAll (b.find env.lowerCase) start ks) ∧
      Editor.isearchLoop env start (keys.length + n) ed s.pat s.origin s.stack ⟨keys ++ rest, out⟩ =
        Editor.isearchLoop env start n ed' (s.pressAll (b.find env.lowerCase) start ks).pat
          (s.pressAll (b.find env.lowerCase) start ks).origin (s.pressAll (b.find env.lowerCase) start ks).stack
          ⟨rest, out'⟩ := by
  induction keys generalizing ed s ks out with
  | nil =>
      cases ks with
      | nil => exact ⟨ed, out, rfl, h, by rw [List.length_nil, Nat.zero_add]; rfl⟩
      | cons k ks => cases hkeys
  | cons k keys ih =>
      cases ks with
      | nil => cases hkeys
      | cons key ks =>
          rw [List.map_cons, List.map_cons, List.cons.injEq] at hkeys
          obtain ⟨ed₁, out₁, w, -, hsize, hat, heq⟩ :=
            isearchLoop_press hlow start h hcols hkeys.1 (keys.length + n) (keys ++ rest) out
          obtain ⟨ed', out', hsize', hat', heq'⟩ := ih hat (hsize ▸ hcols) hkeys.2 out₁
          refine ⟨ed', out', hsize'.trans hsize, hat', ?_⟩
          rw [List.length_cons, Nat.add_right_comm, List.cons_append]
          exact heq.trans heq'

/-- The first key that adds to the pattern adds a text that does not stand at or behind the start. -/
def FirstAbsent (b : Buffer) (start : Pos) : List Key → Prop
  | [] => True
  | .next :: ks => FirstAbsent b start ks
  | .extend t :: _ => ∀ p, Le start p → ¬b.MatchesAt t p
  | .back :: _ => True

theorem find_eq_none (hlow : LowersAscii lowerCase) (hpat : pat ≠ []) (hb : b.lines ≠ []) :
    b.find lowerCase pat p = none ↔ ∀ q, Le p q → ¬b.MatchesAt pat q := by
  have hfirst := (find_ok hlow hpat hb p).2
  cases hf : b.find lowerCase pat p with
  | none =>
      rw [hf] at hfirst
      exact ⟨fun _ q hle hq => hfirst q hq hle, fun _ => rfl⟩
  | some f =>
      rw [hf] at hfirst
      exact ⟨nofun, fun h => absurd hfirst.1 (h f hfirst.2.1)⟩

theorem firstFails_iff (hlow : LowersAscii lowerCase) (hb : b.lines ≠ []) {ks : List Key} (hks : ∀ k ∈ ks, k.Forward) :
    FirstFails (b.find lowerCase) start ks ↔ FirstAbsent b start ks := by
  induction ks with
  | nil => exact .rfl
  | cons k ks ih =>
      rw [List.forall_mem_cons] at hks
      cases k with
      | next => exact ih hks.2
      | extend t => exact find_eq_none hlow hks.1 hb
      | back => exact hks.1.elim

/-- `isearch-forward` goes through the states of the search: after the keys it shows their pattern, and the next key
leads to the next state. -/
def Follows (env : Env) (ed : Editor) (b : Buffer) : Prop :=
  ∀ keys ks k key rest out, keys.map keyOf = ks.map some → keyOf k = some key → ∃ ed' out' w,
    let s := (State.start b.point).pressAll (b.find env.lowerCase) b.point ks
    let s' := s.press (b.find env.lowerCase) b.point key
    ed'.prompt = some (w ++ s.pat) ∧ At b ed' s' ∧ Editor.isearchForward env ed ⟨keys ++ k :: rest, out⟩ =
      Editor.isearchLoop env b.point (rest.length + 1) ed' s'.pat s'.origin s'.stack ⟨rest, out'⟩

theorem follows (hlow : LowersAscii env.lowerCase) (hbuf : ed.buf = some b) (hok : b.Ok) (hcols : 0 < ed.size.1) :
    Follows env ed b := by
  intro keys ks k key rest out hkeys hk
  have hat : At b ed (.start b.point) := ⟨b, hbuf, hok, rfl, rfl⟩
  obtain ⟨ed₁, out₁, hsize, hat₁, hrun⟩ := isearchLoop_run hlow b.point hat hcols hkeys (rest.length + 2)
    (k :: rest) out
  obtain ⟨ed', out', w, hprompt, -, hat', hpress⟩ := isearchLoop_press hlow b.point hat₁ (hsize ▸ hcols) hk
    (rest.length + 1) rest out₁
  refine ⟨ed', out', w, hprompt, hat', ?_⟩
  have hbuf! : ed.buf! = .ok b := by
    unfold Editor.buf!
    rw [hbuf]
  have hlift : lift ed.buf! ⟨keys ++ k :: rest, out⟩ = .ok b ⟨keys ++ k :: rest, out⟩ := by
    rw [hbuf!]
    rfl
  have hlen : (keys ++ k :: rest).length + 1 = keys.length + (rest.length + 2) := by
    rw [List.length_append, List.length_cons]
    omega
  unfold Editor.isearchForward
  rw [Exec.bind_apply hlift]
  show Editor.isearchLoop env b.point ((keys ++ k :: rest).length + 1) ed [] b.point [] _ = _
  rw [hlen]
  exact hrun.trans hpress

/-- The `DEL`s of an incremental search take its keys back exactly when the first text that is typed is not there. -/
theorem isearchForward_backsUp_iff (hlow : LowersAscii env.lowerCase) (hbuf : ed.buf = some b) (hok : b.Ok)
    (hcols : 0 < ed.size.1) {ks : List Key} (hks : ∀ k ∈ ks, k.Forward) :
    Follows env ed b ∧
      (BacksUp (b.find env.lowerCase) b.point (.start b.point) ks ↔ FirstAbsent b b.point ks) := by
  have hne : b.lines ≠ [] := List.ne_nil_of_length_pos (Nat.zero_lt_of_lt hok.point.row)
  refine ⟨follows hlow hbuf hok hcols, ?_⟩
  rw [← firstFails_iff hlow hne hks]
  exact backsUp_iff (fun _ _ _ hpat hf => find_append hlow hne hpat hf)
    (fun _ _ _ hpat hf => (find_some hlow hne hpat hf).2) hks

def smallBuffer : Buffer := newBuffer ['x'] ['a', 'b'] none

def smallEditor : Editor where
  buffers := AList.singleton ['x'] smallBuffer
  current := ['x']
  size := (20, 4)

def lowerEnv : Env := { bareEnv with lowerCase := List.map Char.toLower }

theorem isearchForward_backsUp_iff_small : Follows lowerEnv smallEditor smallBuffer ∧
    (BacksUp (smallBuffer.find lowerEnv.lowerCase) (0, 0) (.start (0, 0)) [.next, .extend ['c']] ↔
      FirstAbsent smallBuffer (0, 0) [.next, .extend ['c']]) :=
  isearchForward_backsUp_iff (fun _ => rfl) rfl (ok_newBuffer _ _ _) (by decide) (by
    rw [List.forall_mem_cons, List.forall_mem_singleton]
    exact ⟨trivial, nofun⟩)

/-- Point stays behind the letter that `DEL` takes back. -/
theorem not_backsUp_letter : ¬BacksUp (smallBuffer.find lowerEnv.lowerCase) (0, 0) (.start (0, 0)) [.extend ['a']] ∧
    (Exec.value (Editor.isearchForward lowerEnv smallEditor ⟨[['a'], str "DEL", str "RET"], []⟩)).bind
      (fun ed => ed.buf.map Buffer.point) = some (0, 1) := by
  refine ⟨fun h => ?_, by decide +kernel⟩
  have hshown := (h 1 (Nat.le_refl 1)).shown
  exact absurd hshown (by decide +kernel)

end Isearch

end Beeros.Beermacs
