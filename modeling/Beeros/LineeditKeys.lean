import Mathlib.Data.List.Sort
import Mathlib.Order.Lex
import Beeros.Beerlang
import Beeros.FormComplete
import Beeros.Interleave
import Beeros.Tty

/-! `handle` of `beer.lineedit` (`lib/lineedit.beer`): what each keystroke does to the line. The buffer is a vector of
strings, as `:char` of a keystroke may be more than one character. -/

namespace Beeros.Lineedit

open Beerlang Tty

/-- `chars`. -/
def chars (s : Str) : List Str := s.map fun c => [c]

/-- What `handle` reads and changes of the editor's state. -/
structure Line where
  buf : List Str
  pos : Int
  /-- The history entry that is shown; none for the line being typed, which is kept in `saved`. -/
  hist : Option Int
  saved : List Str
  last : Option Key
  crow : Nat

/-- `st0` of `read-line`. -/
def Line.start : Line := ⟨[], 0, none, [], none, 0⟩

/-! ### Words -/

def isWordChar (s : Str) : Bool :=
  !(s == [' '] || s == ['\n'] || s == ['\t'] || s == [','] || s == ['('] || s == ['['] || s == ['{'] || s == [')'] ||
    s == [']'] || s == ['}'] || s == ['"'] || s == ['\x27'] || s == ['\x60'] || s == ['@'] || s == ['^'] || s == ['~'])

/-- Back over what has `p`. -/
def backWhile (p : Str → Bool) (buf : List Str) : Nat → Int → Except Error Int
  | 0, _ => .error .endless
  | fuel + 1, i => do
      if 0 < i then
        if p (← nth buf (i - 1)) then backWhile p buf fuel (i - 1) else pure i
      else pure i

/-- On over what has `p`. -/
def onWhile (p : Str → Bool) (buf : List Str) : Nat → Int → Except Error Int
  | 0, _ => .error .endless
  | fuel + 1, i => do
      if i < buf.length then
        if p (← nth buf i) then onWhile p buf fuel (i + 1) else pure i
      else pure i

def wordLeft (buf : List Str) (pos : Int) : Except Error Int := do
  let p ← backWhile (fun s => !isWordChar s) buf (pos.toNat + 1) pos
  backWhile isWordChar buf (p.toNat + 1) p

def wordRight (buf : List Str) (pos : Int) : Except Error Int := do
  let p ← onWhile (fun s => !isWordChar s) buf (buf.length + 1) pos
  onWhile isWordChar buf (buf.length + 1) p

/-! ### Editing -/

def Line.insert (st : Line) (cs : List Str) : Except Error Line := do
  pure { st with
    buf := (← subvec st.buf 0 st.pos) ++ cs ++ (← subvecFrom st.buf st.pos), pos := st.pos + cs.length }

def Line.deleteRange (st : Line) (start stop : Int) : Except Error Line := do
  pure { st with buf := (← subvec st.buf 0 start) ++ (← subvecFrom st.buf stop), pos := start }

/-- The state, and the new `kill-ring`. -/
def Line.kill (st : Line) (start stop : Int) : Except Error (Line × List Str) := do
  let ring ← subvec st.buf start stop
  pure (← st.deleteRange start stop, ring)

/-- The line at `j` of the history, or the one that was being typed. -/
def Line.shown (h : List Str) (st : Line) (j : Option Int) : Except Error Line := do
  let buf ← match j with
    | none => pure st.saved
    | some j => Except.map chars (nth h j)
  pure { st with hist := j, buf := buf, pos := buf.length }

def Line.historyMove (h : List Str) (st : Line) (dir : Int) : Except Error Line := do
  let n : Int := h.length
  let j : Option Int :=
    match st.hist with
    | none => if dir < 0 ∧ 0 < n then some (n - 1) else none
    | some i => if dir < 0 then some (max 0 (i - 1)) else if i + 1 < n then some (i + 1) else none
  let st' := if st.hist = none then { st with saved := st.buf } else st
  if j = none ∧ st.hist = none then pure st' else st'.shown h j

/-! ### Completion -/

/-- How far two strings agree. -/
def commonLoop (a b : Str) (n : Nat) : Nat → Nat → Except Error Str
  | 0, _ => .error .endless
  | fuel + 1, i => do
      if i < n then
        if (← subvec a i (i + 1)) = (← subvec b i (i + 1)) then commonLoop a b n fuel (i + 1) else subvec a 0 i
      else subvec a 0 i

/-- `common-prefix` of the strings `s :: ss`. -/
def commonPrefix (s : Str) (ss : List Str) : Except Error Str :=
  ss.foldlM (fun a b => commonLoop a b (min a.length b.length) (min a.length b.length + 1) 0) s

/-- `sort` of strings. -/
def sortStrings (ss : List Str) : List Str := ss.mergeSort fun a b => decide (a ≤ b)

def Line.complete (candidates : Str → List Str) (st : Line) : Except Error Line := do
  let start ← backWhile isWordChar st.buf (st.pos.toNat + 1) st.pos
  let pre := (← subvec st.buf start st.pos).flatten
  match sortStrings (candidates pre) with
  | [] => pure st
  | cand :: cands =>
      if pre = [] then pure st
      else if cands = [] then
        st.insert (chars ((← subvecFrom cand pre.length) ++ [' ']))
      else
        let cp ← commonPrefix cand cands
        let ins := chars (← subvecFrom cp pre.length)
        -- the candidates are listed
        if ins = [] ∧ st.last = some .tab then pure { st with crow := 0 }
        else st.insert ins

/-! ### `handle` -/

/-- The branches of the `cond` in `handle`. -/
inductive Command
  | insert (s : Str)
  | submit | cancel | backspace | delete | left | right | lineStart | lineEnd | wordLeft | wordRight
  | killLine | killStart | killWordLeft | killWordRight | yank | older | newer | complete | clear | ignore

/-- The branch that a keystroke takes. -/
def command (k : Keystroke) : Command :=
  let mods := k.mods.getD noMods
  let ctrl (x : Key) : Prop := k.key = some x ∧ mods = ctrlMods
  let alt (x : Key) : Prop := k.key = some x ∧ mods = ⟨false, true, false⟩
  let plain (x : Key) : Prop := k.key = some x ∧ mods.alt = false ∧ mods.ctrl = false
  let letter (c : Char) : Key := .keyword [c]
  match k.char with
  | some s => .insert s
  | none =>
      if plain .enter then .submit
      else if ctrl (letter 'c') then .cancel
      else if plain .backspace ∨ ctrl (letter 'h') then .backspace
      else if plain .delete ∨ ctrl (letter 'd') then .delete
      else if plain .left ∨ ctrl (letter 'b') then .left
      else if plain .right ∨ ctrl (letter 'f') then .right
      else if plain .home ∨ ctrl (letter 'a') then .lineStart
      else if plain .end ∨ ctrl (letter 'e') then .lineEnd
      else if alt (letter 'b') ∨ ctrl .left then .wordLeft
      else if alt (letter 'f') ∨ ctrl .right then .wordRight
      else if ctrl (letter 'k') then .killLine
      else if ctrl (letter 'u') then .killStart
      else if ctrl (letter 'w') then .killWordLeft
      else if alt (letter 'd') then .killWordRight
      else if ctrl (letter 'y') then .yank
      else if plain .up ∨ ctrl (letter 'p') then .older
      else if plain .down ∨ ctrl (letter 'n') then .newer
      else if plain .tab then .complete
      else if ctrl (letter 'l') then .clear
      else .ignore

inductive Outcome
  | edit (st : Line)
  | done (s : Str)
  | cancel

/-- The outcome, and the `kill-ring`. -/
def handle (h : List Str) (candidates : Str → List Str) (ring : List Str) (st : Line) (k : Keystroke) :
    Except Error (Outcome × List Str) :=
  let n : Int := st.buf.length
  let keep (x : Except Error Line) : Except Error (Outcome × List Str) := do pure (.edit (← x), ring)
  let killing (x : Except Error (Line × List Str)) : Except Error (Outcome × List Str) := do
    let (st', ring') ← x
    pure (.edit st', ring')
  match command k with
  | .insert s => keep (st.insert [s])
  | .submit => pure (.done st.buf.flatten, ring)
  | .cancel => pure (.cancel, ring)
  | .backspace => keep (if 0 < st.pos then st.deleteRange (st.pos - 1) st.pos else pure st)
  | .delete => keep (if st.pos < n then st.deleteRange st.pos (st.pos + 1) else pure st)
  | .left => keep (pure { st with pos := max 0 (st.pos - 1) })
  | .right => keep (pure { st with pos := min n (st.pos + 1) })
  | .lineStart => keep (pure { st with pos := 0 })
  | .lineEnd => keep (pure { st with pos := n })
  | .wordLeft => keep (do pure { st with pos := ← wordLeft st.buf st.pos })
  | .wordRight => keep (do pure { st with pos := ← wordRight st.buf st.pos })
  | .killLine => killing (st.kill st.pos n)
  | .killStart => killing (st.kill 0 st.pos)
  | .killWordLeft => killing (do st.kill (← wordLeft st.buf st.pos) st.pos)
  | .killWordRight => killing (do st.kill st.pos (← wordRight st.buf st.pos))
  | .yank => keep (st.insert ring)
  | .older => keep (st.historyMove h (-1))
  | .newer => keep (st.historyMove h 1)
  | .complete => keep (st.complete candidates)
  | .clear => keep (pure { st with crow := 0 })
  | .ignore => keep (pure st)

/-! ### The keystrokes of one line -/

/-- A keystroke, what `candidates` finds at it, and the row of the cursor after `render!`. -/
structure Stroke where
  key : Keystroke
  candidates : Str → List Str
  crow : Nat

/-- Each candidate starts with the prefix. -/
def Stroke.Fair (e : Stroke) : Prop := ∀ pre, ∀ s ∈ e.candidates pre, pre <+: s

/-- The state of `read-line`, and the `kill-ring`. -/
structure Editing where
  st : Line
  ring : List Str

/-- A round of `read-line` after which the line is still edited. -/
def Editing.step (h : List Str) (e : Stroke) (s : Editing) : Option Editing :=
  match handle h e.candidates s.ring s.st e.key with
  | .ok (.edit st, ring) => some ⟨{ st with last := e.key.key, crow := e.crow }, ring⟩
  | _ => none

/-- The cursor is in the line, and the entry that is shown in the history. -/
structure Line.Ok (h : List Str) (st : Line) : Prop where
  nonneg : 0 ≤ st.pos
  le : st.pos ≤ st.buf.length
  hist : ∀ i, st.hist = some i → 0 ≤ i ∧ i < h.length

variable {h : List Str} {candidates : Str → List Str} {ring buf cs : List Str} {st st' : Line} {p : Str → Bool}

/-! ### Words -/

theorem backWhile_ok {fuel i : Nat} (hi : i ≤ buf.length) (hfuel : i < fuel) :
    ∃ j : Nat, backWhile p buf fuel i = .ok j ∧ j ≤ i := by
  induction fuel generalizing i with
  | zero => exact absurd hfuel (Nat.not_lt_zero _)
  | succ fuel ih =>
      rw [backWhile]
      cases i with
      | zero => exact ⟨0, rfl, Nat.le_refl 0⟩
      | succ i =>
          rw [if_pos (by omega), show ((i + 1 : Nat) : Int) - 1 = i by omega, nth_ok [] hi, ok_bind]
          cases p (buf.getD i []) with
          | true =>
              obtain ⟨j, hj, hle⟩ := ih (Nat.le_of_lt hi) (Nat.lt_of_succ_lt_succ hfuel)
              exact ⟨j, hj, Nat.le_succ_of_le hle⟩
          | false => exact ⟨i + 1, rfl, Nat.le_refl _⟩

theorem onWhile_ok {fuel i : Nat} (hi : i ≤ buf.length) (hfuel : buf.length - i < fuel) :
    ∃ j : Nat, onWhile p buf fuel i = .ok j ∧ i ≤ j ∧ j ≤ buf.length := by
  induction fuel generalizing i with
  | zero => exact absurd hfuel (Nat.not_lt_zero _)
  | succ fuel ih =>
      rw [onWhile]
      by_cases hlt : i < buf.length
      · rw [if_pos (by omega), nth_ok [] hlt, ok_bind]
        cases p (buf.getD i []) with
        | true =>
            obtain ⟨j, hj, hle, hlen⟩ := ih hlt (by omega)
            exact ⟨j, hj, by omega, hlen⟩
        | false => exact ⟨i, rfl, Nat.le_refl i, hi⟩
      · rw [if_neg (by omega)]
        exact ⟨i, rfl, Nat.le_refl i, hi⟩

theorem wordLeft_ok {i : Nat} (hi : i ≤ buf.length) : ∃ j : Nat, wordLeft buf i = .ok j ∧ j ≤ i := by
  obtain ⟨j, hj, hji⟩ := backWhile_ok (p := fun s => !isWordChar s) hi (Nat.lt_succ_self i)
  obtain ⟨k, hk, hkj⟩ := backWhile_ok (p := isWordChar) (hji.trans hi) (Nat.lt_succ_self j)
  refine ⟨k, ?_, hkj.trans hji⟩
  rw [wordLeft, Int.toNat_natCast, hj, ok_bind, Int.toNat_natCast, hk]

theorem wordRight_ok {i : Nat} (hi : i ≤ buf.length) :
    ∃ j : Nat, wordRight buf i = .ok j ∧ i ≤ j ∧ j ≤ buf.length := by
  obtain ⟨j, hj, hij, hj'⟩ := onWhile_ok (p := fun s => !isWordChar s) hi (show _ < buf.length + 1 by omega)
  obtain ⟨k, hk, hjk, hk'⟩ := onWhile_ok (p := isWordChar) hj' (show _ < buf.length + 1 by omega)
  refine ⟨k, ?_, hij.trans hjk, hk'⟩
  rw [wordRight, hj, ok_bind, hk]

/-! ### Editing -/

theorem Line.Ok.exists_pos (ok : st.Ok h) : ∃ n : Nat, st.pos = n ∧ n ≤ st.buf.length := by
  obtain ⟨n, hn⟩ := Int.eq_ofNat_of_zero_le ok.nonneg
  have := ok.le
  exact ⟨n, hn, by omega⟩

theorem insert_ok {n : Nat} (hn : st.pos = n) (hle : n ≤ st.buf.length) (cs : List Str) :
    st.insert cs = .ok { st with buf := st.buf.take n ++ cs ++ st.buf.drop n, pos := n + cs.length } := by
  rw [Line.insert, hn, subvec_zero hle, ok_bind, subvecFrom_ok hle, ok_bind]
  rfl

theorem deleteRange_ok {i j : Nat} (hi : i ≤ st.buf.length) (hj : j ≤ st.buf.length) :
    st.deleteRange i j = .ok { st with buf := st.buf.take i ++ st.buf.drop j, pos := i } := by
  rw [Line.deleteRange, subvec_zero hi, ok_bind, subvecFrom_ok hj, ok_bind]
  rfl

theorem kill_ok {i j : Nat} (hij : i ≤ j) (hj : j ≤ st.buf.length) :
    st.kill i j =
      .ok ({ st with buf := st.buf.take i ++ st.buf.drop j, pos := i }, (st.buf.take j).drop i) := by
  rw [Line.kill, subvec_ok hij hj, ok_bind, deleteRange_ok (hij.trans hj) hj, ok_bind]
  rfl

/-- What was killed is put back where it was. -/
theorem restored {i j : Nat} (hij : i ≤ j) (hj : j ≤ buf.length) :
    (buf.take i ++ buf.drop j).take i ++ (buf.take j).drop i ++ (buf.take i ++ buf.drop j).drop i = buf := by
  have hlen : (buf.take i).length = i := List.length_take_of_le (hij.trans hj)
  rw [List.take_left' hlen, List.drop_left' hlen]
  have htake : buf.take i ++ (buf.take j).drop i = buf.take j := by
    conv_rhs => rw [← List.take_append_drop i (buf.take j), List.take_take, Nat.min_eq_left hij]
  rw [htake, List.take_append_drop]

/-! ### Completion -/

theorem commonLoop_ok {a b pre : Str} {fuel i : Nat} (ha : pre <+: a) (hb : pre <+: b)
    (hi : i ≤ min a.length b.length) (hfuel : min a.length b.length - i < fuel) :
    ∃ r, commonLoop a b (min a.length b.length) fuel i = .ok r ∧ pre <+: r := by
  induction fuel generalizing i with
  | zero => exact absurd hfuel (Nat.not_lt_zero _)
  | succ fuel ih =>
      have hia : i ≤ a.length := hi.trans (Nat.min_le_left _ _)
      have hpa := ha.length_le
      have hpb := hb.length_le
      rw [commonLoop]
      by_cases hlt : i < min a.length b.length
      · have hla : i < a.length := by omega
        have hlb : i < b.length := by omega
        rw [if_pos hlt, show ((i : Nat) : Int) + 1 = (i + 1 : Nat) from rfl, subvec_ok (Nat.le_succ i) hla, ok_bind,
          subvec_ok (Nat.le_succ i) hlb, ok_bind]
        split_ifs with heq
        · exact ih (by omega) (by omega)
        · -- the strings differ behind the prefix
          refine ⟨a.take i, subvec_zero hia, List.prefix_of_prefix_length_le ha (List.take_prefix i a) ?_⟩
          rw [List.length_take_of_le hia]
          by_contra hgt
          obtain ⟨ta, rfl⟩ := ha
          obtain ⟨tb, rfl⟩ := hb
          rw [List.take_append_of_le_length (by omega), List.take_append_of_le_length (by omega)] at heq
          exact heq rfl
      · rw [if_neg hlt]
        refine ⟨a.take i, subvec_zero hia, List.prefix_of_prefix_length_le ha (List.take_prefix i a) ?_⟩
        rw [List.length_take_of_le hia]
        omega

theorem commonPrefix_ok {pre s : Str} {ss : List Str} (hs : pre <+: s) (hss : ∀ t ∈ ss, pre <+: t) :
    ∃ r, commonPrefix s ss = .ok r ∧ pre <+: r := by
  induction ss generalizing s with
  | nil => exact ⟨s, rfl, hs⟩
  | cons t ss ih =>
      rw [List.forall_mem_cons] at hss
      obtain ⟨r, hr, hpre⟩ := commonLoop_ok hs hss.1 (Nat.zero_le _)
        (show _ < min s.length t.length + 1 by omega)
      rw [commonPrefix, List.foldlM_cons, hr, ok_bind]
      exact ih hpre hss.2

/-! ### One keystroke -/

/-- A state that keeps the line in order. -/
theorem Line.Ok.of (ok : st.Ok h) (hhist : st'.hist = st.hist) {n : Nat} (hpos : st'.pos = n)
    (hle : n ≤ st'.buf.length) : st'.Ok h :=
  ⟨by omega, by omega, hhist ▸ ok.hist⟩

theorem keeps_insert (ok : st.Ok h) (cs : List Str) : ∃ st', st.insert cs = .ok st' ∧ st'.Ok h := by
  obtain ⟨n, hn, hle⟩ := ok.exists_pos
  refine ⟨_, insert_ok hn hle cs, ok.of (n := n + cs.length) rfl rfl ?_⟩
  dsimp only
  rw [List.length_append, List.length_append, List.length_take_of_le hle]
  exact Nat.le_add_right _ _

theorem keeps_deleteRange (ok : st.Ok h) {i j : Nat} (hij : i ≤ j) (hj : j ≤ st.buf.length) :
    ∃ st', st.deleteRange i j = .ok st' ∧ st'.Ok h := by
  refine ⟨_, deleteRange_ok (hij.trans hj) hj, ok.of (n := i) rfl rfl ?_⟩
  dsimp only
  rw [List.length_append, List.length_take_of_le (hij.trans hj)]
  exact Nat.le_add_right _ _

theorem keeps_shown {j : Option Int} (hj : ∀ i, j = some i → 0 ≤ i ∧ i < h.length) :
    ∃ st', st.shown h j = .ok st' ∧ st'.Ok h := by
  cases j with
  | none => exact ⟨_, rfl, Int.natCast_nonneg _, Int.le_refl _, hj⟩
  | some j =>
      obtain ⟨hnonneg, hlt⟩ := hj j rfl
      obtain ⟨n, rfl⟩ := Int.eq_ofNat_of_zero_le hnonneg
      rw [Line.shown]
      dsimp only
      rw [nth_ok [] (by omega)]
      exact ⟨_, rfl, Int.natCast_nonneg _, Int.le_refl _, hj⟩

theorem keeps_historyMove (ok : st.Ok h) (dir : Int) : ∃ st', st.historyMove h dir = .ok st' ∧ st'.Ok h := by
  unfold Line.historyMove
  cases hh : st.hist with
  | none =>
      dsimp only
      by_cases hold : dir < 0 ∧ 0 < (h.length : Int)
      · rw [if_pos hold, if_neg fun hnone => nomatch hnone.1]
        refine keeps_shown fun i hi => ?_
        cases hi
        omega
      · rw [if_neg hold, if_pos ⟨rfl, rfl⟩, if_pos rfl]
        exact ⟨_, rfl, ok.nonneg, ok.le, nofun⟩
  | some i =>
      obtain ⟨hnonneg, hlt⟩ := ok.hist i hh
      dsimp only
      rw [if_neg fun hnone => nomatch hnone.2]
      refine keeps_shown fun j hj => ?_
      split_ifs at hj <;> cases hj <;> omega

theorem keeps_complete (ok : st.Ok h) (hfair : ∀ pre, ∀ s ∈ candidates pre, pre <+: s) :
    ∃ st', st.complete candidates = .ok st' ∧ st'.Ok h := by
  obtain ⟨n, hn, hle⟩ := ok.exists_pos
  obtain ⟨j, hj, hjn⟩ := backWhile_ok (p := isWordChar) hle (Nat.lt_succ_self n)
  rw [Line.complete, hn, Int.toNat_natCast, hj, ok_bind, subvec_ok hjn hle, ok_bind]
  dsimp only
  generalize ((st.buf.take n).drop j).flatten = pre
  have hpre : ∀ s ∈ sortStrings (candidates pre), pre <+: s := fun s hs => hfair pre s (List.mem_mergeSort.mp hs)
  cases hsort : sortStrings (candidates pre) with
  | nil => exact ⟨st, rfl, ok⟩
  | cons cand cands =>
      rw [hsort, List.forall_mem_cons] at hpre
      obtain ⟨cp, hcp, hpre'⟩ := commonPrefix_ok hpre.1 hpre.2
      dsimp only
      split_ifs with hnil hone
      · exact ⟨st, rfl, ok⟩
      · rw [subvecFrom_ok hpre.1.length_le, ok_bind]
        exact keeps_insert ok _
      · rw [hcp, ok_bind, subvecFrom_ok hpre'.length_le, ok_bind]
        split_ifs
        · exact ⟨_, rfl, ok.of rfl rfl hle⟩
        · exact keeps_insert ok _

/-- The four commands that kill, with what they kill. -/
theorem kills (candidates : Str → List Str) (ring : List Str) {k : Keystroke} (ok : st.Ok h)
    (hk : command k = .killLine ∨ command k = .killStart ∨ command k = .killWordLeft ∨ command k = .killWordRight) :
    ∃ i j : Nat, i ≤ j ∧ j ≤ st.buf.length ∧ handle h candidates ring st k =
      .ok (.edit { st with buf := st.buf.take i ++ st.buf.drop j, pos := i }, (st.buf.take j).drop i) := by
  obtain ⟨n, hn, hle⟩ := ok.exists_pos
  unfold handle
  rcases hk with hk | hk | hk | hk
  · refine ⟨n, st.buf.length, hle, Nat.le_refl _, ?_⟩
    rw [hk]
    dsimp only
    rw [hn, kill_ok hle (Nat.le_refl _)]
    rfl
  · refine ⟨0, n, Nat.zero_le n, hle, ?_⟩
    rw [hk]
    dsimp only
    rw [hn, show (0 : Int) = (0 : Nat) from rfl, kill_ok (Nat.zero_le n) hle]
    rfl
  · obtain ⟨l, hl, hln⟩ := wordLeft_ok hle
    refine ⟨l, n, hln, hle, ?_⟩
    rw [hk]
    dsimp only
    rw [hn, hl, ok_bind, kill_ok hln hle]
    rfl
  · obtain ⟨r, hr, hnr, hrlen⟩ := wordRight_ok hle
    refine ⟨n, r, hnr, hrlen, ?_⟩
    rw [hk]
    dsimp only
    rw [hn, hr, ok_bind, kill_ok hnr hrlen]
    rfl

/-- `handle` does not throw, and keeps the line in order. -/
theorem handle_ok (ok : st.Ok h) (hfair : ∀ pre, ∀ s ∈ candidates pre, pre <+: s) (ring : List Str) (k : Keystroke) :
    ∃ r, handle h candidates ring st k = .ok r ∧ ∀ st', r.1 = .edit st' → st'.Ok h := by
  have hkeep : ∀ {x : Except Error Line}, (∃ st', x = .ok st' ∧ st'.Ok h) →
      ∃ r, (do pure (Outcome.edit (← x), ring) : Except Error (Outcome × List Str)) = .ok r ∧
        ∀ st', r.1 = .edit st' → st'.Ok h := by
    rintro x ⟨st', rfl, ok'⟩
    exact ⟨(.edit st', ring), rfl, fun _ heq => Outcome.edit.inj heq ▸ ok'⟩
  have hmove : ∀ n : Nat, n ≤ st.buf.length → ∀ i : Int, i = n → ∃ st' : Line,
      (pure { st with pos := i } : Except Error Line) = .ok st' ∧ st'.Ok h :=
    fun n hle i hi => ⟨_, rfl, ok.of rfl hi hle⟩
  have hkill : command k = .killLine ∨ command k = .killStart ∨ command k = .killWordLeft ∨
      command k = .killWordRight →
      ∃ r, handle h candidates ring st k = .ok r ∧ ∀ st', r.1 = .edit st' → st'.Ok h := by
    intro hk
    obtain ⟨i, j, hij, hj, hr⟩ := kills candidates ring ok hk
    refine ⟨_, hr, fun st' heq => Outcome.edit.inj heq ▸ ok.of (n := i) rfl rfl ?_⟩
    dsimp only
    rw [List.length_append, List.length_take_of_le (hij.trans hj)]
    exact Nat.le_add_right _ _
  by_cases hkills : command k = .killLine ∨ command k = .killStart ∨ command k = .killWordLeft ∨
      command k = .killWordRight
  · exact hkill hkills
  obtain ⟨n, hn, hle⟩ := ok.exists_pos
  unfold handle
  cases hk : command k with
  | insert s => exact hkeep (keeps_insert ok [s])
  | submit => exact ⟨_, rfl, fun st' heq => nomatch heq⟩
  | cancel => exact ⟨_, rfl, fun st' heq => nomatch heq⟩
  | backspace =>
      refine hkeep ?_
      rw [hn]
      by_cases hpos : 0 < n
      · rw [if_pos (by omega), show (n : Int) - 1 = (n - 1 : Nat) by omega]
        exact keeps_deleteRange ok (Nat.sub_le n 1) hle
      · rw [if_neg (by omega)]
        exact ⟨st, rfl, ok⟩
  | delete =>
      refine hkeep ?_
      rw [hn]
      by_cases hpos : n < st.buf.length
      · rw [if_pos (by omega), show (n : Int) + 1 = (n + 1 : Nat) from rfl]
        exact keeps_deleteRange ok (Nat.le_succ n) hpos
      · rw [if_neg (by omega)]
        exact ⟨st, rfl, ok⟩
  | left => exact hkeep (hmove (n - 1) (by omega) _ (by omega))
  | right => exact hkeep (hmove (min st.buf.length (n + 1)) (Nat.min_le_left _ _) _ (by omega))
  | lineStart => exact hkeep (hmove 0 (Nat.zero_le _) 0 rfl)
  | lineEnd => exact hkeep (hmove st.buf.length (Nat.le_refl _) _ rfl)
  | wordLeft =>
      obtain ⟨l, hl, hln⟩ := wordLeft_ok hle
      refine hkeep ?_
      rw [hn, hl, ok_bind]
      exact hmove l (hln.trans hle) l rfl
  | wordRight =>
      obtain ⟨r, hr, -, hrlen⟩ := wordRight_ok hle
      refine hkeep ?_
      rw [hn, hr, ok_bind]
      exact hmove r hrlen r rfl
  | killLine => exact absurd (.inl hk) hkills
  | killStart => exact absurd (.inr (.inl hk)) hkills
  | killWordLeft => exact absurd (.inr (.inr (.inl hk))) hkills
  | killWordRight => exact absurd (.inr (.inr (.inr hk))) hkills
  | yank => exact hkeep (keeps_insert ok ring)
  | older => exact hkeep (keeps_historyMove ok (-1))
  | newer => exact hkeep (keeps_historyMove ok 1)
  | complete => exact hkeep (keeps_complete ok hfair)
  | clear => exact hkeep ⟨_, rfl, ok.of (n := n) rfl hn hle⟩
  | ignore => exact hkeep ⟨st, rfl, ok⟩

/-! ### Runs -/

/-- `C-k`, `C-u`, `C-w` and `M-d`. -/
def killKeys : List Keystroke :=
  [.ofKey (.keyword ['k']) ctrlMods, .ofKey (.keyword ['u']) ctrlMods, .ofKey (.keyword ['w']) ctrlMods,
    .ofKey (.keyword ['d']) ⟨false, true, false⟩]

/-- `C-y`. -/
def yankKey : Keystroke := .ofKey (.keyword ['y']) ctrlMods

/-- The key `k` and then `C-y` lead to a state with the same buffer. -/
def Editing.Recovers (h : List Str) (s : Editing) (k : Keystroke) : Prop :=
  ∀ e e' : Stroke, e.key = k → e'.key = yankKey →
    ∃ s₁ s₂, Editing.step h e s = some s₁ ∧ Editing.step h e' s₁ = some s₂ ∧ s₂.st.buf = s.st.buf

theorem step_keeps {e : Stroke} {s s' : Editing} (hfair : e.Fair) (hstep : Editing.step h e s = some s')
    (ok : s.st.Ok h) : s'.st.Ok h := by
  obtain ⟨⟨r, ring'⟩, hr, hok⟩ := handle_ok ok hfair s.ring e.key
  unfold Editing.step at hstep
  rw [hr] at hstep
  cases r with
  | edit st' =>
      cases hstep
      exact ⟨(hok st' rfl).nonneg, (hok st' rfl).le, (hok st' rfl).hist⟩
  | done s => cases hstep
  | cancel => cases hstep

theorem recovers (s : Editing) (ok : s.st.Ok h) {k : Keystroke} (hk : k ∈ killKeys) : s.Recovers h k := by
  intro e e' he he'
  have hcommand : command e.key = .killLine ∨ command e.key = .killStart ∨ command e.key = .killWordLeft ∨
      command e.key = .killWordRight := by
    simp only [killKeys, List.mem_cons, List.not_mem_nil, or_false] at hk
    rw [he]
    rcases hk with rfl | rfl | rfl | rfl
    · exact .inl rfl
    · exact .inr (.inl rfl)
    · exact .inr (.inr (.inl rfl))
    · exact .inr (.inr (.inr rfl))
  obtain ⟨i, j, hij, hj, hr⟩ := kills e.candidates s.ring ok hcommand
  have hyank : command e'.key = .yank := by
    rw [he']
    rfl
  have hkilled : ∃ s₁, Editing.step h e s = some s₁ ∧ s₁.st.buf = s.st.buf.take i ++ s.st.buf.drop j ∧ s₁.st.pos = i ∧
      s₁.ring = (s.st.buf.take j).drop i := by
    unfold Editing.step
    rw [hr]
    exact ⟨_, rfl, rfl, rfl, rfl⟩
  obtain ⟨s₁, hs₁, hbuf, hpos, hring⟩ := hkilled
  have hle : i ≤ s₁.st.buf.length := by
    rw [hbuf, List.length_append, List.length_take_of_le (hij.trans hj)]
    exact Nat.le_add_right _ _
  have hyanked : ∃ s₂, Editing.step h e' s₁ = some s₂ ∧
      s₂.st.buf = s₁.st.buf.take i ++ s₁.ring ++ s₁.st.buf.drop i := by
    unfold Editing.step handle
    rw [hyank]
    dsimp only
    rw [insert_ok hpos hle, ok_bind]
    exact ⟨_, rfl, rfl⟩
  obtain ⟨s₂, hs₂, hbuf₂⟩ := hyanked
  refine ⟨s₁, s₂, hs₁, hs₂, ?_⟩
  rw [hbuf₂, hring, hbuf]
  exact restored hij hj

/-- Keystrokes with `:char` are put at the end of the line. -/
theorem run_chars {es : List Stroke} {ss : List Str} (hes : es.map (fun e => e.key.char) = ss.map some) {s : Editing}
    (hend : s.st.pos = s.st.buf.length) :
    ∃ s', Interleave.runEvents (Editing.step h) s es = some s' ∧ s'.ring = s.ring ∧
      s'.st.buf = s.st.buf ++ ss ∧ s'.st.pos = s'.st.buf.length := by
  induction es generalizing ss s with
  | nil =>
      rw [List.map_nil] at hes
      rw [List.map_eq_nil_iff.mp hes.symm, List.append_nil]
      exact ⟨s, rfl, rfl, rfl, hend⟩
  | cons e es ih =>
      cases ss with
      | nil => cases hes
      | cons c ss =>
          rw [List.map_cons, List.map_cons, List.cons.injEq] at hes
          have hcommand : command e.key = .insert c := by
            unfold command
            rw [hes.1]
          have hstep : ∃ s₁, Editing.step h e s = some s₁ ∧ s₁.ring = s.ring ∧ s₁.st.buf = s.st.buf ++ [c] ∧
              s₁.st.pos = s₁.st.buf.length := by
            unfold Editing.step handle
            rw [hcommand]
            dsimp only
            rw [insert_ok hend (Nat.le_refl _), ok_bind]
            refine ⟨_, rfl, rfl, ?_, ?_⟩
            · dsimp only
              rw [List.take_length, List.drop_length, List.append_nil]
            · dsimp only
              rw [List.take_length, List.drop_length, List.append_nil, List.length_append]
              rfl
          obtain ⟨s₁, hs₁, hring, hbuf, hpos⟩ := hstep
          obtain ⟨s', hrun, hring', hbuf', hpos'⟩ := ih hes.2 hpos
          refine ⟨s', ?_, hring'.trans hring, ?_, hpos'⟩
          · rw [Interleave.runEvents, hs₁]
            exact hrun
          · rw [hbuf', hbuf, List.append_assoc]
            rfl

theorem start_ok : Line.start.Ok h := ⟨Int.le_refl 0, Int.le_refl 0, nofun⟩

end Beeros.Lineedit
