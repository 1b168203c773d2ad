import Beeros.Lines
import Beeros.Beerlang

/-! `beermacs.buffer` (`packages/beermacs/src/beermacs/buffer.beer`): the text of a buffer as data. A
string of one character is a `Char`. `beer.string/split` keeps empty parts. -/

namespace Beeros.Beermacs

open Beerlang
open Lines (Pos)

def expandTabs (line : Str) : Str :=
  if '\t' ∈ line then
    line.foldl (fun out c =>
      if c = '\t' then out ++ List.replicate (8 - out.length % 8) ' ' else out ++ [c]) []
  else line

structure Snapshot where
  lines : List Str
  row : Nat
  col : Nat
deriving DecidableEq, Repr

structure Buffer where
  name : Str
  file : Option Str
  lines : List Str
  row : Nat := 0
  col : Nat := 0
  goal : Option Nat := none
  mark : Option Pos := none
  top : Nat := 0
  left : Nat := 0
  modified : Bool := false
  undo : List Snapshot := []
  /-- `:keymap` is `help-mode-map`. -/
  helpMode : Bool := false
  /-- `:prev` of the help buffer. -/
  prev : Option Str := none
deriving DecidableEq, Repr

/-- `(s/split text "\n")`. -/
def split (text : Str) : List Str := text.splitOn '\n'

/-- `(s/join "\n" lines)`. -/
def join (lines : List Str) : Str := Lines.flat '\n' lines

def newBuffer (nm text : Str) (file : Option Str) : Buffer :=
  { name := nm, file := file, lines := (split text).map expandTabs }

namespace Buffer

/-- `(max 0 (min x n))`. -/
def clamp (x : Int) (n : Nat) : Nat := (max 0 (min x n)).toNat

def text (b : Buffer) : Str := join b.lines

def line (b : Buffer) (r : Nat) : Except Error Str := nth b.lines r
def curLine (b : Buffer) : Except Error Str := b.line b.row
def lastRow (b : Buffer) : Nat := b.lines.length - 1

def point (b : Buffer) : Pos := (b.row, b.col)

def goto (b : Buffer) (r c : Int) : Except Error Buffer := do
  let r := clamp r b.lastRow
  let c := clamp c (← b.line r).length
  pure { b with row := r, col := c, goal := none }

end Buffer

/-- `before?`. -/
def before (p q : Pos) : Bool := p.1 < q.1 || (p.1 == q.1 && p.2 < q.2)

def ordered (p q : Pos) : Pos × Pos := if before q p then (q, p) else (p, q)

namespace Buffer

/-! ### Undo -/

def undoMax : Nat := 200

def snapshot (b : Buffer) : Buffer :=
  { b with undo := (⟨b.lines, b.row, b.col⟩ :: b.undo).take undoMax }

/-- `undo`; the field of that name holds the earlier states. -/
def undoOnce (b : Buffer) : Buffer :=
  match b.undo with
  | u :: rest =>
      { b with lines := u.lines, row := u.row, col := u.col, undo := rest, modified := true, goal := none }
  | [] => b

/-! ### Text between positions -/

/-- The text from `p` to `q`, in either order. -/
def textBetween (b : Buffer) (p q : Pos) : Except Error Str := do
  let ((r1, c1), (r2, c2)) := ordered p q
  if r1 = r2 then subvec (← b.line r1) c1 c2
  else
    let first ← subvecFrom (← b.line r1) c1
    let middle ← (List.range' (r1 + 1) (r2 - (r1 + 1))).mapM b.line
    let last ← subvec (← b.line r2) 0 c2
    pure (join ([first] ++ middle ++ [last]))

/-- Remove the text from `p` to `q`; point goes to the earlier one. -/
def deleteBetween (b : Buffer) (p q : Pos) : Except Error Buffer := do
  let ((r1, c1), (r2, c2)) := ordered p q
  let joined := (← subvec (← b.line r1) 0 c1) ++ (← subvecFrom (← b.line r2) c2)
  let ls := b.lines
  pure { b with
    lines := (← subvec ls 0 r1) ++ [joined] ++ (← subvecFrom ls (r2 + 1))
    row := r1, col := c1, goal := none, modified := true }

/-- The rows that come in the place of the current one. -/
def newRows (before : Str) (parts : List Str) (after : Str) : Except Error (List Str) := do
  let n := parts.length
  if n = 1 then pure [before ++ parts.headD [] ++ after]
  else
    let middle ← subvec parts 1 (n - 1 : Nat)
    pure ([before ++ parts.headD []] ++ middle ++ [parts.getLastD [] ++ after])

/-- Insert a string, which may hold newlines, at point; point ends after it. -/
def insert (b : Buffer) (text : Str) : Except Error Buffer := do
  let l ← b.curLine
  let c := b.col
  let r := b.row
  let parts := split (expandTabs text)
  let n := parts.length
  let before ← subvec l 0 c
  let after ← subvecFrom l c
  let new ← newRows before parts after
  let ls := b.lines
  pure { b with
    lines := (← subvec ls 0 r) ++ new ++ (← subvecFrom ls (r + 1))
    row := r + (n - 1)
    col := if n = 1 then c + (parts.headD []).length else (parts.getLastD []).length
    goal := none, modified := true }

/-! ### Motion -/

def forwardChar (b : Buffer) : Except Error Buffer := do
  if b.col < (← b.curLine).length then pure { b with col := b.col + 1, goal := none }
  else if b.row < b.lastRow then pure { b with row := b.row + 1, col := 0, goal := none }
  else pure b

def backwardChar (b : Buffer) : Except Error Buffer := do
  if b.col > 0 then pure { b with col := b.col - 1, goal := none }
  else if b.row > 0 then
    let r := b.row - 1
    pure { b with row := r, col := (← b.line r).length, goal := none }
  else pure b

def vertical (b : Buffer) (dr : Int) : Except Error Buffer := do
  let goal := b.goal.getD b.col
  let r := (max 0 (min (b.row + dr) b.lastRow)).toNat
  pure { b with row := r, col := min goal (← b.line r).length, goal := some goal }

def nextLine (b : Buffer) : Except Error Buffer := b.vertical 1
def previousLine (b : Buffer) : Except Error Buffer := b.vertical (-1)
def beginningOfLine (b : Buffer) : Except Error Buffer := pure { b with col := 0, goal := none }

def endOfLine (b : Buffer) : Except Error Buffer := do
  pure { b with col := (← b.curLine).length, goal := none }

def beginningOfBuffer (b : Buffer) : Except Error Buffer := b.goto 0 0

def endOfBuffer (b : Buffer) : Except Error Buffer := do
  b.goto b.lastRow (← b.line b.lastRow).length

end Buffer

/-- `word-char?`. -/
def wordChar (ch : Char) : Bool := !(" \t\n()[]\x7b\x7d\"',`;@^~".toList.contains ch)

namespace Buffer

/-- The character at a position, a newline at the end of a line. -/
def charAt (b : Buffer) (p : Pos) : Except Error Char := do
  let l ← b.line p.1
  if p.2 < l.length then nth l p.2 else pure '\n'

/-- `at-end?`. -/
def atEnd (b : Buffer) : Except Error Bool := do
  if b.row = b.lastRow then pure (b.col == (← b.curLine).length) else pure false

/-- `at-start?`. -/
def atStart (b : Buffer) : Bool := b.row == 0 && b.col == 0

/-- More rounds than a loop over the text takes. -/
def rounds (b : Buffer) : Nat := b.text.length + 2

/-- Forward to the end or to a character `p`. -/
def skipForward (p : Char → Bool) (b : Buffer) : Except Error Buffer :=
  loop (fun b => do
    if ← b.atEnd then pure (.inl b)
    else if p (← b.charAt b.point) then pure (.inl b)
    else pure (.inr (← b.forwardChar))) b.rounds b

/-- Back to the start or to a place after a character `p`. -/
def skipBackward (p : Char → Bool) (b : Buffer) : Except Error Buffer :=
  loop (fun b => do
    if b.atStart then pure (.inl b)
    else
      let prev ← b.backwardChar
      if p (← prev.charAt prev.point) then pure (.inl b) else pure (.inr prev)) b.rounds b

def forwardWord (b : Buffer) : Except Error Buffer := do
  (← b.skipForward wordChar).skipForward fun c => !wordChar c

def backwardWord (b : Buffer) : Except Error Buffer := do
  (← b.skipBackward wordChar).skipBackward fun c => !wordChar c

/-! ### Editing -/

def deleteChar (b : Buffer) : Except Error Buffer := do
  if ← b.atEnd then pure b else b.deleteBetween b.point (← b.forwardChar).point

def deleteBackwardChar (b : Buffer) : Except Error Buffer := do
  if b.atStart then pure b else b.deleteBetween (← b.backwardChar).point b.point

end Buffer

/-- The spaces a line starts with. -/
def indentation (l : Str) : Nat := (l.takeWhile (· == ' ')).length

namespace Buffer

def newlineAndIndent (b : Buffer) : Except Error Buffer := do
  b.insert ('\n' :: List.replicate (indentation (← subvec (← b.curLine) 0 b.col)) ' ')

/-- Where C-k kills to. -/
def killTo (b : Buffer) : Except Error Pos := do
  if b.col = (← b.curLine).length then pure (← b.forwardChar).point
  else pure (b.row, (← b.curLine).length)

/-- The killed text and the new buffer for C-k: the rest of the line, or the newline when point is at
its end. -/
def killLineText (b : Buffer) : Except Error (Str × Buffer) := do
  let here := b.point
  let dest ← b.killTo
  pure (← b.textBetween here dest, ← b.deleteBetween here dest)

/-! ### Search -/

end Buffer

def findInLine (l pat : Str) (start : Nat) : Option Nat :=
  (List.range' start (l.length + 1 - pat.length - start)).find? fun i => (l.drop i).take pat.length = pat

namespace Buffer

/-- The first match of `pat` at or after a position; case-insensitive when `pat` has no capitals. -/
def searchForward (lowerCase : Str → Str) (b : Buffer) (pat : Str) (p : Pos) : Except Error (Option Pos) :=
  let fold := pat = lowerCase pat
  let pat := if fold then lowerCase pat else pat
  let prep l := if fold then lowerCase l else l
  loop (fun (rc : Pos) => do
    if rc.1 ≤ b.lastRow then
      match findInLine (prep (← b.line rc.1)) pat rc.2 with
      | some i => pure (.inl (some (rc.1, i)))
      | none => pure (.inr (rc.1 + 1, 0))
    else pure (.inl none)) (b.lines.length + 1) p

/-! ### S-expressions -/

end Buffer

def closers : Char → Option Char
  | ')' => some '('
  | ']' => some '['
  | '\x7d' => some '\x7b'
  | _ => none

namespace Buffer

/-- `prev` of `sexp-before`: one character back. -/
def prevPos (b : Buffer) (p : Pos) : Except Error Pos := do
  pure (← (← b.goto p.1 p.2).backwardChar).point

/-- Skip whitespace back. -/
def skipBlanks (b : Buffer) (p : Pos) : Except Error Pos :=
  loop (fun p => do
    if p = (0, 0) then pure (.inl p)
    else
      let q ← b.prevPos p
      if [' ', '\n'].contains (← b.charAt q) then pure (.inr q) else pure (.inl p)) b.rounds p

/-- Back to the bracket that opens the one at `q`. -/
def openerOf (b : Buffer) (q : Pos) : Except Error (Option Pos) :=
  loop (fun (qd : Pos × Int) => do
    let c ← b.charAt qd.1
    let depth :=
      if (closers c).isSome then qd.2 + 1 else if ['(', '[', '\x7b'].contains c then qd.2 - 1 else qd.2
    if depth = 0 then pure (.inl (some qd.1))
    else if qd.1 = (0, 0) then pure (.inl none)
    else pure (.inr (← b.prevPos qd.1, depth))) b.rounds (q, 0)

/-- Back to a double quote. -/
def quoteBefore (b : Buffer) (q : Pos) : Except Error (Option Pos) :=
  loop (fun q => do
    if (← b.charAt q) = '"' then pure (.inl (some q))
    else if q = (0, 0) then pure (.inl none)
    else pure (.inr (← b.prevPos q))) b.rounds q

/-- Back to where a word starts. -/
def wordStart (b : Buffer) (q : Pos) : Except Error (Option Pos) :=
  loop (fun q => do
    if q = (0, 0) then pure (.inl (some q))
    else
      let q' ← b.prevPos q
      if !wordChar (← b.charAt q') then pure (.inl (some q)) else pure (.inr q')) b.rounds q

/-- Start of the s-expression ending at point. -/
def sexpBefore (b : Buffer) : Except Error (Option Pos) := do
  let p ← b.skipBlanks b.point
  if p = (0, 0) then pure none
  else
    let q ← b.prevPos p
    let c ← b.charAt q
    if (closers c).isSome then b.openerOf q
    else if c = '"' then b.quoteBefore (← b.prevPos q)
    else b.wordStart q

end Buffer

end Beeros.Beermacs
