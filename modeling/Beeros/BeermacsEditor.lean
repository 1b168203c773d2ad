import Mathlib.Data.List.AList
import Beeros.Exec
import Beeros.BeermacsBuffer

/-! `beermacs.core` (`packages/beermacs/src/beermacs/core.beer`): the editor state, the display, the
minibuffer, the commands and the command loop. The keys typed and what is written to the tty are the
state of `M`; files, evaluation and `beer.help` are answers from outside, any at each command. -/

namespace Beeros.Beermacs

open Beerlang
open Lines (Pos)

/-- What `:last` and `:this` hold. -/
inductive Tag
  | selfInsert
  | kill
  | arg
deriving DecidableEq, Repr

structure Editor where
  buffers : AList fun _ : Str => Buffer
  current : Str
  kill : Str := []
  msg : Str := []
  quit : Bool := false
  last : Option Tag := none
  this : Option Tag := none
  /-- `:arg` is there. -/
  arg : Bool := false
  screen : List Str := []
  size : Nat × Nat
  prompt : Option Str := none

/-- The answers from outside. -/
structure Env where
  size : Nat × Nat
  /-- `beer.fs/slurp`; `none`: it throws. -/
  slurp : Str → Option Str
  /-- `beer.fs/spit!`; the message of what it throws. -/
  spit : Str → Str → Option Str
  /-- `eval-string`: the printed value and the output. -/
  evalString : Str → Str × Str
  /-- What `beer.help/describe` prints; `none`: it throws. -/
  describe : Str → Option Str
  apropos : Str → List (Str × Option Str)
  lowerCase : Str → Str
  trim : Str → Str
  errorText : Error → Str

/-- Why a command does not go on: an exception, or no key is typed. -/
inductive Stop
  | thrown (e : Error)
  | waiting
deriving DecidableEq

structure Tty where
  keys : List Str
  out : Str := []

abbrev M := EStateM Stop Tty

def lift {α : Type} : Except Error α → M α
  | .ok a => pure a
  | .error e => throw (.thrown e)

/-- `(catch e ...)`; a loop without end is not caught. -/
def catching {α : Type} (x : M α) (handler : Error → M α) : M α :=
  tryCatch x fun
    | .thrown .endless => throw (.thrown .endless)
    | .thrown e => handler e
    | .waiting => throw .waiting

def str (s : String) : Str := s.toList

def esc : Str := ['\x1b']
def csi : Str := esc ++ ['[']

/-! ### Editor state -/

namespace Editor

def buf (ed : Editor) : Option Buffer := ed.buffers.lookup ed.current

/-- The current buffer; without one its fields are not there to compute with. -/
def buf! (ed : Editor) : Except Error Buffer :=
  match ed.buf with
  | some b => .ok b
  | none => .error .outOfRange

def setBuf (ed : Editor) (b : Buffer) : Editor := { ed with buffers := ed.buffers.insert ed.current b }

def updateBuf (ed : Editor) (f : Buffer → Except Error Buffer) : Except Error Editor := do
  pure (ed.setBuf (← f (← ed.buf!)))

def message (ed : Editor) (m : Str) : Editor := { ed with msg := m }

def uniqueName (ed : Editor) (nm : Str) : Except Error Str :=
  if (ed.buffers.lookup nm).isNone then pure nm
  else
    loop (fun i =>
      let n := nm ++ ['<'] ++ decimal i ++ ['>']
      pure (if (ed.buffers.lookup n).isSome then .inr (i + 1) else .inl n)) (ed.buffers.keys.length + 1) 2

def addBuffer (ed : Editor) (bf : Buffer) : Except Error Editor := do
  let nm ← ed.uniqueName bf.name
  pure { ed with buffers := ed.buffers.insert nm { bf with name := nm }, current := nm }

/-! ### Display -/

def textRows (ed : Editor) : Int := ed.size.2 - 2

/-- Keep point on screen: recenter vertically, shift horizontally. -/
def scrollToPoint (ed : Editor) : Except Error Editor := do
  let cols := ed.size.1
  let h := ed.textRows
  let bf ← ed.buf!
  let recentered := (max 0 (bf.row - h.tdiv 2)).toNat
  let top := if bf.row < bf.top then recentered else if (bf.row : Int) ≥ bf.top + h then recentered else bf.top
  let left :=
    if bf.col < bf.left then bf.col - cols / 2
    else if bf.col + 1 ≥ bf.left + cols then bf.col - cols / 2
    else bf.left
  ed.updateBuf fun x => pure { x with top := top, left := left }

end Editor

def visible (l : Str) (left cols : Nat) : Except Error Str := do
  let n := l.length
  let part ← if left ≥ n then pure [] else subvec l left (min n (left + cols) : Nat)
  if n > left + cols then pure ((← subvec part 0 ((cols : Int) - 1)) ++ ['$']) else pure part

def pad (x : Str) (n : Nat) : Str :=
  if x.length ≥ n then x.take n else x ++ List.replicate (n - x.length) ' '

namespace Editor

def modeLine (ed : Editor) (cols : Nat) : Except Error Str := do
  let bf ← ed.buf!
  pure (csi ++ str "7m" ++
    pad (str "-" ++ str (if bf.modified then "**" else "--") ++ str "- " ++ bf.name ++
      str "   L" ++ decimal (bf.row + 1) ++ str " C" ++ decimal bf.col ++
      (match bf.file with
        | some f => str "   " ++ f
        | none => []) ++
      str "   (beermacs)") cols ++
    csi ++ str "0m")

/-- What each screen row should show: text rows, the mode line, the minibuffer. -/
def screenRows (ed : Editor) : Except Error (List Str) := do
  let cols := ed.size.1
  let bf ← ed.buf!
  let rows ← (List.range ed.textRows.toNat).mapM fun i => do
    let r := bf.top + i
    if r ≤ bf.lastRow then visible (← bf.line r) bf.left cols else pure []
  pure (rows ++ [← ed.modeLine cols] ++ [← visible (ed.prompt.getD ed.msg) 0 cols])

/-- The row where the terminal's cursor goes, and the column. -/
def cursor (ed : Editor) (bf : Buffer) (rows : Nat) : Int × Int :=
  match ed.prompt with
  | some p => (rows - 1, p.length)
  | none => (bf.row - bf.top, bf.col - bf.left)

/-- The text that rewrites row `i`. -/
def rowText (i : Nat) (line : Str) : Str := csi ++ decimal (i + 1) ++ str ";1H" ++ line ++ csi ++ str "K"

/-- The row texts that differ from the ones drawn last time. -/
def changedRows (old new : List Str) : Str :=
  new.zipIdx.flatMap fun li => if some li.1 = old[li.2]? then [] else rowText li.2 li.1

/-- `redisplay!`: what it writes, and the new state. -/
def redisplay (ed : Editor) : Except Error (Str × Editor) := do
  let ed ← ed.scrollToPoint
  let new ← ed.screenRows
  let bf ← ed.buf!
  let cur := ed.cursor bf new.length
  let out := csi ++ str "?25l" ++ changedRows ed.screen new ++
    csi ++ decimal (cur.1 + 1).toNat ++ [';'] ++ decimal (cur.2 + 1).toNat ++ ['H'] ++ csi ++ str "?25h"
  pure (out, { ed with screen := new })

end Editor

def readKey : M Str := do
  match (← get).keys with
  | k :: ks =>
      modify fun t => { t with keys := ks }
      pure k
  | [] => throw .waiting

namespace Editor

def redisplay! (ed : Editor) : M Editor := do
  let (out, ed) ← lift ed.redisplay
  modify fun t => { t with out := t.out ++ out }
  pure ed

/-! ### The minibuffer -/

/-- `read-minibuffer` for a number of keys. -/
def readMinibufferLoop (prompt : Str) : Nat → Editor → Str → M (Editor × Option Str)
  | 0, _, _ => throw .waiting
  | n + 1, ed, input => do
      let ed ← redisplay! { ed with prompt := some (prompt ++ input) }
      let k ← readKey
      if k = str "RET" then pure ({ ed with prompt := none }, some input)
      else if k = str "C-g" then pure (message { ed with prompt := none } (str "Quit"), none)
      else if k = str "DEL" then readMinibufferLoop prompt n ed input.dropLast
      else if k.length = 1 then readMinibufferLoop prompt n ed (input ++ k)
      else if k = str "SPC" then readMinibufferLoop prompt n ed (input ++ [' '])
      else readMinibufferLoop prompt n ed input

/-- Read a line in the minibuffer after `prompt`; `none` on C-g. -/
def readMinibuffer (ed : Editor) (prompt initial : Str) : M (Editor × Option Str) := do
  readMinibufferLoop prompt ((← get).keys.length + 1) ed initial

def yOrNLoop (question : Str) : Nat → Editor → M (Editor × Bool)
  | 0, _ => throw .waiting
  | n + 1, ed => do
      let ed ← redisplay! { ed with prompt := some (question ++ str " (y or n) ") }
      let k ← readKey
      if k = str "y" then pure ({ ed with prompt := none }, true)
      else if k = str "n" ∨ k = str "C-g" then pure ({ ed with prompt := none }, false)
      else yOrNLoop question n ed

/-- `y-or-n?`. -/
def yOrN (ed : Editor) (question : Str) : M (Editor × Bool) := do
  yOrNLoop question ((← get).keys.length + 1) ed

end Editor

end Beeros.Beermacs
