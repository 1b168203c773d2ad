import Beeros.BeermacsEditor

/-! The commands of `beermacs.core`, its keymaps, the command loop and the state it starts in. -/

namespace Beeros.Beermacs

open Beerlang
open Lines (Pos)

namespace Editor

/-! ### Commands on the text -/

def motion (f : Buffer → Except Error Buffer) (ed : Editor) : Except Error Editor := ed.updateBuf f

/-- A command that changes the text: undo gets a snapshot first (one for a run of self-inserts). -/
def edit (f : Buffer → Except Error Buffer) (ed : Editor) : Except Error Editor :=
  ed.updateBuf fun x => f (if ed.last = some .selfInsert then x else x.snapshot)

def selfInsert (ed : Editor) (k : Str) : Except Error Editor := do
  pure { (← edit (fun x => x.insert k) ed) with this := some .selfInsert }

def openLine (x : Buffer) : Except Error Buffer := do (← x.insert ['\n']).goto x.row x.col

/-- Mark where point is, then move. -/
def marking (f : Buffer → Except Error Buffer) (x : Buffer) : Except Error Buffer :=
  f { x with mark := some x.point }

def scroll (ed : Editor) (sign : Int) : Except Error Editor :=
  ed.updateBuf fun x => x.vertical (sign * max 1 (ed.textRows - 2))

def recenter (ed : Editor) : Except Error Editor := do
  let ed' ← ed.updateBuf fun x => pure { x with top := (max 0 (x.row - ed.textRows.tdiv 2)).toNat }
  pure { ed' with screen := [] }

/-- Kill to the end of the line, or the newline at its end; repeated kills append. -/
def killLine (ed : Editor) : Except Error Editor := do
  let (killed, nb) ← (← ed.buf!).snapshot.killLineText
  let ed' ← ed.updateBuf fun _ => pure nb
  pure { ed' with
    kill := if ed.last = some .kill then ed.kill ++ killed else killed
    this := some .kill }

def killWord (ed : Editor) : Except Error Editor := do
  let x ← ed.buf!
  let dest := (← x.forwardWord).point
  let ed' ← ed.updateBuf fun _ => x.snapshot.deleteBetween x.point dest
  pure { ed' with kill := ← x.textBetween x.point dest }

def backwardKillWord (ed : Editor) : Except Error Editor := do
  let x ← ed.buf!
  let source := (← x.backwardWord).point
  let ed' ← ed.updateBuf fun _ => x.snapshot.deleteBetween source x.point
  pure { ed' with kill := ← x.textBetween source x.point }

def setMark (ed : Editor) : Except Error Editor := do
  pure ((← ed.updateBuf fun x => pure { x with mark := some x.point }).message (str "Mark set"))

def withRegion (ed : Editor) (f : Buffer → Pos → Pos → Except Error Editor) : Except Error Editor := do
  let x ← ed.buf!
  match x.mark with
  | some m => f x m x.point
  | none => pure (ed.message (str "The mark is not set now"))

/-- Kill the text between mark and point. -/
def killRegion (ed : Editor) : Except Error Editor :=
  ed.withRegion fun x m p => do
    let ed' ← ed.updateBuf fun _ => do pure { (← x.snapshot.deleteBetween m p) with mark := none }
    pure { ed' with kill := ← x.textBetween m p }

/-- Copy the text between mark and point to the kill ring. -/
def copyRegion (ed : Editor) : Except Error Editor :=
  ed.withRegion fun x m p => do
    pure (message { ed with kill := ← x.textBetween m p } (str "Copied"))

/-- Insert the last killed text at point. -/
def yank (ed : Editor) : Except Error Editor :=
  ed.updateBuf fun x => ({ x.snapshot with mark := some x.point } : Buffer).insert ed.kill

def undo (ed : Editor) : Except Error Editor := motion (fun x => pure x.undoOnce) ed

def universalArgument (ed : Editor) : Editor :=
  message { ed with arg := true, this := some .arg } (str "C-u-")

/-- Cancel: clear the mark and the current command. -/
def keyboardQuit (ed : Editor) : Except Error Editor := do
  pure ((← ed.updateBuf fun x => pure { x with mark := none }).message (str "Quit"))

/-! ### Search -/

/-- The match shown for a pattern. -/
def isearchFind (env : Env) (ed : Editor) (pat : Str) (origin : Pos) : Except Error (Option Pos) := do
  if pat = [] then pure none else (← ed.buf!).searchForward env.lowerCase pat origin

/-- `isearch-forward` for a number of keys. -/
def isearchLoop (env : Env) (start : Pos) :
    Nat → Editor → Str → Pos → List (Str × Pos) → M Editor
  | 0, _, _, _, _ => throw .waiting
  | n + 1, ed, pat, origin, stack => do
      let found ← lift (ed.isearchFind env pat origin)
      let ed ← lift (match found with
        | some f => ed.updateBuf fun x => x.goto f.1 (f.2 + pat.length)
        | none => pure ed)
      let ed ← redisplay! { ed with
        prompt := some (str (if found.isSome ∨ pat = [] then "" else "Failing ") ++ str "I-search: " ++ pat) }
      let k ← readKey
      if k = str "C-g" then
        let ed ← lift (ed.updateBuf fun x => x.goto start.1 start.2)
        pure { ed with prompt := none }
      else if k = str "C-s" then
        let next := match found with
          | some f => (f.1, f.2 + 1)
          | none => origin
        isearchLoop env start n ed pat next (stack ++ [(pat, origin)])
      else if k = str "DEL" then
        match stack.getLast? with
        | none => isearchLoop env start n ed [] start stack
        | some (p, f) => isearchLoop env start n ed p f stack.dropLast
      else if k.length = 1 then isearchLoop env start n ed (pat ++ k) origin (stack ++ [(pat, origin)])
      else if k = str "SPC" then isearchLoop env start n ed (pat ++ [' ']) origin (stack ++ [(pat, origin)])
      else
        let ed ← lift (ed.updateBuf fun x => pure { x with mark := some start })
        pure (message { ed with prompt := none }
          (str (if k = str "RET" then "Mark saved where search started" else "")))

def isearchForward (env : Env) (ed : Editor) : M Editor := do
  let start := (← lift ed.buf!).point
  isearchLoop env start ((← get).keys.length + 1) ed [] start []

/-! ### Evaluation -/

def lastSexp (ed : Editor) : Except Error (Option Str) := do
  let x ← ed.buf!
  match ← x.sexpBefore with
  | some p => pure (some (← x.textBetween p x.point))
  | none => pure none

/-- Evaluate the form before point; the value goes to the echo area, or into the buffer at point after
C-u. -/
def evalLastSexp (env : Env) (ed : Editor) : Except Error Editor := do
  match ← ed.lastSexp with
  | none => pure (ed.message (str "No sexp before point"))
  | some text =>
      let (v, out) := env.evalString text
      if ed.arg then ed.updateBuf fun x => x.snapshot.insert (' ' :: v)
      else
        let first := match (split out).find? fun l => env.trim l ≠ [] with
          | some l => env.trim l ++ str "  "
          | none => []
        pure (ed.message (first ++ str "=> " ++ v))

def evalPrintLastSexp (env : Env) (ed : Editor) : Except Error Editor := do
  match ← ed.lastSexp with
  | none => pure (ed.message (str "No sexp before point"))
  | some text =>
      let (v, out) := env.evalString text
      ed.updateBuf fun x => x.snapshot.insert ('\n' :: out.filter (· ≠ '\r') ++ v ++ ['\n'])

def evalExpression (env : Env) (ed : Editor) : M Editor := do
  let (ed, text) ← readMinibuffer ed (str "Eval: ") []
  match text with
  | none => pure ed
  | some t => pure (if t = [] then ed else ed.message (str "=> " ++ (env.evalString t).1))

end Editor

/-! ### Files and buffers -/

def basename (path : Str) : Str := (path.splitOn '/').getLastD []

def dirname (path : Str) : Str := ['/'].intercalate (path.splitOn '/').dropLast ++ ['/']

namespace Editor

/-- The name of a buffer that visits a file. -/
def visiting (ed : Editor) (path : Str) : Option Str :=
  ed.buffers.entries.findSome? fun e => if e.2.file = some path then some e.2.name else none

def findFileNoselect (env : Env) (ed : Editor) (path : Str) : Except Error Editor :=
  match ed.visiting path with
  | some nm => pure { ed with current := nm }
  | none => do
      let text := env.slurp path
      let ed ← ed.addBuffer (newBuffer (basename path) (text.getD []) (some path))
      pure (ed.message (if text.isSome then str "Read " ++ path else str "(New file)"))

def defaultDir (ed : Editor) : Except Error Str := do
  match (← ed.buf!).file with
  | some f => pure (dirname f)
  | none => pure (str "/tmp/")

def findFile (env : Env) (ed : Editor) : M Editor := do
  let (ed, path) ← readMinibuffer ed (str "Find file: ") (← lift ed.defaultDir)
  match path with
  | none => pure ed
  | some path => if path = [] then pure ed else lift (findFileNoselect env ed path)

def writeTo (env : Env) (ed : Editor) (path : Str) : M Editor :=
  catching (do
    match env.spit path (← lift ed.buf!).text with
    | some e => pure (ed.message (str "Cannot save: " ++ e))
    | none =>
        let ed ← lift (ed.updateBuf fun x => pure { x with file := some path, modified := false })
        pure (ed.message (str "Wrote " ++ path)))
    fun e => pure (ed.message (str "Cannot save: " ++ env.errorText e))

def saveBuffer (env : Env) (ed : Editor) : M Editor := do
  let x ← lift ed.buf!
  match x.file with
  | some f =>
      if x.modified then writeTo env ed f else pure (ed.message (str "(No changes need to be saved)"))
  | none =>
      let (ed, path) ← readMinibuffer ed (str "File to save in: ") (← lift ed.defaultDir)
      match path with
      | none => pure ed
      | some path => if path = [] then pure ed else writeTo env ed path

def writeFile (env : Env) (ed : Editor) : M Editor := do
  let (ed, path) ← readMinibuffer ed (str "Write file: ") (← lift ed.defaultDir)
  match path with
  | none => pure ed
  | some path =>
      if path = [] then pure ed
      else
        let ed ← lift (ed.updateBuf fun x => pure { x with name := basename path })
        writeTo env ed path

/-- `(sort (keys (:buffers ed)))`. -/
def sortedKeys (ed : Editor) : List Str := ed.buffers.keys.mergeSort fun a b => decide (a ≤ b)

def otherBuffer (ed : Editor) : Str :=
  (ed.sortedKeys.find? fun n => n ≠ ed.current).getD (str "*scratch*")

def switchToBuffer (ed : Editor) : M Editor := do
  let dflt := ed.otherBuffer
  let (ed, nm) ← readMinibuffer ed (str "Switch to buffer (default " ++ dflt ++ str "): ") []
  match nm with
  | none => pure ed
  | some nm =>
      if nm = [] then pure { ed with current := dflt }
      else if (ed.buffers.lookup nm).isSome then pure { ed with current := nm }
      else lift (ed.addBuffer (newBuffer nm [] none))

def killBuffer (ed : Editor) : Except Error Editor :=
  let ed := { ed with buffers := ed.buffers.erase ed.current }
  match ed.sortedKeys with
  | [] => ed.addBuffer (newBuffer (str "*scratch*") [] none)
  | k :: _ => pure { ed with current := k }

def listBuffers (ed : Editor) : Editor :=
  ed.message ((str "  ").intercalate (ed.sortedKeys.map fun n =>
    n ++ match ed.buffers.lookup n with
      | some b => str (if b.modified then "*" else "")
      | none => []))

/-- Leave beermacs, asking first if files are unsaved. -/
def leave (ed : Editor) : M Editor := do
  let modified := ed.buffers.entries.filter fun e => e.2.file.isSome ∧ e.2.modified
  if modified.isEmpty then pure { ed with quit := true }
  else
    let (ed, yes) ← yOrN ed (str "Modified buffers exist; exit anyway?")
    pure (if yes then { ed with quit := true } else ed)

/-! ### Help -/

/-- The symbol-ish word around point. -/
def symbolAtPoint (ed : Editor) : Except Error (Option Str) := do
  let x ← ed.buf!
  let l ← x.curLine
  let start := x.col - ((l.take x.col).reverse.takeWhile wordChar).length
  let stop := x.col + ((l.drop x.col).takeWhile wordChar).length
  if start < stop then pure (some (← subvec l start stop)) else pure none

/-- Put text in the `*Help*` buffer and switch to it. -/
def showHelp (ed : Editor) (text : Str) : Except Error Editor := do
  let prev := ed.current
  let ed := { ed with buffers := ed.buffers.erase (str "*Help*") }
  let ed ← ed.addBuffer { newBuffer (str "*Help*") text none with helpMode := true }
  ed.updateBuf fun x => pure { x with
    prev := if prev = str "*Help*" then (ed.buffers.lookup prev).bind Buffer.prev else some prev }

def describeName (env : Env) (ed : Editor) (nm : Str) : Except Error Editor :=
  match env.describe nm with
  | none => .error .native
  | some text => ed.showHelp (text ++ str "\n(RET on a name describes it, q goes back)\n")

def describeFunction (env : Env) (ed : Editor) : M Editor := do
  let dflt ← lift ed.symbolAtPoint
  let (ed, nm) ← readMinibuffer ed
    (str "Describe" ++ (match dflt with
      | some d => str " (default " ++ d ++ str ")"
      | none => []) ++ str ": ") []
  match nm, dflt with
  | none, _ => pure ed
  | some nm, dflt =>
      if nm = [] then
        match dflt with
        | none => pure ed
        | some d => lift (describeName env ed d)
      else lift (describeName env ed nm)

def aproposCommand (env : Env) (ed : Editor) : M Editor := do
  let (ed, pat) ← readMinibuffer ed (str "Apropos: ") []
  match pat with
  | none => pure ed
  | some pat =>
      if pat = [] then pure ed
      else
        lift (ed.showHelp ((env.apropos pat).flatMap fun fd =>
          fd.1 ++ (match fd.2 with
            | some d => str "  - " ++ d
            | none => []) ++ ['\n']))

/-- Leave `*Help*`, back to the buffer you came from. -/
def helpQuit (ed : Editor) : Editor :=
  let prev := ed.buf.bind Buffer.prev
  { ed with current := match prev with
      | some p => if (ed.buffers.lookup p).isSome then p else ed.otherBuffer
      | none => ed.otherBuffer }

def helpFollow (env : Env) (ed : Editor) : Except Error Editor := do
  match ← ed.symbolAtPoint with
  | some nm => describeName env ed nm
  | none => pure ed

end Editor

/-! ### Keymaps -/

inductive Command
  | forwardChar
  | backwardChar
  | nextLine
  | previousLine
  | beginningOfLine
  | endOfLine
  | forwardWord
  | backwardWord
  | beginningOfBuffer
  | endOfBuffer
  | scrollUp
  | scrollDown
  | recenter
  | deleteChar
  | deleteBackwardChar
  | newline
  | openLine
  | indent
  | killLine
  | killWord
  | backwardKillWord
  | setMark
  | killRegion
  | copyRegion
  | yank
  | undo
  | keyboardQuit
  | isearchForward
  | evalLastSexp
  | evalPrintLastSexp
  | evalExpression
  | universalArgument
  | findFile
  | saveBuffer
  | writeFile
  | switchToBuffer
  | killBuffer
  | listBuffers
  | quit
  | describeFunction
  | aproposCommand
  | describeKey
  | helpQuit
  | helpFollow
deriving DecidableEq, Repr

/-- `(str v)` of the command's var, less `#'`. -/
def Command.symbol : Command → String
  | .forwardChar => "beermacs.core/forward-char"
  | .backwardChar => "beermacs.core/backward-char"
  | .nextLine => "beermacs.core/next-line"
  | .previousLine => "beermacs.core/previous-line"
  | .beginningOfLine => "beermacs.core/beginning-of-line"
  | .endOfLine => "beermacs.core/end-of-line"
  | .forwardWord => "beermacs.core/forward-word"
  | .backwardWord => "beermacs.core/backward-word"
  | .beginningOfBuffer => "beermacs.core/beginning-of-buffer"
  | .endOfBuffer => "beermacs.core/end-of-buffer"
  | .scrollUp => "beermacs.core/scroll-up"
  | .scrollDown => "beermacs.core/scroll-down"
  | .recenter => "beermacs.core/recenter"
  | .deleteChar => "beermacs.core/delete-char"
  | .deleteBackwardChar => "beermacs.core/delete-backward-char"
  | .newline => "beermacs.core/newline"
  | .openLine => "beermacs.core/open-line"
  | .indent => "beermacs.core/indent"
  | .killLine => "beermacs.core/kill-line"
  | .killWord => "beermacs.core/kill-word"
  | .backwardKillWord => "beermacs.core/backward-kill-word"
  | .setMark => "beermacs.core/set-mark"
  | .killRegion => "beermacs.core/kill-region"
  | .copyRegion => "beermacs.core/copy-region"
  | .yank => "beermacs.core/yank"
  | .undo => "beermacs.core/undo"
  | .keyboardQuit => "beermacs.core/keyboard-quit"
  | .isearchForward => "beermacs.core/isearch-forward"
  | .evalLastSexp => "beermacs.core/eval-last-sexp"
  | .evalPrintLastSexp => "beermacs.core/eval-print-last-sexp"
  | .evalExpression => "beermacs.core/eval-expression"
  | .universalArgument => "beermacs.core/universal-argument"
  | .findFile => "beermacs.core/find-file"
  | .saveBuffer => "beermacs.core/save-buffer"
  | .writeFile => "beermacs.core/write-file"
  | .switchToBuffer => "beermacs.core/switch-to-buffer"
  | .killBuffer => "beermacs.core/kill-buffer"
  | .listBuffers => "beermacs.core/list-buffers"
  | .quit => "beermacs.core/quit"
  | .describeFunction => "beermacs.core/describe-function"
  | .aproposCommand => "beermacs.core/apropos-command"
  | .describeKey => "beermacs.core/describe-key"
  | .helpQuit => "beermacs.core/help-quit"
  | .helpFollow => "beermacs.core/help-follow"

abbrev Keymap := List (String × Command)

def Keymap.get (m : Keymap) (k : Str) : Option Command := (m.find? fun e => e.1.toList = k).map Prod.snd

def ctlXMap : Keymap := [
  ("C-f", .findFile), ("C-s", .saveBuffer), ("C-w", .writeFile), ("b", .switchToBuffer), ("k", .killBuffer),
  ("C-b", .listBuffers), ("C-c", .quit), ("C-e", .evalLastSexp), ("u", .undo)]

def helpMap : Keymap := [("f", .describeFunction), ("a", .aproposCommand), ("k", .describeKey)]

/-- Keys a help buffer handles itself. -/
def helpModeMap : Keymap := [("q", .helpQuit), ("RET", .helpFollow)]

def globalMap : Keymap := [
  ("C-f", .forwardChar), ("<right>", .forwardChar), ("C-b", .backwardChar), ("<left>", .backwardChar),
  ("C-n", .nextLine), ("<down>", .nextLine), ("C-p", .previousLine), ("<up>", .previousLine),
  ("C-a", .beginningOfLine), ("<home>", .beginningOfLine), ("C-e", .endOfLine), ("<end>", .endOfLine),
  ("M-f", .forwardWord), ("M-b", .backwardWord), ("M-<", .beginningOfBuffer), ("M->", .endOfBuffer),
  ("C-v", .scrollUp), ("<next>", .scrollUp), ("M-v", .scrollDown), ("<prior>", .scrollDown),
  ("C-l", .recenter), ("C-d", .deleteChar), ("<delete>", .deleteChar), ("DEL", .deleteBackwardChar),
  ("RET", .newline), ("C-o", .openLine), ("TAB", .indent), ("C-k", .killLine), ("M-d", .killWord),
  ("M-DEL", .backwardKillWord), ("C-SPC", .setMark), ("C-@", .setMark), ("C-w", .killRegion),
  ("M-w", .copyRegion), ("C-y", .yank), ("C-/", .undo), ("C-_", .undo), ("C--", .undo), ("C-g", .keyboardQuit),
  ("C-s", .isearchForward), ("C-j", .evalPrintLastSexp), ("M-:", .evalExpression), ("C-u", .universalArgument)]

namespace Editor

/-- The keys that `describe-key` reads, and what they run. -/
def readDescribed : M (Str × Option Command) := do
  let k ← readKey
  if k = str "C-x" then
    let k2 ← readKey
    pure (str "C-x " ++ k2, ctlXMap.get k2)
  else pure (k, globalMap.get k)

/-- `describe-key`: what a key runs, and its documentation. -/
def describeKey (env : Env) (ed : Editor) : M Editor := do
  let ed ← redisplay! { ed with prompt := some (str "Describe key: ") }
  let (keys, cmd) ← readDescribed
  let ed := { ed with prompt := none }
  match cmd with
  | none => pure (ed.message (keys ++ str " is undefined"))
  | some c => lift (describeName env ed (str c.symbol))

/-- What a command does. -/
def exec (env : Env) (ed : Editor) : Command → M Editor
  | .forwardChar => lift (motion Buffer.forwardChar ed)
  | .backwardChar => lift (motion Buffer.backwardChar ed)
  | .nextLine => lift (motion Buffer.nextLine ed)
  | .previousLine => lift (motion Buffer.previousLine ed)
  | .beginningOfLine => lift (motion Buffer.beginningOfLine ed)
  | .endOfLine => lift (motion Buffer.endOfLine ed)
  | .forwardWord => lift (motion Buffer.forwardWord ed)
  | .backwardWord => lift (motion Buffer.backwardWord ed)
  | .beginningOfBuffer => lift (motion (marking Buffer.beginningOfBuffer) ed)
  | .endOfBuffer => lift (motion (marking Buffer.endOfBuffer) ed)
  | .scrollUp => lift (scroll ed 1)
  | .scrollDown => lift (scroll ed (-1))
  | .recenter => lift (recenter ed)
  | .deleteChar => lift (edit Buffer.deleteChar ed)
  | .deleteBackwardChar => lift (edit Buffer.deleteBackwardChar ed)
  | .newline => lift (edit Buffer.newlineAndIndent ed)
  | .openLine => lift (edit openLine ed)
  | .indent => lift (edit (fun x => x.insert [' ', ' ']) ed)
  | .killLine => lift (killLine ed)
  | .killWord => lift (killWord ed)
  | .backwardKillWord => lift (backwardKillWord ed)
  | .setMark => lift (setMark ed)
  | .killRegion => lift (killRegion ed)
  | .copyRegion => lift (copyRegion ed)
  | .yank => lift (yank ed)
  | .undo => lift (undo ed)
  | .keyboardQuit => lift (keyboardQuit ed)
  | .isearchForward => isearchForward env ed
  | .evalLastSexp => lift (evalLastSexp env ed)
  | .evalPrintLastSexp => lift (evalPrintLastSexp env ed)
  | .evalExpression => evalExpression env ed
  | .universalArgument => pure (universalArgument ed)
  | .findFile => findFile env ed
  | .saveBuffer => saveBuffer env ed
  | .writeFile => writeFile env ed
  | .switchToBuffer => switchToBuffer ed
  | .killBuffer => lift (killBuffer ed)
  | .listBuffers => pure (listBuffers ed)
  | .quit => leave ed
  | .describeFunction => describeFunction env ed
  | .aproposCommand => aproposCommand env ed
  | .describeKey => describeKey env ed
  | .helpQuit => pure (helpQuit ed)
  | .helpFollow => lift (helpFollow env ed)

end Editor

/-! ### The command loop -/

/-- What `lookup` gives for a key. -/
inductive Action
  | command (c : Command)
  | selfInsert (k : Str)
deriving DecidableEq, Repr

namespace Editor

/-- The command for key `k` (reading more keys after C-x, C-h or ESC), or the string to insert. The
buffer's own `:keymap` comes first. -/
def lookup (ed : Editor) (k : Str) : M (Option Action) := do
  let own := if (ed.buf.map Buffer.helpMode).getD false then helpModeMap.get k else none
  if own.isSome then pure (own.map .command)
  else if k = str "C-x" then pure ((ctlXMap.get (← readKey)).map .command)
  else if k = str "C-h" then pure ((helpMap.get (← readKey)).map .command)
  else if k = str "ESC" then pure ((globalMap.get (str "M-" ++ (← readKey))).map .command)
  else if (globalMap.get k).isSome then pure ((globalMap.get k).map .command)
  else if k.length = 1 then pure (some (.selfInsert k))
  else if k = str "SPC" then pure (some (.selfInsert [' ']))
  else pure none

/-- Redisplay, and read the next command. -/
def nextCommand (env : Env) (ed : Editor) : M (Editor × Str × Option Action) := do
  let ed ← redisplay! { ed with size := env.size }
  let k ← readKey
  pure (ed, k, ← ed.lookup k)

/-- The state a command starts in. -/
def cleared (ed : Editor) : Editor := { ed with msg := [], this := none }

/-- The body of the `try`. -/
def act (env : Env) (ed : Editor) (k : Str) : Option Action → M Editor
  | some (.selfInsert s) => lift (ed.selfInsert s)
  | some (.command c) => ed.exec env c
  | none => pure (ed.message (k ++ str " is undefined"))

/-- The state for the next round. -/
def settle (ed : Editor) : Editor :=
  let ed := { ed with last := ed.this }
  if ed.this = some .arg then ed else { ed with arg := false }

/-- Run a command; an exception becomes a message. -/
def perform (env : Env) (ed : Editor) (k : Str) (cmd : Option Action) : M Editor := do
  let ed := ed.cleared
  let ed ← catching (ed.act env k cmd) fun e => pure (ed.message (str "Error: " ++ env.errorText e))
  pure ed.settle

/-- One round of `command-loop`. -/
def commandRound (env : Env) (ed : Editor) : M Editor := do
  let (ed, k, cmd) ← ed.nextCommand env
  perform env ed k cmd

end Editor

def scratchText : Str :=
  str ";; This buffer is for text that is not saved, and for beerlang evaluation.\n" ++
  str ";; C-x C-e evaluates the form before point, C-j inserts its value.\n" ++
  str ";; C-x C-f opens a file, C-x C-s saves it, C-x C-c quits.\n\n"

/-- The state in which `-main` starts the command loop. -/
def start (env : Env) (files : List Str) : Except Error Editor := do
  let ed : Editor := { buffers := ∅, current := [], size := env.size }
  let ed ← ed.addBuffer (← (newBuffer (str "*scratch*") scratchText none).endOfBuffer)
  files.foldlM (fun ed path => ed.findFileNoselect env path) ed

end Beeros.Beermacs
