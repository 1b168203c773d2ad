import Mathlib.Data.List.DropRight
import Beeros.FormScan

/-! The loop of `run_repl` of `kernel/repl_uart.c`. A text comes as a whole from the line editor, or line by line from
`uart_readline`; it goes to the reader when it is complete. What the editor returns, what the reader and the evaluator
make of a text, and what the tasks do meanwhile, may be anything. -/

namespace Beeros.ReplUart

open FormComplete

/-- `ACCUM_SIZE`. -/
def accumSize : Nat := 65536

def ascii (s : String) : List UInt8 := Utf8.encode s.toList

def crlf : List UInt8 := ascii "\r\n"

/-! ### What happens outside the loop -/

/-- How the task of `read-form` ends, unless it cannot be compiled. -/
inductive Edited
  | cannotCompile
  | interrupted
  | error (message : List UInt8)
  | noString
  | text (s : List UInt8)

/-- How a form ends; an interrupted one with what `recover` failed with, if it did. -/
inductive Ended
  | compileError (message : List UInt8)
  | interrupted (failed : Option (List UInt8))
  | error (message : List UInt8)
  | value (printed : List UInt8)
  | nothing

/-- What becomes of a text that is given to the reader. -/
inductive Parsed
  | outOfMemory
  | readError (message : List UInt8)
  | forms (ended : List Ended)

/-- What one round of the loop meets. -/
structure Turn where
  /-- The name of the current namespace. -/
  ns : List UInt8
  /-- What the forms and the other tasks have made of `beer.lineedit/enabled?` since the last round. -/
  enabled : Bool → Bool
  edited : Edited
  rounds : List Rx
  parse : List UInt8 → Parsed

/-! ### The loop -/

structure Repl where
  /-- `accum`, up to `accum_len`. -/
  accum : List UInt8 := []
  lineNumber : Nat := 1
  /-- Whether `beer.lineedit/enabled?` is there and true. -/
  enabled : Bool
  /-- What the loop has written. -/
  out : List UInt8 := []

def Repl.puts (r : Repl) (s : List UInt8) : Repl := { r with out := r.out ++ s }

def prompt (r : Repl) (ns : List UInt8) : List UInt8 :=
  if r.accum = [] then (ns ++ ascii ":" ++ Utf8.encode (Beerlang.decimal r.lineNumber) ++ ascii "> ").take 127
  else ascii "...   "

def lineeditDisable (r : Repl) (why : List UInt8) : Repl :=
  { r.puts (ascii "\r\n[beeros] line editor failed: " ++ why ++
      ascii "\r\n[beeros] using the built-in reader; (beer.lineedit/enable!) to retry\r\n") with enabled := false }

def recover : Option (List UInt8) → List UInt8
  | none => ascii "\r\n[beeros] interrupted\r\n"
  | some message => ascii "\r\n[beeros] interrupted\r\n" ++ ascii "[beeros] recover failed: " ++ message ++ crlf

/-- What the loop writes after the forms of a text. An interrupt ends them all. -/
def runForms : List Ended → List UInt8
  | [] => []
  | .compileError message :: es => ascii "Compile error: " ++ message ++ crlf ++ runForms es
  | .interrupted failed :: _ => recover failed
  | .error message :: es => ascii "Error: " ++ message ++ crlf ++ runForms es
  | .value printed :: es => ascii "=> " ++ printed ++ crlf ++ runForms es
  | .nothing :: es => runForms es

/-- A text up to its first zero byte. -/
def cstr (s : List UInt8) : List UInt8 := s.takeWhile (· != 0)

def trimmed (input : List UInt8) : List UInt8 := ((cstr input).take (inputSize - 1)).rdropWhile (· ≤ 32)

def isExit (input : List UInt8) : Prop := trimmed input = ascii "(exit)" ∨ trimmed input = ascii "exit"

instance (input : List UInt8) : Decidable (isExit input) := inferInstanceAs (Decidable (_ ∨ _))

inductive Outcome
  | outOfMemory
  | readError
  | ran
  deriving DecidableEq

/-- What becomes of the texts that are read. -/
inductive Fate
  /-- Given to the reader: one text of the editor, or lines. -/
  | given (whole : Bool) (outcome : Outcome)
  | tooLong
  | interrupted
  | blank
  | exit
  deriving DecidableEq

/-- The loop is done with these texts. -/
structure Item where
  fate : Fate
  texts : List (List UInt8)

/-- The loop, with the texts it has read and what has become of them. -/
structure System where
  repl : Repl
  read : List (List UInt8) := []
  done : List Item := []
  /-- The texts that make up `accum`. -/
  held : List (List UInt8) := []
  /-- What the reader was given. -/
  given : List (List UInt8) := []
  quit : Bool := false

def System.hold (s : System) (input : List UInt8) : System :=
  { s with read := s.read ++ [input], held := s.held ++ [input] }

def System.finish (s : System) (fate : Fate) (repl : Repl) : System :=
  { s with repl := { repl with accum := [] }, done := s.done ++ [⟨fate, s.held⟩], held := [] }

/-- The rest of a round, when the text in `accum` is complete. -/
def System.give (s : System) (whole : Bool) (t : Turn) : System :=
  let s := { s with given := s.given ++ [cstr s.repl.accum] }
  match t.parse (cstr s.repl.accum) with
  | .outOfMemory => s.finish (.given whole .outOfMemory) (s.repl.puts (ascii "Error: out of memory\r\n"))
  | .readError message =>
      s.finish (.given whole .readError) { s.repl.puts (ascii "Read error: " ++ message ++ crlf) with
        lineNumber := s.repl.lineNumber + 1 }
  | .forms ended =>
      s.finish (.given whole .ran) { s.repl.puts (runForms ended) with lineNumber := s.repl.lineNumber + 1 }

/-- A round after the input was read. `none` when `is_form_complete` reads behind the text. -/
def System.accept (s : System) (input : List UInt8) (whole : Bool) (t : Turn) : Option System :=
  if input = [] then some s
  else if s.repl.accum = [] ∧ isExit input then some { (s.hold input).finish .exit s.repl with quit := true }
  else if s.repl.accum = [] ∧ trimmed input = [] then some ((s.hold input).finish .blank s.repl)
  else if accumSize ≤ s.repl.accum.length + input.length then
    some ((s.hold input).finish .tooLong (s.repl.puts (ascii "Error: input too long\r\n")))
  else
    let s := { s.hold input with repl := { s.repl with accum := s.repl.accum ++ input } }
    if whole then some (s.give whole t)
    else (scan (s.repl.accum ++ [0]) 0 false false).map fun complete => if complete then s.give whole t else s

/-- A round with `uart_readline`; `none` while it waits. -/
def System.readLine (s : System) (t : Turn) : Option System :=
  let s := { s with repl := s.repl.puts (prompt s.repl t.ns) }
  match uartReadline t.rounds inputSize with
  | .error _ => none
  | .ok none => some (s.finish .interrupted s.repl)
  | .ok (some line) => s.accept line false t

def System.refresh (s : System) (t : Turn) : System :=
  { s with repl := { s.repl with enabled := t.enabled s.repl.enabled } }

def System.disable (s : System) (why : List UInt8) : System := { s with repl := lineeditDisable s.repl why }

/-- A round of the loop, that is not over. -/
def System.round (s : System) (t : Turn) : Option System :=
  let s := s.refresh t
  if s.repl.accum = [] ∧ s.repl.enabled then
    match t.edited with
    | .cannotCompile => (s.disable (ascii "cannot compile the call")).readLine t
    | .interrupted => some { s with repl := s.repl.puts crlf }
    | .error message => (s.disable message).readLine t
    | .noString => (s.disable (ascii "read-form did not return a string")).readLine t
    | .text text =>
        if inputSize ≤ text.length then
          some ((s.hold text).finish .tooLong (s.repl.puts (ascii "Error: input too long\r\n")))
        else s.accept text true t
  else s.readLine t

def System.run (s : System) : List Turn → Option System
  | [] => some s
  | t :: ts => if s.quit then some s else (s.round t).bind fun s' => s'.run ts

def boot (enabled : Bool) : System := { repl := { enabled := enabled } }

/-! ### What the loop keeps -/

/-- Is the text that the lines make up complete? -/
def complete (lines : List (List UInt8)) : Option Bool := scan (lines.flatten ++ [0]) 0 false false

/-- The lines are read on, after each of them. -/
def Pending (lines : List (List UInt8)) : Prop := ∀ p, p <+: lines → p ≠ [] → complete p = some false

def Item.Sound (i : Item) : Prop :=
  match i.fate with
  | .given true _ => ∃ text, i.texts = [text] ∧ text ≠ [] ∧ text.length < inputSize
  | .given false _ =>
      Pending i.texts.dropLast ∧ complete i.texts = some true ∧
        i.texts.flatten.length < accumSize ∧ 0 ∉ i.texts.flatten
  | .tooLong =>
      (∃ text, i.texts = [text] ∧ inputSize ≤ text.length) ∨
        Pending i.texts.dropLast ∧ accumSize ≤ i.texts.flatten.length
  | .interrupted => Pending i.texts
  | .blank => ∃ text, i.texts = [text] ∧ trimmed text = []
  | .exit => ∃ text, i.texts = [text] ∧ isExit text

def Item.isGiven (i : Item) : Bool :=
  match i.fate with
  | .given _ _ => true
  | _ => false

/-- Does the line number count it? -/
def Item.counts (i : Item) : Bool :=
  match i.fate with
  | .given _ outcome => decide (outcome ≠ .outOfMemory)
  | _ => false

structure System.Good (s : System) : Prop where
  /-- The texts read are those that are done with and those held, in order. -/
  read : s.read = s.done.flatMap Item.texts ++ s.held
  held : s.held.flatten = s.repl.accum
  full : ∀ text ∈ s.held, text ≠ []
  room : s.repl.accum.length < accumSize
  chars : 0 ∉ s.repl.accum
  pending : Pending s.held
  done : ∀ i ∈ s.done, i.Sound
  given : s.given = (s.done.filter Item.isGiven).map fun i => cstr i.texts.flatten
  lineNumber : s.repl.lineNumber = 1 + (s.done.filter Item.counts).length
  last : ∀ i ∈ s.done.dropLast, i.fate ≠ .exit
  quit : s.quit = true ↔ ∃ i ∈ s.done, i.fate = .exit

/-- `uart_readline` comes back, and not with a line that fills the buffer. -/
def Turn.Typed (t : Turn) : Prop :=
  match uartReadline t.rounds inputSize with
  | .error _ => False
  | .ok none => True
  | .ok (some line) => line.length < inputSize - 1

variable {s s' : System} {t : Turn} {input : List UInt8} {lines : List (List UInt8)} {repl : Repl}

theorem pending_nil : Pending [] := fun _ hp hne => absurd (List.prefix_nil.mp hp) hne

theorem Pending.snoc (h : Pending lines) (hc : complete (lines ++ [input]) = some false) :
    Pending (lines ++ [input]) := by
  intro p hp hne
  rcases List.prefix_concat_iff.mp hp with rfl | hp
  · exact hc
  · exact h p hp hne

theorem good_boot (enabled : Bool) : (boot enabled).Good where
  read := rfl
  held := rfl
  full := fun _ h => absurd h List.not_mem_nil
  room := by
    show 0 < accumSize
    decide
  chars := List.not_mem_nil
  pending := pending_nil
  done := fun _ h => absurd h List.not_mem_nil
  given := rfl
  lineNumber := rfl
  last := fun _ h => absurd h List.not_mem_nil
  quit := by simp [boot]

theorem System.Good.held_nil (hs : s.Good) (h : s.repl.accum = []) : s.held = [] := by
  have hflat : s.held.flatten = [] := hs.held.trans h
  refine List.eq_nil_iff_forall_not_mem.mpr fun text htext => hs.full text htext ?_
  exact List.flatten_eq_nil_iff.mp hflat text htext

/-- What the loop has written, and whether the editor is enabled, is nothing to it. -/
theorem System.Good.of_repl (hs : s.Good) (haccum : repl.accum = s.repl.accum)
    (hline : repl.lineNumber = s.repl.lineNumber) : System.Good { s with repl := repl } where
  read := hs.read
  held := hs.held.trans haccum.symm
  full := hs.full
  room := haccum ▸ hs.room
  chars := haccum ▸ hs.chars
  pending := hs.pending
  done := hs.done
  given := hs.given
  lineNumber := hline.trans hs.lineNumber
  last := hs.last
  quit := hs.quit

/-- The loop is done with the texts that it held and those just read. -/
theorem System.Good.finish (hs : s.Good) (hquit : s.quit = false) {i : Item} {new read given : List (List UInt8)}
    {quit : Bool} (hread : read = s.read ++ new) (htexts : i.texts = s.held ++ new) (hsound : i.Sound)
    (hgiven : given = s.given ++ if i.isGiven then [cstr i.texts.flatten] else [])
    (hline : repl.lineNumber = s.repl.lineNumber + if i.counts then 1 else 0)
    (hexit : quit = true ↔ i.fate = .exit) :
    System.Good
      { repl := { repl with accum := [] }, read := read, done := s.done ++ [i], held := [], given := given,
        quit := quit } where
  read := by
    show read = (s.done ++ [i]).flatMap Item.texts ++ []
    rw [hread, hs.read, List.flatMap_append, List.flatMap_singleton, htexts, List.append_nil, List.append_assoc]
  held := rfl
  full := fun _ h => absurd h List.not_mem_nil
  room := by
    show 0 < accumSize
    decide
  chars := List.not_mem_nil
  pending := pending_nil
  done := fun j hj => by
    rcases List.mem_append.mp hj with hj | hj
    · exact hs.done j hj
    · rwa [List.mem_singleton.mp hj]
  given := by
    show given = ((s.done ++ [i]).filter Item.isGiven).map fun i => cstr i.texts.flatten
    rw [hgiven, List.filter_append, List.map_append, ← hs.given]
    cases hg : i.isGiven <;> simp [hg]
  lineNumber := by
    show repl.lineNumber = 1 + ((s.done ++ [i]).filter Item.counts).length
    rw [hline, hs.lineNumber, List.filter_append, List.length_append, Nat.add_assoc]
    cases hc : i.counts <;> simp [hc]
  last := by
    show ∀ j ∈ (s.done ++ [i]).dropLast, j.fate ≠ .exit
    rw [List.dropLast_concat]
    intro j hj hfate
    exact absurd (hs.quit.mpr ⟨j, hj, hfate⟩) (by rw [hquit]; exact Bool.false_ne_true)
  quit := by
    show quit = true ↔ ∃ j ∈ s.done ++ [i], j.fate = .exit
    rw [hexit]
    constructor
    · exact fun h => ⟨i, List.mem_append_right _ (List.mem_singleton_self i), h⟩
    · rintro ⟨j, hj, hfate⟩
      rcases List.mem_append.mp hj with hj | hj
      · exact absurd (hs.quit.mpr ⟨j, hj, hfate⟩) (by rw [hquit]; exact Bool.false_ne_true)
      · rwa [List.mem_singleton.mp hj] at hfate

/-! ### One round -/

/-- What the loop accepts: a whole text when it holds none, or a line. -/
def Fits (s : System) (whole : Bool) (input : List UInt8) : Prop :=
  if whole then s.repl.accum = [] ∧ input.length < inputSize else 0 ∉ input

theorem good_give (hs : s.Good) (hquit : s.quit = false) {whole : Bool} (hne : input ≠ [])
    (hfits : Fits s whole input) (hroom : s.repl.accum.length + input.length < accumSize)
    (hcomplete : whole = false → complete (s.held ++ [input]) = some true) :
    (System.give { s.hold input with repl := { s.repl with accum := s.repl.accum ++ input } } whole t).Good := by
  have hflat : (s.held ++ [input]).flatten = s.repl.accum ++ input := by
    rw [List.flatten_append, hs.held, List.flatten_singleton]
  have hsound : ∀ outcome, Item.Sound ⟨.given whole outcome, s.held ++ [input]⟩ := by
    intro outcome
    cases whole with
    | true =>
        refine ⟨input, ?_, hne, hfits.2⟩
        show s.held ++ [input] = [input]
        rw [hs.held_nil hfits.1, List.nil_append]
    | false =>
        have hin : 0 ∉ input := hfits
        refine ⟨?_, hcomplete rfl, ?_, ?_⟩
        · show Pending (s.held ++ [input]).dropLast
          rw [List.dropLast_concat]
          exact hs.pending
        · show (s.held ++ [input]).flatten.length < accumSize
          rw [hflat, List.length_append]
          exact hroom
        · show 0 ∉ (s.held ++ [input]).flatten
          rw [hflat, List.mem_append, not_or]
          exact ⟨hs.chars, hin⟩
  have hgiven : ∀ outcome, s.given ++ [cstr (s.repl.accum ++ input)] =
      s.given ++ if Item.isGiven ⟨.given whole outcome, s.held ++ [input]⟩ then
        [cstr (s.held ++ [input]).flatten] else [] := by
    intro outcome
    rw [hflat]
    rfl
  have hnot : ∀ outcome, s.quit = true ↔ Fate.given whole outcome = .exit := by
    intro outcome
    rw [hquit]
    simp
  unfold System.give
  dsimp only
  split
  · exact hs.finish hquit rfl rfl (hsound _) (hgiven _) rfl (hnot _)
  · exact hs.finish hquit rfl rfl (hsound _) (hgiven _) rfl (hnot _)
  · exact hs.finish hquit rfl rfl (hsound _) (hgiven _) rfl (hnot _)

theorem good_accept (hs : s.Good) (hquit : s.quit = false) {whole : Bool} (hfits : Fits s whole input)
    (h : s.accept input whole t = some s') : s'.Good := by
  have hnot : ∀ fate, fate ≠ Fate.exit → (s.quit = true ↔ fate = .exit) := by
    intro fate hfate
    rw [hquit]
    simp [hfate]
  have halone : s.repl.accum = [] → s.held ++ [input] = [input] := by
    intro hnil
    rw [hs.held_nil hnil, List.nil_append]
  have hflat : (s.held ++ [input]).flatten = s.repl.accum ++ input := by
    rw [List.flatten_append, hs.held, List.flatten_singleton]
  rw [System.accept] at h
  split_ifs at h with hne hexit hblank hlong hwhole
  · cases h
    exact hs
  · cases h
    exact hs.finish hquit rfl rfl ⟨input, halone hexit.1, hexit.2⟩ (List.append_nil _).symm rfl (by simp)
  · cases h
    refine hs.finish hquit rfl rfl ⟨input, halone hblank.1, hblank.2⟩ (List.append_nil _).symm rfl ?_
    exact hnot .blank (by decide)
  · cases h
    refine hs.finish hquit rfl rfl (.inr ⟨?_, ?_⟩) (List.append_nil _).symm rfl (hnot .tooLong (by decide))
    · show Pending (s.held ++ [input]).dropLast
      rw [List.dropLast_concat]
      exact hs.pending
    · show accumSize ≤ (s.held ++ [input]).flatten.length
      rw [hflat, List.length_append]
      exact hlong
  · cases h
    refine good_give hs hquit hne hfits (not_le.mp hlong) fun h => ?_
    exact absurd (h.symm.trans hwhole) Bool.false_ne_true
  · obtain ⟨answer, hscan, rfl⟩ := Option.map_eq_some_iff.mp h
    have hlines : complete (s.held ++ [input]) = some answer := by
      rw [complete, hflat]
      exact hscan
    rw [Bool.not_eq_true] at hwhole
    cases answer with
    | true =>
        subst hwhole
        exact good_give hs hquit hne hfits (not_le.mp hlong) fun _ => hlines
    | false =>
        have hin : 0 ∉ input := by rwa [Fits, hwhole] at hfits
        exact
          { read := by
              show s.read ++ [input] = s.done.flatMap Item.texts ++ (s.held ++ [input])
              rw [hs.read, List.append_assoc]
            held := hflat
            full := fun text htext => by
              rcases List.mem_append.mp htext with htext | htext
              · exact hs.full text htext
              · rwa [List.mem_singleton.mp htext]
            room := by
              show (s.repl.accum ++ input).length < accumSize
              rw [List.length_append]
              exact not_le.mp hlong
            chars := by
              show 0 ∉ s.repl.accum ++ input
              rw [List.mem_append, not_or]
              exact ⟨hs.chars, hin⟩
            pending := hs.pending.snoc hlines
            done := hs.done
            given := hs.given
            lineNumber := hs.lineNumber
            last := hs.last
            quit := hs.quit }

theorem good_readLine (hs : s.Good) (hquit : s.quit = false) (h : s.readLine t = some s') : s'.Good := by
  have hs₁ : System.Good { s with repl := s.repl.puts (prompt s.repl t.ns) } := hs.of_repl rfl rfl
  rw [System.readLine] at h
  cases hline : uartReadline t.rounds inputSize with
  | error e =>
      rw [hline] at h
      cases h
  | ok line? =>
      rw [hline] at h
      cases line? with
      | none =>
          cases h
          refine hs₁.finish hquit (List.append_nil _).symm (List.append_nil _).symm hs.pending
            (List.append_nil _).symm rfl ?_
          simp [hquit]
      | some line =>
          have hfits : Fits s false line := (readlineLoop_line List.not_mem_nil hline).1
          exact good_accept hs₁ hquit hfits h

theorem System.Good.refresh (hs : s.Good) (t : Turn) : (s.refresh t).Good := hs.of_repl rfl rfl

theorem System.Good.disable (hs : s.Good) (why : List UInt8) : (s.disable why).Good := hs.of_repl rfl rfl

theorem good_round (hs : s.Good) (hquit : s.quit = false) (h : s.round t = some s') : s'.Good := by
  have hs₁ := hs.refresh t
  rw [System.round] at h
  split_ifs at h with heditor
  · cases hedited : t.edited with
    | cannotCompile =>
        rw [hedited] at h
        exact good_readLine (hs₁.disable _) hquit h
    | interrupted =>
        rw [hedited] at h
        cases h
        exact hs₁.of_repl rfl rfl
    | error message =>
        rw [hedited] at h
        exact good_readLine (hs₁.disable _) hquit h
    | noString =>
        rw [hedited] at h
        exact good_readLine (hs₁.disable _) hquit h
    | text text =>
        rw [hedited] at h
        dsimp only at h
        split_ifs at h with hlong
        · cases h
          have halone : s.held ++ [text] = [text] := by rw [hs.held_nil heditor.1, List.nil_append]
          refine hs.finish hquit rfl rfl (.inl ⟨text, halone, hlong⟩) (List.append_nil _).symm rfl ?_
          show s.quit = true ↔ Fate.tooLong = .exit
          simp [hquit]
        · have hfits : Fits (s.refresh t) true text := ⟨heditor.1, not_le.mp hlong⟩
          exact good_accept hs₁ hquit hfits h
  · exact good_readLine hs₁ hquit h

/-! ### The scan stays inside -/

theorem accept_ends {whole : Bool} (h0 : 0 ∉ s.repl.accum ++ input)
    (hmode : endByteMode (s.repl.accum ++ input) ≠ .comment) : ∃ s', s.accept input whole t = some s' := by
  obtain ⟨answer, hscan⟩ := scan_ends h0 hmode
  rw [System.accept]
  split_ifs
  · exact ⟨_, rfl⟩
  · exact ⟨_, rfl⟩
  · exact ⟨_, rfl⟩
  · exact ⟨_, rfl⟩
  · exact ⟨_, rfl⟩
  · exact ⟨_, Option.map_eq_some_iff.mpr ⟨answer, hscan, rfl⟩⟩

theorem accept_whole : ∃ s', s.accept input true t = some s' := by
  rw [System.accept]
  split_ifs with hnil hexit hblank hlong hwhole
  · exact ⟨_, rfl⟩
  · exact ⟨_, rfl⟩
  · exact ⟨_, rfl⟩
  · exact ⟨_, rfl⟩
  · exact ⟨_, rfl⟩
  · exact absurd rfl hwhole

theorem readLine_ends (h0 : 0 ∉ s.repl.accum) (ht : t.Typed) : ∃ s', s.readLine t = some s' := by
  rw [Turn.Typed] at ht
  rw [System.readLine]
  cases hline : uartReadline t.rounds inputSize with
  | error e =>
      rw [hline] at ht
      exact ht.elim
  | ok line? =>
      rw [hline] at ht
      cases line? with
      | none => exact ⟨_, rfl⟩
      | some line =>
          obtain ⟨hzero, hnewline⟩ := readlineLoop_line List.not_mem_nil hline
          obtain ⟨pre, rfl⟩ := hnewline ht
          refine accept_ends ?_ ?_
          · rw [List.mem_append, not_or]
            exact ⟨h0, hzero⟩
          · rw [← List.append_assoc, endByteMode, List.foldl_append]
            exact nextByte_newline

theorem round_ends (h0 : 0 ∉ s.repl.accum) (ht : t.Typed) : ∃ s', s.round t = some s' := by
  rw [System.round]
  split_ifs with heditor
  · cases t.edited with
    | cannotCompile => exact readLine_ends h0 ht
    | interrupted => exact ⟨_, rfl⟩
    | error message => exact readLine_ends h0 ht
    | noString => exact readLine_ends h0 ht
    | text text =>
        dsimp only
        split_ifs
        · exact ⟨_, rfl⟩
        · exact accept_whole
  · exact readLine_ends h0 ht

/-! ### The runs -/

theorem good_run {ts : List Turn} (hs : s.Good) (h : s.run ts = some s') : s'.Good := by
  induction ts generalizing s with
  | nil =>
      cases h
      exact hs
  | cons t ts ih =>
      rw [System.run] at h
      split_ifs at h with hquit
      · cases h
        exact hs
      · obtain ⟨s₁, hround, hrun⟩ := Option.bind_eq_some_iff.mp h
        rw [Bool.not_eq_true] at hquit
        exact ih (good_round hs hquit hround) hrun

theorem run_ends {ts : List Turn} (hs : s.Good) (hts : ∀ t ∈ ts, t.Typed) : ∃ s', s.run ts = some s' := by
  induction ts generalizing s with
  | nil => exact ⟨s, rfl⟩
  | cons t ts ih =>
      obtain ⟨ht, hrest⟩ := List.forall_mem_cons.mp hts
      rw [System.run]
      split_ifs with hquit
      · exact ⟨s, rfl⟩
      · obtain ⟨s₁, hround⟩ := round_ends hs.chars ht
        rw [Bool.not_eq_true] at hquit
        rw [hround]
        exact ih (good_round hs hquit hround) hrest

/-- Whatever is typed, edited and evaluated, each text that the loop reads is accounted for, in order: the reader is
given the texts of the editor, and lines once they are complete together and not before. Where no line fills the
buffer, the loop never reads behind a text. -/
theorem texts_kept (enabled : Bool) (ts : List Turn) :
    (∀ s, (boot enabled).run ts = some s → s.Good) ∧
      ((∀ t ∈ ts, t.Typed) → ∃ s, (boot enabled).run ts = some s) :=
  ⟨fun _ h => good_run (good_boot enabled) h, run_ends (good_boot enabled)⟩

end Beeros.ReplUart
