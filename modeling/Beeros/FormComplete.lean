import Mathlib.Algebra.BigOperators.Group.List.Basic
import Mathlib.Tactic.Ring
import Mathlib.Tactic.SplitIfs
import Beeros.Beerlang
import Beeros.Utf8

/-! When is a form complete? `is_form_complete` of `kernel/repl_uart.c` scans the bytes of the input,
`form-complete?` of `lib/lineedit.beer` its characters. Both are compared with one reading of the text, in which each
character stands in code, in a string, in a comment or after a backslash. -/

namespace Beeros.FormComplete

open Utf8

/-! ### `is_form_complete` -/

/-- The scan from a pointer into the memory of the input, whose text ends with a zero byte; `none` when it reads past
the end of that memory. -/
def scan : List UInt8 → Int → Bool → Bool → Option Bool
  | [], _, _, _ => none
  | b :: p, depth, inString, hasContent =>
      if b = 0 then some (hasContent && decide (depth ≤ 0))
      else if inString then
        if b = '\\'.toUInt8 ∧ p.headD 0 ≠ 0 then scan p.tail depth true hasContent
        else if b = '"'.toUInt8 then scan p depth false hasContent
        else scan p depth true hasContent
      else if b = '"'.toUInt8 then scan p depth true true
      else if b = ';'.toUInt8 then
        -- the inner loop stops at the newline, which is read again, or at the zero byte, which is stepped over
        match _h : p.dropWhile fun x => x != 0 && x != '\n'.toUInt8 with
        | [] => none
        | x :: q => if x = 0 then scan q depth false hasContent else scan (x :: q) depth false hasContent
      else if b = '('.toUInt8 ∨ b = '['.toUInt8 ∨ b = '{'.toUInt8 then scan p (depth + 1) false true
      else if b = ')'.toUInt8 ∨ b = ']'.toUInt8 ∨ b = '}'.toUInt8 then scan p (depth - 1) false hasContent
      else scan p depth false (hasContent || decide (' '.toUInt8 < b))
termination_by p => p.length
decreasing_by
  all_goals simp only [List.length_cons, List.length_tail]
  all_goals try omega
  all_goals
    have hlen := (List.dropWhile_suffix (l := p) fun x => x != 0 && x != '\n'.toUInt8).length_le
    rw [_h] at hlen
    simp only [List.length_cons] at hlen
    omega

/-- `(is_form_complete src)` with the text `s` and its zero byte at `src`. -/
def isFormComplete (s : Str) : Option Bool := scan (Utf8.encode s ++ [0]) 0 false false

/-! ### `form-complete?` -/

def isOpener (c : Char) : Bool := c == '(' || c == '[' || c == '{'

def isCloser (c : Char) : Bool := c == ')' || c == ']' || c == '}'

def formLoop : Str → Int → Bool → Bool → Bool
  | [], depth, inStr, content => content && !inStr && decide (depth ≤ 0)
  | c :: more, depth, inStr, content =>
      if inStr then
        if c = '\\' then formLoop more.tail depth true content
        else if c = '"' then formLoop more depth false content
        else formLoop more depth true content
      else if c = '"' then formLoop more depth true true
      else if c = '\\' then formLoop more.tail depth false true
      else if c = ';' then formLoop (more.dropWhile (· ≠ '\n')) depth false content
      else if isOpener c then formLoop more (depth + 1) false true
      else if isCloser c then formLoop more (depth - 1) false content
      else if c = ' ' ∨ c = '\n' ∨ c = '\t' ∨ c = ',' then formLoop more depth false content
      else formLoop more depth false true
termination_by cs => cs.length
decreasing_by
  all_goals simp only [List.length_cons, List.length_tail]
  all_goals try omega
  all_goals
    have hlen := (List.dropWhile_suffix (l := more) fun x => decide (x ≠ '\n')).length_le
    omega

def formComplete (s : Str) : Bool := formLoop s 0 false false

/-! ### One reading of the text -/

/-- Where a character stands. -/
inductive Mode
  | code
  | string
  /-- After a backslash in a string. -/
  | escape
  | comment
  /-- After a backslash in code: the character of a character literal. -/
  | literal
  deriving DecidableEq

def Mode.next : Mode → Char → Mode
  | code, c => if c = '"' then string else if c = '\\' then literal else if c = ';' then comment else code
  | string, c => if c = '\\' then escape else if c = '"' then code else string
  | escape, _ => string
  | comment, c => if c = '\n' then code else comment
  | literal, _ => code

/-- The characters of the text, each with where it stands. -/
def marks : Mode → Str → List (Mode × Char)
  | _, [] => []
  | q, c :: cs => (q, c) :: marks (q.next c) cs

/-- Where a character after the text would stand. -/
def modeAfter (q : Mode) (s : Str) : Mode := s.foldl Mode.next q

def endMode (s : Str) : Mode := modeAfter .code s

def bracket (c : Char) : Int := if isOpener c then 1 else if isCloser c then -1 else 0

/-- The brackets at the places `q`, openers less closers. -/
def depthAt (q : Mode) (ms : List (Mode × Char)) : Int := (ms.map fun x => if x.1 = q then bracket x.2 else 0).sum

/-- A character of the code with `p`. -/
def inCode (p : Char → Bool) (ms : List (Mode × Char)) : Bool := ms.any fun x => decide (x.1 = .code) && p x.2

/-- What is content to both: neither space nor control character, comma, semicolon or closer. -/
def isContent (c : Char) : Bool := decide (' ' < c) && c != ',' && c != ';' && !isCloser c

/-- Neither space nor newline nor tab. -/
def isControl (c : Char) : Bool := decide (c < ' ') && c != '\n' && c != '\t'

/-- No character literal is a quote or a semicolon, which begin a string or a comment to `is_form_complete`. -/
def Synced (s : Str) : Prop := ∀ x ∈ marks .code s, x.1 = .literal → x.2 ≠ '"' ∧ x.2 ≠ ';'

instance : DecidablePred Synced := fun s => inferInstanceAs (Decidable (∀ x ∈ marks .code s, _ → _))

/-- The text does not end in a comment; when it ends in a string, brackets are open in code and literals; else the
brackets in code are closed with those in literals exactly when they are without, and if nothing in the code is content
to both, there is a comma in it exactly when there is a control character. -/
def Alike (s : Str) : Prop :=
  let ms := marks .code s
  endMode s ≠ .comment ∧
    if inCode isContent ms then
      if endMode s = .string ∨ endMode s = .escape then 0 < depthAt .code ms + depthAt .literal ms
      else depthAt .code ms + depthAt .literal ms ≤ 0 ↔ depthAt .code ms ≤ 0
    else inCode (· == ',') ms = inCode isControl ms

instance : DecidablePred Alike := fun s => by
  delta Alike
  exact inferInstance

variable {c : Char} {cs s : Str} {q : Mode} {depth : Int} {content : Bool}

theorem marks_cons : marks q (c :: cs) = (q, c) :: marks (q.next c) cs := rfl

theorem depthAt_cons {q' : Mode} {ms : List (Mode × Char)} :
    depthAt q ((q', c) :: ms) = (if q' = q then bracket c else 0) + depthAt q ms := by
  unfold depthAt
  rw [List.map_cons, List.sum_cons]

theorem inCode_cons {p : Char → Bool} {ms : List (Mode × Char)} :
    inCode p ((q, c) :: ms) = (decide (q = .code) && p c || inCode p ms) := rfl

theorem isOpener_iff : isOpener c = true ↔ c = '(' ∨ c = '[' ∨ c = '{' := by
  rw [isOpener, Bool.or_eq_true, Bool.or_eq_true, beq_iff_eq, beq_iff_eq, beq_iff_eq, or_assoc]

theorem isCloser_iff : isCloser c = true ↔ c = ')' ∨ c = ']' ∨ c = '}' := by
  rw [isCloser, Bool.or_eq_true, Bool.or_eq_true, beq_iff_eq, beq_iff_eq, beq_iff_eq, or_assoc]

theorem bracket_of_not (ho : isOpener c = false) (hc : isCloser c = false) : bracket c = 0 := by
  unfold bracket
  rw [ho, hc]
  rfl

/-! ### The characters -/

/-- `form-complete?` in the middle of the text. -/
def formAt : Mode → Str → Int → Bool → Bool
  | .code, cs, depth, content => formLoop cs depth false content
  | .string, cs, depth, content => formLoop cs depth true content
  | .escape, cs, depth, content => formLoop cs.tail depth true content
  | .comment, cs, depth, content => formLoop (cs.dropWhile (· ≠ '\n')) depth false content
  | .literal, cs, depth, content => formLoop cs.tail depth false content

theorem isContent_or_isControl (hclose : isCloser c = false) (hsemi : c ≠ ';')
    (h : ¬(c = ' ' ∨ c = '\n' ∨ c = '\t' ∨ c = ',')) : isContent c = true ∨ isControl c = true := by
  unfold isContent isControl
  rw [not_or, not_or, not_or] at h
  rw [hclose]
  simp only [Bool.and_eq_true, bne_iff_ne, decide_eq_true_eq, Bool.not_false]
  rcases Nat.lt_or_gt_of_ne fun heq => h.1 (Char.toNat_inj.mp heq) with hlt | hgt
  · exact .inr ⟨⟨hlt, h.2.1⟩, h.2.2.1⟩
  · exact .inl ⟨⟨⟨hgt, h.2.2.2⟩, hsemi⟩, trivial⟩

theorem formLoop_code :
    formLoop (c :: cs) depth false content =
      formAt (Mode.code.next c) cs (depth + bracket c) (content || (isContent c || isControl c)) := by
  rw [formLoop, if_neg Bool.false_ne_true]
  by_cases hq : c = '"'
  · subst hq
    rw [if_pos rfl]
    show formLoop cs depth true true = formLoop cs (depth + 0) true (content || true)
    rw [add_zero, Bool.or_true]
  by_cases hb : c = '\\'
  · subst hb
    rw [if_neg hq, if_pos rfl]
    show formLoop cs.tail depth false true = formLoop cs.tail (depth + 0) false (content || true)
    rw [add_zero, Bool.or_true]
  by_cases hs : c = ';'
  · subst hs
    rw [if_neg hq, if_neg hb, if_pos rfl]
    show _ = formLoop (cs.dropWhile (· ≠ '\n')) (depth + 0) false (content || false)
    rw [add_zero, Bool.or_false]
  rw [if_neg hq, if_neg hb, if_neg hs, Mode.next, if_neg hq, if_neg hb, if_neg hs]
  show _ = formLoop cs (depth + bracket c) false _
  cases ho : isOpener c with
  | true =>
      have hcont : isContent c = true := by
        rcases isOpener_iff.mp ho with rfl | rfl | rfl <;> rfl
      rw [if_pos rfl, bracket, ho, if_pos rfl, hcont, Bool.true_or, Bool.or_true]
  | false =>
      rw [if_neg Bool.false_ne_true]
      cases hc : isCloser c with
      | true =>
          have hcont : (isContent c || isControl c) = false := by
            rcases isCloser_iff.mp hc with rfl | rfl | rfl <;> rfl
          rw [if_pos rfl, bracket, ho, hc, hcont, Bool.or_false, if_neg Bool.false_ne_true, if_pos rfl]
          rfl
      | false =>
          rw [if_neg Bool.false_ne_true, bracket_of_not ho hc, add_zero]
          by_cases hw : c = ' ' ∨ c = '\n' ∨ c = '\t' ∨ c = ','
          · have hcont : (isContent c || isControl c) = false := by
              rcases hw with rfl | rfl | rfl | rfl <;> rfl
            rw [if_pos hw, hcont, Bool.or_false]
          · rw [if_neg hw, Bool.or_eq_true_iff.mpr (isContent_or_isControl hc hs hw), Bool.or_true]

/-- One character of the text. -/
theorem formAt_cons :
    formAt q (c :: cs) depth content =
      formAt (q.next c) cs (depth + if q = .code then bracket c else 0)
        (content || (decide (q = .code) && (isContent c || isControl c))) := by
  by_cases hcode : q = .code
  · subst hcode
    exact formLoop_code
  rw [if_neg hcode, add_zero, decide_eq_false hcode, Bool.false_and, Bool.or_false]
  cases q with
  | code => exact absurd rfl hcode
  | string =>
      show formLoop (c :: cs) depth true content = _
      rw [formLoop, if_pos rfl, Mode.next]
      split_ifs <;> rfl
  | escape => rfl
  | literal => rfl
  | comment =>
      rw [Mode.next]
      by_cases hn : c = '\n'
      · subst hn
        rw [if_pos rfl]
        show formLoop ('\n' :: cs) depth false content = _
        rw [formLoop_code]
        show formLoop cs (depth + 0) false (content || false) = formLoop cs depth false content
        rw [add_zero, Bool.or_false]
      · rw [if_neg hn]
        show formLoop ((c :: cs).dropWhile _) depth false content = _
        rw [List.dropWhile_cons, if_pos (decide_eq_true hn)]
        rfl

theorem formAt_eq :
    formAt q cs depth content =
      ((content || (inCode isContent (marks q cs) || inCode isControl (marks q cs))) &&
        !decide (modeAfter q cs = .string ∨ modeAfter q cs = .escape) &&
        decide (depth + depthAt .code (marks q cs) ≤ 0)) := by
  induction cs generalizing q depth content with
  | nil =>
      have hnil : formAt q [] depth content =
          (content && !decide (q = .string ∨ q = .escape) && decide (depth ≤ 0)) := by
        cases q <;> exact (formLoop.eq_1 ..)
      rw [hnil]
      show _ = ((content || (false || false)) && !decide (q = .string ∨ q = .escape) && decide (depth + 0 ≤ 0))
      rw [add_zero, Bool.or_false, Bool.or_false]
  | cons c cs ih =>
      rw [formAt_cons, ih, marks_cons, inCode_cons, inCode_cons, depthAt_cons, ← add_assoc]
      show _ = (_ && !decide (modeAfter (q.next c) cs = .string ∨ modeAfter (q.next c) cs = .escape) && _)
      congr 2
      cases decide (q = .code) <;> cases content <;> cases isContent c <;> cases isControl c <;>
        cases inCode isContent (marks (q.next c) cs) <;> rfl

/-! ### The bytes -/

theorem toUInt8_ne_zero (h0 : c ≠ '\x00') (hc : c.toNat < 128) : c.toUInt8 ≠ 0 :=
  fun h => h0 ((toUInt8_inj hc (by decide)).mp h)

theorem space_lt_iff (hc : c.toNat < 128) : ' '.toUInt8 < c.toUInt8 ↔ ' ' < c := by
  rw [UInt8.lt_iff_toNat_lt, toNat_toUInt8 hc]
  rfl

theorem ne_of_le {b : UInt8} (h : 128 ≤ b) {d : Char} (hd : d.toNat < 128) : b ≠ d.toUInt8 := by
  rintro rfl
  rw [UInt8.le_iff_toNat_le, toNat_toUInt8 hd] at h
  exact absurd hd (Nat.not_lt.mpr h)

theorem ne_zero_of_le {b : UInt8} (h : 128 ≤ b) : b ≠ 0 := ne_of_le h (d := '\x00') (by decide)

/-- Where the scan goes on after a semicolon. -/
def afterComment (p : List UInt8) (depth : Int) (content : Bool) : Option Bool :=
  match p.dropWhile fun x => x != 0 && x != '\n'.toUInt8 with
  | [] => none
  | x :: q => if x = 0 then scan q depth false content else scan (x :: q) depth false content

theorem scan_semicolon {p : List UInt8} :
    scan (';'.toUInt8 :: p) depth false content = afterComment p depth content := by
  rw [scan, if_neg (by decide), if_neg Bool.false_ne_true, if_neg (by decide), if_pos rfl]
  unfold afterComment
  split
  · next h => rw [h]
  · next x q h => rw [h]

/-- Bytes of characters outside ASCII in a string. -/
theorem scan_string_of_le {bs p : List UInt8} (h : ∀ b ∈ bs, 128 ≤ b) :
    scan (bs ++ p) depth true content = scan p depth true content := by
  induction bs with
  | nil => rfl
  | cons b bs ih =>
      have hb := h b (List.mem_cons_self ..)
      rw [List.cons_append, scan, if_neg (ne_zero_of_le hb), if_pos rfl,
        if_neg fun hp => ne_of_le hb (by decide) hp.1, if_neg (ne_of_le hb (by decide)),
        ih fun b hb => h b (List.mem_cons_of_mem _ hb)]

theorem scan_byte_of_le {b : UInt8} {p : List UInt8} (hb : 128 ≤ b) :
    scan (b :: p) depth false content = scan p depth false true := by
  have hne : ∀ d : Char, d.toNat < 128 → b ≠ d.toUInt8 := fun d hd => ne_of_le hb hd
  have hlt : ' '.toUInt8 < b := by
    rw [UInt8.lt_iff_toNat_lt]
    exact Nat.lt_of_lt_of_le (by decide) (UInt8.le_iff_toNat_le.mp hb)
  have hopen : ¬(b = '('.toUInt8 ∨ b = '['.toUInt8 ∨ b = '{'.toUInt8) := by
    rintro (h | h | h) <;> exact hne _ (by decide) h
  have hclose : ¬(b = ')'.toUInt8 ∨ b = ']'.toUInt8 ∨ b = '}'.toUInt8) := by
    rintro (h | h | h) <;> exact hne _ (by decide) h
  rw [scan, if_neg (ne_zero_of_le hb), if_neg Bool.false_ne_true, if_neg (hne _ (by decide)),
    if_neg (hne _ (by decide)), if_neg hopen, if_neg hclose, decide_eq_true hlt, Bool.or_true]

theorem scan_code_of_le {bs p : List UInt8} (h : ∀ b ∈ bs, 128 ≤ b) (hne : bs ≠ []) :
    scan (bs ++ p) depth false content = scan p depth false true := by
  induction bs generalizing content with
  | nil => exact absurd rfl hne
  | cons b bs ih =>
      rw [List.cons_append, scan_byte_of_le (h b (List.mem_cons_self ..))]
      by_cases hnil : bs = []
      · rw [hnil, List.nil_append]
      · exact ih (fun b hb => h b (List.mem_cons_of_mem _ hb)) hnil

/-- `is_form_complete` in the middle of the text. -/
def scanAt : Mode → List UInt8 → Int → Bool → Option Bool
  | .code, p, depth, content => scan p depth false content
  | .string, p, depth, content => scan p depth true content
  | .escape, p, depth, content =>
      if p.headD 0 ≠ 0 then scan p.tail depth true content else scan p depth true content
  | .comment, p, depth, content => afterComment p depth content
  | .literal, p, depth, content => scan p depth false content

theorem scan_code {p : List UInt8} (h0 : c ≠ '\x00') (hc : c.toNat < 128) :
    scan (c.toUInt8 :: p) depth false content =
      if c = '"' then scan p depth true true
      else if c = ';' then afterComment p depth content
      else scan p (depth + bracket c) false (content || (isContent c || c == ',')) := by
  by_cases hs : c = ';'
  · subst hs
    exact scan_semicolon
  rw [scan, if_neg (toUInt8_ne_zero h0 hc), if_neg Bool.false_ne_true]
  simp (disch := decide) only [toUInt8_inj hc, space_lt_iff hc]
  by_cases hq : c = '"'
  · rw [if_pos hq, if_pos hq]
  rw [if_neg hq, if_neg hq, if_neg hs, if_neg hs]
  by_cases ho : c = '(' ∨ c = '[' ∨ c = '{'
  · rw [if_pos ho]
    rcases ho with rfl | rfl | rfl
    all_goals exact congrArg (scan p (depth + 1) false) (Bool.or_true content).symm
  rw [if_neg ho]
  by_cases hcl : c = ')' ∨ c = ']' ∨ c = '}'
  · rw [if_pos hcl]
    rcases hcl with rfl | rfl | rfl
    all_goals exact congrArg (scan p (depth - 1) false) (Bool.or_false content).symm
  rw [if_neg hcl]
  have ho' : isOpener c = false := Bool.eq_false_iff.mpr fun h => ho (isOpener_iff.mp h)
  have hcl' : isCloser c = false := Bool.eq_false_iff.mpr fun h => hcl (isCloser_iff.mp h)
  rw [bracket_of_not ho' hcl', add_zero]
  congr 2
  unfold isContent
  by_cases hcomma : c = ','
  · subst hcomma
    rfl
  · rw [hcl', bne_iff_ne.mpr hcomma, bne_iff_ne.mpr hs, beq_eq_false_iff_ne.mpr hcomma, Bool.and_true, Bool.and_true,
      Bool.not_false, Bool.and_true, Bool.or_false]

/-- A character outside ASCII is content, and nothing else. -/
theorem outside_ascii (h : 128 ≤ c.toNat) : bracket c = 0 ∧ isContent c = true ∧ ∀ d : Char, d.toNat < 128 → c ≠ d := by
  have hne : ∀ d : Char, d.toNat < 128 → c ≠ d := by
    rintro d hd rfl
    exact absurd hd (Nat.not_lt.mpr h)
  have ho : isOpener c = false := Bool.eq_false_iff.mpr fun ho => by
    rcases isOpener_iff.mp ho with heq | heq | heq <;> exact hne _ (by decide) heq
  have hcl : isCloser c = false := Bool.eq_false_iff.mpr fun hcl => by
    rcases isCloser_iff.mp hcl with heq | heq | heq <;> exact hne _ (by decide) heq
  have hlt : ' ' < c := Nat.lt_of_lt_of_le (show ' '.toNat < 128 by decide) h
  refine ⟨bracket_of_not ho hcl, ?_, hne⟩
  rw [isContent, hcl, decide_eq_true hlt, bne_iff_ne.mpr (hne _ (by decide)), bne_iff_ne.mpr (hne _ (by decide))]
  rfl

theorem utf8EncodeChar_ne_nil : String.utf8EncodeChar c ≠ [] :=
  List.ne_nil_of_length_pos (Utf8.length_utf8EncodeChar_pos c)

theorem scanAt_code {p : List UInt8} (h0 : c ≠ '\x00') :
    scanAt .code (String.utf8EncodeChar c ++ p) depth content =
      scanAt (Mode.code.next c) p (depth + bracket c) (content || (isContent c || c == ',')) := by
  by_cases hc : c.toNat < 128
  · rw [utf8EncodeChar_of_lt hc, List.singleton_append]
    show scan _ depth false content = _
    rw [scan_code h0 hc, Mode.next]
    by_cases hq : c = '"'
    · subst hq
      rw [if_pos rfl, if_pos rfl]
      show scan p depth true true = scan p (depth + 0) true (content || true)
      rw [add_zero, Bool.or_true]
    rw [if_neg hq, if_neg hq]
    by_cases hb : c = '\\'
    · subst hb
      rfl
    rw [if_neg hb]
    by_cases hs : c = ';'
    · subst hs
      rw [if_pos rfl, if_pos rfl]
      show _ = afterComment p (depth + 0) (content || false)
      rw [add_zero, Bool.or_false]
    · rw [if_neg hs, if_neg hs]
      rfl
  · have hle := Nat.le_of_not_lt hc
    obtain ⟨hbr, hcont, hne⟩ := outside_ascii hle
    rw [Mode.next, if_neg (hne _ (by decide)), if_neg (hne _ (by decide)), if_neg (hne _ (by decide)), hbr, hcont,
      add_zero, Bool.true_or, Bool.or_true]
    exact scan_code_of_le (fun b hb => le_of_mem_utf8EncodeChar hle hb) utf8EncodeChar_ne_nil

theorem scanAt_string {p : List UInt8} (h0 : c ≠ '\x00') :
    scanAt .string (String.utf8EncodeChar c ++ p) depth content = scanAt (Mode.string.next c) p depth content := by
  by_cases hc : c.toNat < 128
  · rw [utf8EncodeChar_of_lt hc, List.singleton_append]
    show scan _ depth true content = _
    rw [scan, if_neg (toUInt8_ne_zero h0 hc), if_pos rfl, Mode.next]
    simp (disch := decide) only [toUInt8_inj hc]
    by_cases hb : c = '\\'
    · subst hb
      rw [if_pos rfl, if_neg (by decide : ('\\' : Char) ≠ '"')]
      show _ = if p.headD 0 ≠ 0 then scan p.tail depth true content else scan p depth true content
      simp only [true_and]
    · rw [if_neg hb, if_neg fun h => hb h.1]
      split_ifs <;> rfl
  · have hle := Nat.le_of_not_lt hc
    obtain ⟨-, -, hne⟩ := outside_ascii hle
    rw [Mode.next, if_neg (hne _ (by decide)), if_neg (hne _ (by decide))]
    exact scan_string_of_le fun b hb => le_of_mem_utf8EncodeChar hle hb

theorem scanAt_escape {p : List UInt8} (h0 : c ≠ '\x00') :
    scanAt .escape (String.utf8EncodeChar c ++ p) depth content = scan p depth true content := by
  unfold scanAt
  by_cases hc : c.toNat < 128
  · rw [utf8EncodeChar_of_lt hc, List.singleton_append]
    exact if_pos (toUInt8_ne_zero h0 hc)
  · cases hbs : String.utf8EncodeChar c with
    | nil => exact absurd hbs utf8EncodeChar_ne_nil
    | cons b bs =>
        have hle : ∀ x ∈ b :: bs, 128 ≤ x := fun x hx =>
          le_of_mem_utf8EncodeChar (Nat.le_of_not_lt hc) (hbs ▸ hx)
        rw [List.cons_append]
        exact (if_pos (ne_zero_of_le (hle b (List.mem_cons_self ..)))).trans
          (scan_string_of_le fun x hx => hle x (List.mem_cons_of_mem _ hx))

theorem scanAt_comment {p : List UInt8} (h0 : c ≠ '\x00') :
    scanAt .comment (String.utf8EncodeChar c ++ p) depth content = scanAt (Mode.comment.next c) p depth content := by
  rw [Mode.next]
  by_cases hn : c = '\n'
  · subst hn
    rw [if_pos rfl]
    show scan ('\n'.toUInt8 :: p) depth false content = scan p depth false content
    rw [scan_code h0 (by decide)]
    show scan p (depth + 0) false (content || false) = scan p depth false content
    rw [add_zero, Bool.or_false]
  · rw [if_neg hn]
    have hpass : ∀ b ∈ String.utf8EncodeChar c, (b != 0 && b != '\n'.toUInt8) = true := by
      intro b hb
      rw [Bool.and_eq_true, bne_iff_ne, bne_iff_ne]
      by_cases hc : c.toNat < 128
      · rw [utf8EncodeChar_of_lt hc, List.mem_singleton] at hb
        subst hb
        exact ⟨toUInt8_ne_zero h0 hc, fun h => hn ((toUInt8_inj hc (by decide)).mp h)⟩
      · have hle := le_of_mem_utf8EncodeChar (Nat.le_of_not_lt hc) hb
        exact ⟨ne_zero_of_le hle, ne_of_le hle (by decide)⟩
    show afterComment _ depth content = afterComment p depth content
    unfold afterComment
    rw [List.dropWhile_append_of_pos hpass]

/-- One character of a text whose character literals are neither quotes nor semicolons. -/
theorem scanAt_cons {p : List UInt8} (h0 : c ≠ '\x00') (hlit : q = .literal → content = true ∧ c ≠ '"' ∧ c ≠ ';') :
    scanAt q (String.utf8EncodeChar c ++ p) depth content =
      scanAt (q.next c) p (depth + ((if q = .code then bracket c else 0) + if q = .literal then bracket c else 0))
        (content || (decide (q = .code) && (isContent c || c == ','))) := by
  cases q with
  | code =>
      rw [scanAt_code h0, if_pos rfl, if_neg nofun, add_zero]
      rfl
  | string =>
      rw [scanAt_string h0, if_neg nofun, if_neg nofun, add_zero, add_zero]
      exact congrArg _ (Bool.or_false content).symm
  | escape =>
      rw [scanAt_escape h0, if_neg nofun, if_neg nofun, add_zero, add_zero]
      exact congrArg _ (Bool.or_false content).symm
  | comment =>
      rw [scanAt_comment h0, if_neg nofun, if_neg nofun, add_zero, add_zero]
      exact congrArg _ (Bool.or_false content).symm
  | literal =>
      obtain ⟨rfl, hq, hs⟩ := hlit rfl
      rw [if_neg nofun, if_pos rfl, zero_add]
      show scan _ depth false true = scan p (depth + bracket c) false true
      by_cases hc : c.toNat < 128
      · rw [utf8EncodeChar_of_lt hc, List.singleton_append, scan_code h0 hc, if_neg hq, if_neg hs, Bool.true_or]
      · have hle := Nat.le_of_not_lt hc
        rw [(outside_ascii hle).1, add_zero]
        exact scan_code_of_le (fun b hb => le_of_mem_utf8EncodeChar hle hb) utf8EncodeChar_ne_nil

/-- Whether `is_form_complete` has seen content where a character literal begins. -/
theorem scanAt_eq (h0 : '\x00' ∉ cs) (hsync : ∀ x ∈ marks q cs, x.1 = .literal → x.2 ≠ '"' ∧ x.2 ≠ ';')
    (hlit : q = .literal → content = true) :
    scanAt q (Utf8.encode cs ++ [0]) depth content =
      if modeAfter q cs = .comment then none
      else some ((content || (inCode isContent (marks q cs) || inCode (· == ',') (marks q cs))) &&
        decide (depth + (depthAt .code (marks q cs) + depthAt .literal (marks q cs)) ≤ 0)) := by
  induction cs generalizing q depth content with
  | nil =>
      have hend : scan [0] depth false content = some (content && decide (depth ≤ 0)) ∧
          scan [0] depth true content = some (content && decide (depth ≤ 0)) := by
        constructor <;> rw [scan, if_pos rfl]
      show scanAt q [0] depth content =
        if q = .comment then none else some ((content || (false || false)) && decide (depth + (0 + 0) ≤ 0))
      rw [add_zero, add_zero, Bool.or_false, Bool.or_false]
      cases q with
      | code => exact hend.1
      | string => exact hend.2
      | escape => exact hend.2
      | literal => exact hend.1
      | comment => exact scan.eq_1 ..
  | cons c cs ih =>
      rw [List.mem_cons, not_or] at h0
      have hlit' : q.next c = .literal →
          (content || (decide (q = .code) && (isContent c || c == ','))) = true := by
        intro hnext
        cases q with
        | code =>
            rw [Mode.next] at hnext
            split_ifs at hnext with hq hb
            subst hb
            exact Bool.or_true content
        | string => rw [Mode.next] at hnext; split_ifs at hnext
        | escape => cases hnext
        | comment => rw [Mode.next] at hnext; split_ifs at hnext
        | literal => cases hnext
      rw [Utf8.encode_cons, List.append_assoc, scanAt_cons (Ne.symm h0.1) fun hq => ⟨hlit hq, ?_⟩,
        ih h0.2 (fun d hd => hsync d (List.mem_cons_of_mem _ hd)) hlit', marks_cons, inCode_cons, inCode_cons,
        depthAt_cons, depthAt_cons]
      · show (if modeAfter (q.next c) cs = .comment then _ else _) = if modeAfter (q.next c) cs = .comment then _ else _
        congr 3
        · cases decide (q = .code) <;> cases content <;> cases isContent c <;> cases c == ',' <;>
            cases inCode isContent (marks (q.next c) cs) <;> rfl
        · congr 2
          ring
      · subst hq
        exact hsync _ (List.mem_cons_self ..) rfl

/-! ### Agreement -/

theorem isFormComplete_eq (h0 : '\x00' ∉ s) (hsync : Synced s) :
    isFormComplete s =
      if endMode s = .comment then none
      else some ((inCode isContent (marks .code s) || inCode (· == ',') (marks .code s)) &&
        decide (depthAt .code (marks .code s) + depthAt .literal (marks .code s) ≤ 0)) := by
  have h : scanAt .code (Utf8.encode s ++ [0]) 0 false = _ := scanAt_eq h0 hsync nofun
  rw [zero_add, Bool.false_or] at h
  exact h

theorem formComplete_eq :
    formComplete s =
      ((inCode isContent (marks .code s) || inCode isControl (marks .code s)) &&
        !decide (endMode s = .string ∨ endMode s = .escape) && decide (depthAt .code (marks .code s) ≤ 0)) := by
  have h : formAt .code s 0 false = _ := formAt_eq
  rw [zero_add, Bool.false_or] at h
  exact h

/-- Without content the text has no string, no character literal and no opener in its code. -/
theorem bare (hq : q = .code ∨ q = .comment) (h : inCode isContent (marks q cs) = false) :
    (modeAfter q cs = .code ∨ modeAfter q cs = .comment) ∧ depthAt .literal (marks q cs) = 0 ∧
      depthAt .code (marks q cs) ≤ 0 := by
  induction cs generalizing q with
  | nil => exact ⟨hq, rfl, Int.le_refl 0⟩
  | cons c cs ih =>
      rw [marks_cons, inCode_cons, Bool.or_eq_false_iff] at h
      rw [marks_cons, depthAt_cons, depthAt_cons]
      have hnext : (q.next c = .code ∨ q.next c = .comment) ∧ (if q = .code then bracket c else 0) ≤ 0 := by
        rcases hq with rfl | rfl
        · have hc : isContent c = false := by simpa using h.1
          have hne : ∀ d, isContent d = true → c ≠ d := by
            rintro d hd rfl
            rw [hc] at hd
            cases hd
          have ho : isOpener c = false := Bool.eq_false_iff.mpr fun ho => by
            rcases isOpener_iff.mp ho with heq | heq | heq <;> exact hne _ rfl heq
          rw [Mode.next, if_neg (hne _ rfl), if_neg (hne _ rfl), if_pos rfl, bracket, ho, if_neg Bool.false_ne_true]
          exact ⟨by split_ifs <;> simp, by split_ifs <;> decide⟩
        · refine ⟨?_, le_of_eq (if_neg nofun)⟩
          rw [Mode.next]
          split_ifs <;> simp
      have hlit : (if q = .literal then bracket c else 0) = 0 := if_neg (by rcases hq with rfl | rfl <;> nofun)
      obtain ⟨hmode, hl, hd⟩ := ih hnext.1 h.2
      rw [hlit, hl]
      exact ⟨hmode, rfl, by have := hnext.2; omega⟩

theorem agree_iff (h0 : '\x00' ∉ s) (hsync : Synced s) : isFormComplete s = some (formComplete s) ↔ Alike s := by
  rw [isFormComplete_eq h0 hsync, formComplete_eq]
  unfold Alike
  by_cases hcom : endMode s = .comment
  · rw [if_pos hcom]
    exact ⟨nofun, fun h => absurd hcom h.1⟩
  rw [if_neg hcom, Option.some_inj, Bool.eq_iff_iff]
  simp only [Bool.and_eq_true, Bool.not_eq_true', decide_eq_true_eq, decide_eq_false_iff_not, ne_eq, hcom,
    not_false_eq_true, true_and]
  cases hcont : inCode isContent (marks .code s) with
  | true =>
      rw [if_pos rfl, Bool.true_or, Bool.true_or]
      split_ifs with hstr
      · simp [hstr]
      · simp [hstr]
  | false =>
      obtain ⟨hmode, hl, hd⟩ := bare (q := .code) (.inl rfl) hcont
      have hstr : ¬(endMode s = .string ∨ endMode s = .escape) := by
        rintro (h | h)
        · rw [endMode] at h
          rw [h] at hmode
          simp at hmode
        · rw [endMode] at h
          rw [h] at hmode
          simp at hmode
      rw [if_neg Bool.false_ne_true, hl, add_zero, Bool.false_or, Bool.false_or]
      simp only [hstr, hd, and_true, not_false_eq_true]
      exact Bool.eq_iff_iff.symm

/-- The two checks agree on the texts with `Alike` whose character literals are neither quotes nor semicolons; of
the texts with such literals they agree on no others. -/
theorem agree_of_alike (h0 : '\x00' ∉ s) :
    (Synced s ∧ Alike s → isFormComplete s = some (formComplete s)) ∧
      (isFormComplete s = some (formComplete s) → Synced s → Alike s) :=
  ⟨fun h => (agree_iff h0 h.1).mpr h.2, fun h hsync => (agree_iff h0 hsync).mp h⟩

theorem agree_of_alike_list : isFormComplete "(f [1 2]) ; x\n".toList = some (formComplete "(f [1 2]) ; x\n".toList) :=
  (agree_of_alike (by decide)).1 ⟨by decide, by decide⟩

/-- A parenthesis as a character literal, an open string, a comment without a newline. -/
theorem not_agree_literal : isFormComplete "(f \\()".toList ≠ some (formComplete "(f \\()".toList) ∧
    isFormComplete "\"a".toList ≠ some (formComplete "\"a".toList) ∧
    isFormComplete "a ;".toList ≠ some (formComplete "a ;".toList) := by
  refine ⟨?_, ?_, ?_⟩
  · rw [isFormComplete_eq (by decide) (by decide), formComplete_eq]
    decide
  · rw [isFormComplete_eq (by decide) (by decide), formComplete_eq]
    decide
  · rw [isFormComplete_eq (by decide) (by decide), formComplete_eq]
    decide

end Beeros.FormComplete
