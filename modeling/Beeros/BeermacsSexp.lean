import Beeros.BeermacsCommands
import Beeros.BeermacsScan
import Beeros.Brackets

/-! `sexp-before` of `beermacs.buffer` on printed forms. It knows nothing of strings but their last quote: a quote inside
the string ends the way back, and brackets inside strings are counted with the others. -/

namespace Beeros.Beermacs

open Beerlang
open Brackets (Side depth Balanced Enclosed)
open Lines (Pos Valid Le upTo between)

/-! ### Printed forms -/

inductive Kind
  | list
  | vector
  | map
  deriving DecidableEq

def Kind.opener : Kind → Char
  | list => '('
  | vector => '['
  | map => '\x7b'

def Kind.closer : Kind → Char
  | list => ')'
  | vector => ']'
  | map => '\x7d'

/-- What stands in a printed string: a character, or one behind a backslash. -/
inductive Piece
  | plain (c : Char) (h : c ≠ '"' ∧ c ≠ '\\')
  | escaped (c : Char)

def Piece.print : Piece → Str
  | plain c _ => [c]
  | escaped c => ['\\', c]

/-- Spaces and newlines. -/
structure Gap where
  chars : Str
  blank : ∀ c ∈ chars, blank c = true

structure Word where
  chars : Str
  ne_nil : chars ≠ []
  word : ∀ c ∈ chars, wordChar c = true

mutual

inductive Form
  /-- A symbol or a number. -/
  | word (w : Word)
  | string (body : List Piece)
  | coll (k : Kind) (fs : Forms)

/-- Forms, each with the gap before it. -/
inductive Forms
  | nil
  | cons (gap : Gap) (f : Form) (fs : Forms)

end

def printBody (body : List Piece) : Str := body.flatMap Piece.print

mutual

def Form.print : Form → Str
  | .word w => w.chars
  | .string body => '"' :: (printBody body ++ ['"'])
  | .coll k fs => k.opener :: (fs.print ++ [k.closer])

def Forms.print : Forms → Str
  | .nil => []
  | .cons gap f fs => gap.chars ++ f.print ++ fs.print

end

/-- What the bracket counter makes of a character. -/
def side (c : Char) : Side :=
  if (closers c).isSome then .closes else if ['(', '[', '\x7b'].contains c then .opens else .other

/-- A string without a quote inside; a collection whose brackets, those in its strings with the others, are level at its
end and not before it. -/
def Form.ReadsBack : Form → Prop
  | .word _ => True
  | .string body => '"' ∉ printBody body
  | .coll k fs => Enclosed ((Form.coll k fs).print.map side)

mutual

/-- No string of the form has a quote or a bracket inside. -/
def Form.Quiet : Form → Prop
  | .word _ => True
  | .string body => ∀ c ∈ printBody body, c ≠ '"' ∧ side c = .other
  | .coll _ fs => fs.Quiet

def Forms.Quiet : Forms → Prop
  | .nil => True
  | .cons _ f fs => f.Quiet ∧ fs.Quiet

end

variable {c : Char} {d : Int} {s u rest pre blanks : Str} {f : Form}

/-! ### The scans on printed forms -/

theorem bracket_eq : bracket c = -(side c).value := by
  unfold bracket side
  split_ifs <;> rfl

theorem length_openBack {r : Str} (h : openBack d s = some r) : r.length < s.length := by
  induction s generalizing d with
  | nil => cases h
  | cons c s ih =>
      rw [openBack] at h
      split_ifs at h
      · cases h
        exact Nat.lt_succ_self _
      · exact Nat.lt_succ_of_lt (ih h)

/-- The counter stops behind `u`. -/
theorem openBack_append (hne : u ≠ []) : openBack d (u ++ rest) = some rest ↔ depth (u.map side) = d ∧
    ∀ v, v <+: u.map side → v ≠ [] → v ≠ u.map side → depth v ≠ d := by
  induction u generalizing d with
  | nil => exact absurd rfl hne
  | cons c u ih =>
      have hdepth (v : List Side) : depth (side c :: v) = d ↔ depth v = d + bracket c := by
        rw [Brackets.depth_cons, bracket_eq]
        omega
      have hone : depth [side c] = d ↔ d + bracket c = 0 := (hdepth []).trans eq_comm
      rw [List.cons_append, openBack, List.map_cons, hdepth]
      by_cases hzero : d + bracket c = 0
      · rw [if_pos hzero]
        cases u with
        | nil =>
            refine ⟨fun _ => ⟨hzero.symm, fun v hv hvne hvall => ?_⟩, fun _ => rfl⟩
            rcases List.prefix_cons_iff.mp hv with rfl | ⟨v', rfl, hv'⟩
            · exact absurd rfl hvne
            · exact absurd (by rw [List.prefix_nil.mp hv', List.map_nil]) hvall
        | cons c' u =>
            refine ⟨fun h => ?_, fun h => absurd (hone.mpr hzero) (h.2 [side c] ?_ (List.cons_ne_nil _ _) (by simp))⟩
            · exact absurd (List.append_left_eq_self.mp (Option.some.inj h)) (List.cons_ne_nil c' u)
            · exact (List.prefix_cons_inj _).mpr List.nil_prefix
      · rw [if_neg hzero]
        cases u with
        | nil =>
            rw [List.nil_append]
            exact ⟨fun h => absurd (length_openBack h) (Nat.lt_irrefl _), fun h => absurd h.1.symm hzero⟩
        | cons c' u =>
            rw [ih (List.cons_ne_nil c' u)]
            refine and_congr_right fun _ => ⟨fun h v hv hvne hvall => ?_, fun h v hv hvne hvall => ?_⟩
            · rcases List.prefix_cons_iff.mp hv with rfl | ⟨v', rfl, hv'⟩
              · exact absurd rfl hvne
              · rw [Ne, hdepth]
                by_cases hnil : v' = []
                · rw [hnil]
                  exact fun h0 => hzero h0.symm
                · exact h v' hv' hnil fun heq => hvall (by rw [heq])
            · rw [Ne, ← hdepth]
              exact h (side c :: v) ((List.prefix_cons_inj _).mpr hv) (List.cons_ne_nil _ _) fun heq => hvall (List.cons.inj heq).2

theorem length_quoteBack {r : Str} (h : quoteBack s = some r) : r.length < s.length := by
  induction s with
  | nil => cases h
  | cons c s ih =>
      rw [quoteBack] at h
      split_ifs at h
      · cases h
        exact Nat.lt_succ_self _
      · exact Nat.lt_succ_of_lt (ih h)

theorem quoteBack_append : quoteBack (u ++ '"' :: rest) = some rest ↔ '"' ∉ u := by
  induction u with
  | nil =>
      rw [List.nil_append, quoteBack, if_pos rfl]
      exact ⟨fun _ => List.not_mem_nil, fun _ => rfl⟩
  | cons c u ih =>
      rw [List.cons_append, quoteBack, List.mem_cons, not_or]
      by_cases hquote : c = '"'
      · rw [if_pos hquote]
        refine ⟨fun h => ?_, fun h => absurd hquote.symm h.1⟩
        have hlen := congrArg List.length (Option.some.inj h)
        rw [List.length_append, List.length_cons] at hlen
        omega
      · rw [if_neg hquote, ih]
        exact ⟨fun h => ⟨fun heq => hquote heq.symm, h⟩, And.right⟩

theorem wordChar_false (h : blank c = true ∨ (closers c).isSome ∨ c = '"') : wordChar c = false := by
  rcases h with h | h | rfl
  · simp only [blank, List.contains_iff_mem, List.mem_cons, List.not_mem_nil, or_false] at h
    rcases h with rfl | rfl <;> decide
  · unfold closers at h
    split at h <;> first | decide | cases h
  · decide

/-- Before a word no word ends. -/
def Apart (pre : Str) : Form → Prop
  | .word _ => ∀ c ∈ pre.getLast?, wordChar c = false
  | _ => True

theorem sexpBack_blanks (h : ∀ c ∈ blanks, blank c = true) : sexpBack (blanks.reverse ++ s) = sexpBack s := by
  unfold sexpBack
  rw [List.dropWhile_append_of_pos fun c hc => h c (List.mem_reverse.mp hc)]

theorem sexpBack_cons (h : blank c = false) : sexpBack (c :: s) = if (closers c).isSome then openBack 0 (c :: s)
    else if c = '"' then if s = [] then some [] else quoteBack s else some (s.dropWhile wordChar) := by
  unfold sexpBack
  rw [List.dropWhile_cons, if_neg (by rw [h]; exact Bool.false_ne_true)]

theorem sexpBack_word (w : Word) (h : Apart pre (.word w)) : sexpBack (pre ++ w.chars).reverse = some pre.reverse := by
  obtain ⟨init, c, hw⟩ := (List.eq_nil_or_concat' w.chars).resolve_left w.ne_nil
  have hword := w.word
  rw [hw] at hword ⊢
  have hc := hword c (List.mem_append_right _ List.mem_cons_self)
  have hnot : ¬(blank c = true ∨ (closers c).isSome ∨ c = '"') := fun h => by
    rw [wordChar_false h] at hc
    cases hc
  rw [not_or, not_or, Bool.not_eq_true] at hnot
  rw [← List.append_assoc, List.reverse_append, List.reverse_singleton, List.singleton_append, sexpBack_cons hnot.1,
    if_neg hnot.2.1, if_neg hnot.2.2, List.reverse_append,
    List.dropWhile_append_of_pos fun c hc => hword c (List.mem_append_left _ (List.mem_reverse.mp hc))]
  -- before the word
  refine congrArg some ?_
  cases hpre : pre.reverse with
  | nil => rfl
  | cons c' s =>
      have hlast : pre.getLast? = some c' := by
        rw [← List.head?_reverse, hpre]
        rfl
      rw [List.dropWhile_cons, h c' (by rw [hlast]; rfl)]
      rfl

theorem sexpBack_form (h : Apart pre f) : sexpBack (pre ++ f.print).reverse = some pre.reverse ↔ f.ReadsBack := by
  cases f with
  | word w =>
      rw [Form.print, sexpBack_word w h]
      exact ⟨fun _ => trivial, fun _ => rfl⟩
  | string body =>
      have hrev : (pre ++ (Form.string body).print).reverse =
          '"' :: ((printBody body).reverse ++ '"' :: pre.reverse) := by
        rw [Form.print, List.reverse_append, List.reverse_cons, List.reverse_append, List.append_assoc]
        rfl
      rw [hrev, sexpBack_cons rfl, if_neg (by decide), if_pos rfl,
        if_neg (List.append_ne_nil_of_right_ne_nil _ (List.cons_ne_nil _ _)), quoteBack_append, List.mem_reverse]
      rfl
  | coll k fs =>
      have hrev : (pre ++ (Form.coll k fs).print).reverse =
          k.closer :: (fs.print.reverse ++ k.opener :: pre.reverse) := by
        rw [Form.print, List.reverse_append, List.reverse_cons, List.reverse_append, List.append_assoc]
        rfl
      have hall : k.closer :: (fs.print.reverse ++ k.opener :: pre.reverse) =
          (Form.coll k fs).print.reverse ++ pre.reverse := by rw [← hrev, List.reverse_append]
      have hne : (Form.coll k fs).print.reverse ≠ [] := List.reverse_ne_nil_iff.mpr (List.cons_ne_nil _ _)
      have hclose : (closers k.closer).isSome = true ∧ blank k.closer = false := by cases k <;> decide
      rw [hrev, sexpBack_cons hclose.2, if_pos hclose.1, hall, openBack_append hne, List.map_reverse]
      exact Brackets.enclosed_reverse

/-! ### Quiet forms -/

theorem side_of_word (h : wordChar c = true) : side c = .other := by
  unfold side
  split_ifs with hclose hopen
  · rw [wordChar_false (.inr (.inl hclose))] at h
    cases h
  · simp only [List.contains_iff_mem, List.mem_cons, List.not_mem_nil, or_false] at hopen
    rcases hopen with rfl | rfl | rfl <;> cases h
  · rfl

theorem side_of_blank (h : blank c = true) : side c = .other := by
  simp only [blank, List.contains_iff_mem, List.mem_cons, List.not_mem_nil, or_false] at h
  rcases h with rfl | rfl <;> rfl

theorem balanced_of_chars (h : ∀ c ∈ s, side c = .other) : Balanced (s.map side) := by
  refine Brackets.balanced_of_other fun b hb => ?_
  obtain ⟨c, hc, rfl⟩ := List.mem_map.mp hb
  exact h c hc

theorem map_side_coll (k : Kind) (fs : Forms) :
    (Form.coll k fs).print.map side = .opens :: (fs.print.map side ++ [.closes]) := by
  rw [Form.print, List.map_cons, List.map_append]
  cases k <;> rfl

mutual

theorem Form.balanced_print : ∀ f : Form, f.Quiet → Balanced (f.print.map side)
  | .word w, _ => balanced_of_chars fun c hc => side_of_word (w.word c hc)
  | .string body, h => by
      refine balanced_of_chars fun c hc => ?_
      rw [Form.print, List.mem_cons, List.mem_append, List.mem_singleton] at hc
      rcases hc with rfl | hc | rfl
      · rfl
      · exact (h c hc).2
      · rfl
  | .coll k fs, h => by
      rw [map_side_coll]
      exact (Forms.balanced_print fs h).between

theorem Forms.balanced_print : ∀ fs : Forms, fs.Quiet → Balanced (fs.print.map side)
  | .nil, _ => balanced_of_chars nofun
  | .cons gap f fs, h => by
      rw [Forms.print, List.map_append, List.map_append]
      exact ((balanced_of_chars fun c hc => side_of_blank (gap.blank c hc)).append (Form.balanced_print f h.1)).append
        (Forms.balanced_print fs h.2)

end

/-- Forms without quotes and brackets in their strings are found. -/
theorem Form.Quiet.readsBack (h : f.Quiet) : f.ReadsBack := by
  cases f with
  | word w => trivial
  | string body => exact fun hquote => (h _ hquote).1 rfl
  | coll k fs =>
      show Enclosed _
      rw [map_side_coll]
      exact (Forms.balanced_print fs h).enclose

/-! ### `sexp-before` -/

theorem Buffer.textTo_between {b : Buffer} {p q : Pos} (hp : Valid b.lines p) (hq : Valid b.lines q) (hle : Le p q) :
    b.textTo q = b.textTo p ++ join (between b.lines p q) := by
  have hall := Lines.flat_eq_between '\n' hp hq hle
  rw [← Lines.flat_upTo_after '\n' hq] at hall
  exact List.append_cancel_right hall

theorem Editor.lastSexp_eq {ed : Editor} {b : Buffer} {r : Option Pos} {o : Option Str} (hv : Valid b.lines b.point)
    (hbuf : ed.buf = some b) (hr : b.sexpBefore = .ok r) (hfound : b.Found b.point o r) :
    ed.lastSexp = .ok (r.map fun p => join (between b.lines p b.point)) := by
  have hbuf! : ed.buf! = .ok b := by
    unfold Editor.buf!
    rw [hbuf]
  unfold Editor.lastSexp
  rw [hbuf!, ok_bind, hr, ok_bind]
  cases r with
  | none => rfl
  | some p =>
      dsimp only
      rw [Buffer.textBetween_of_le hfound.1 hv hfound.2.1]
      rfl

/-- `sexp-before` finds the form before point, and `last-sexp` gives its text, exactly when it reads back. -/
theorem sexpBefore_iff {b : Buffer} (hv : Valid b.lines b.point) (pre : Str) (f : Form) (blanks : Str)
    (hapart : Apart pre f) (hblanks : ∀ c ∈ blanks, blank c = true)
    (htext : b.textTo b.point = pre ++ f.print ++ blanks) :
    ((∃ p, b.sexpBefore = .ok (some p) ∧ Valid b.lines p ∧ b.textTo p = pre) ↔ f.ReadsBack) ∧
      ∀ ed : Editor, ed.buf = some b → (ed.lastSexp = .ok (some (f.print ++ blanks)) ↔ f.ReadsBack) := by
  have hback : b.back b.point = blanks.reverse ++ (pre ++ f.print).reverse := by
    unfold Buffer.back
    rw [htext, List.reverse_append]
  obtain ⟨r, hr, hfound⟩ := Buffer.sexpBefore_back hv
  rw [hback, sexpBack_blanks hblanks] at hfound
  have hiff := sexpBack_form hapart
  have hlast (ed : Editor) (hbuf : ed.buf = some b) := Editor.lastSexp_eq hv hbuf hr hfound
  cases r with
  | none =>
      have hno : ¬f.ReadsBack := fun h => by
        rw [hiff.mpr h] at hfound
        cases hfound
      refine ⟨⟨fun ⟨p, hp, _⟩ => ?_, fun h => absurd h hno⟩, fun ed hbuf => ⟨fun h => ?_, fun h => absurd h hno⟩⟩
      · rw [hr] at hp
        cases hp
      · rw [hlast ed hbuf] at h
        cases h
  | some p =>
      obtain ⟨hvp, hle, heq⟩ := hfound
      have hpre : b.textTo p = pre ↔ f.ReadsBack := by
        rw [← hiff, heq, Option.some_inj]
        exact List.reverse_inj.symm
      refine ⟨⟨fun ⟨p', hp', _, hpre'⟩ => ?_, fun h => ⟨p, hr, hvp, hpre.mpr h⟩⟩, fun ed hbuf => ?_⟩
      · rw [hr] at hp'
        cases hp'
        exact hpre.mp hpre'
      · have hsplit := Buffer.textTo_between hvp hv hle
        rw [htext, List.append_assoc] at hsplit
        rw [hlast ed hbuf, Option.map_some, Except.ok.injEq, Option.some_inj, ← hpre]
        refine ⟨fun h => ?_, fun h => ?_⟩
        · rw [h] at hsplit
          exact (List.append_cancel_right hsplit).symm
        · rw [h] at hsplit
          exact (List.append_cancel_left hsplit).symm

/-- A buffer of one line with point at its end. -/
def lineBuffer (s : Str) : Buffer := { newBuffer ['x'] s none with col := s.length }

def letterA : Form := .word ⟨['a'], nofun, List.all_iff_forall_prop.mp (by decide)⟩

/-- A form behind another one. -/
theorem sexpBefore_iff_word : let b := lineBuffer ['(', ')', 'a', ' ']
    ((∃ p, b.sexpBefore = .ok (some p) ∧ Valid b.lines p ∧ b.textTo p = ['(', ')']) ↔ letterA.ReadsBack) ∧
      ∀ ed : Editor, ed.buf = some b → (ed.lastSexp = .ok (some (letterA.print ++ [' '])) ↔ letterA.ReadsBack) :=
  sexpBefore_iff ⟨by decide, by decide⟩ ['(', ')'] letterA [' '] (show ∀ c ∈ some ')', wordChar c = false by rintro c ⟨⟩; rfl)
    (List.all_iff_forall_prop.mp (by decide)) (by decide)

/-- A quote, and a bracket, in a string. -/
theorem not_sexpBefore_quote :
    (lineBuffer (Form.string [.escaped '"']).print).sexpBefore = .ok (some (0, 2)) ∧
      (lineBuffer (Form.coll .list (.cons ⟨[], nofun⟩ (.string [.plain ')' (by decide)]) .nil)).print).sexpBefore =
        .ok none := by
  decide

end Beeros.Beermacs
