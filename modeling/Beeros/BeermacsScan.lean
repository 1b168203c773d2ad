import Beeros.BeermacsRefine

/-! `sexp-before` of `beermacs.buffer` on the text before point: it goes back one character at a time, and never looks at
the text from its beginning. -/

namespace Beeros.Beermacs

open Beerlang
open Lines (Pos Valid Le upTo after)

/-! ### The text before a position -/

/-- The text before a position. -/
def Buffer.textTo (b : Buffer) (p : Pos) : Str := join (upTo b.lines p)

/-- Its characters, the nearest first. -/
def Buffer.back (b : Buffer) (p : Pos) : Str := (b.textTo p).reverse

variable {b : Buffer} {p p₀ q : Pos} {c : Char}

theorem Buffer.length_back (h : Valid b.lines p) : (b.back p).length < b.rounds := by
  have hle : b.offsetOf p ≤ b.text.length := Lines.offset_le '\n' h
  have hlen : (b.back p).length = b.offsetOf p := List.length_reverse
  unfold Buffer.rounds
  omega

theorem Buffer.back_zero : b.back (0, 0) = [] := by
  unfold Buffer.back Buffer.textTo upTo join Lines.flat
  rw [List.take_zero, List.take_zero, List.nil_append, List.intercalate_singleton]
  rfl

theorem Buffer.back_col {r i : Nat} (h : Valid b.lines (r, i + 1)) :
    ∃ a, b.charAt (r, i) = .ok a ∧ b.back (r, i + 1) = a :: b.back (r, i) := by
  have hlt : i < (b.lines.getD r []).length := h.col
  refine ⟨(b.lines.getD r [])[i], ?_, ?_⟩
  · unfold Buffer.charAt
    rw [Buffer.line_ok h.row]
    show (if i < (b.lines.getD r []).length then _ else _) = _
    rw [if_pos hlt, nth_ok ' ' hlt, List.getD_eq_getElem _ _ hlt]
  · unfold Buffer.back Buffer.textTo upTo join
    dsimp only
    rw [Lines.flat_append_singleton, Lines.flat_append_singleton, List.take_succ_eq_append_getElem hlt,
      ← List.append_assoc, List.reverse_append, List.reverse_singleton]
    rfl

theorem Buffer.back_row {r : Nat} (h : Valid b.lines (r + 1, 0)) :
    b.charAt (r, (b.lines.getD r []).length) = .ok '\n' ∧
      b.back (r + 1, 0) = '\n' :: b.back (r, (b.lines.getD r []).length) := by
  have hr : r < b.lines.length := Nat.lt_of_succ_lt h.row
  refine ⟨?_, ?_⟩
  · unfold Buffer.charAt
    rw [Buffer.line_ok hr]
    show (if (b.lines.getD r []).length < (b.lines.getD r []).length then _ else _) = _
    rw [if_neg (Nat.lt_irrefl _)]
    rfl
  · unfold Buffer.back Buffer.textTo upTo join
    dsimp only
    rw [Lines.flat_append_singleton, Lines.flat_append_singleton, List.take_zero, List.append_nil,
      List.take_succ_eq_append_getElem hr, List.flatMap_append, List.flatMap_singleton, List.take_length,
      List.getD_eq_getElem _ _ hr, ← List.append_assoc, List.reverse_append, List.reverse_singleton]
    rfl

/-- One character back. -/
theorem Buffer.back_cases (h : Valid b.lines p) : (p = (0, 0) ∧ b.back p = [] ∧ b.prevPos p = .ok p) ∨
    (p ≠ (0, 0) ∧ ∃ q c, b.prevPos p = .ok q ∧ Valid b.lines q ∧ Le q p ∧ b.charAt q = .ok c ∧
      b.back p = c :: b.back q) := by
  obtain ⟨r, i⟩ := p
  have hgoto := Buffer.goto_of_valid h
  cases i with
  | succ i =>
      obtain ⟨a, ha, hback⟩ := Buffer.back_col h
      refine .inr ⟨fun h0 => (Nat.succ_ne_zero i (congrArg Prod.snd h0)).elim, (r, i), a, ?_,
        ⟨h.row, Nat.le_of_succ_le h.col⟩, .inr ⟨rfl, Nat.le_succ i⟩, ha, hback⟩
      unfold Buffer.prevPos
      rw [hgoto]
      rfl
  | zero =>
      cases r with
      | zero =>
          refine .inl ⟨rfl, Buffer.back_zero, ?_⟩
          unfold Buffer.prevPos
          rw [hgoto]
          rfl
      | succ r =>
          have hr : r < b.lines.length := Nat.lt_of_succ_lt h.row
          obtain ⟨ha, hback⟩ := Buffer.back_row h
          refine .inr ⟨fun h0 => (Nat.succ_ne_zero r (congrArg Prod.fst h0)).elim, (r, (b.lines.getD r []).length), '\n',
            ?_, ⟨hr, Nat.le_refl _⟩, .inl (Nat.lt_succ_self r), ha, hback⟩
          unfold Buffer.prevPos
          rw [hgoto, ok_bind]
          show ((b.line r >>= _) >>= _) = _
          rw [Buffer.line_ok hr]
          rfl

theorem le_trans_pos {p q r : Pos} (h : Le p q) (h' : Le q r) : Le p r := by
  unfold Le at *
  omega

/-! ### The scans on the characters before point -/

/-- One for a bracket that closes, minus one for one that opens. -/
def bracket (c : Char) : Int :=
  if (closers c).isSome then 1 else if ['(', '[', '\x7b'].contains c then -1 else 0

def openBack : Int → Str → Option Str
  | _, [] => none
  | d, c :: s => if d + bracket c = 0 then some s else openBack (d + bracket c) s

def quoteBack : Str → Option Str
  | [] => none
  | c :: s => if c = '"' then some s else quoteBack s

def blank (c : Char) : Bool := [' ', '\n'].contains c

/-- What is before the form that `sexp-before` finds. -/
def sexpBack (s : Str) : Option Str :=
  match s.dropWhile blank with
  | [] => none
  | c :: s =>
      if (closers c).isSome then openBack 0 (c :: s)
      else if c = '"' then if s = [] then some [] else quoteBack s
      else some (s.dropWhile wordChar)

namespace Buffer

/-- A position not behind `p` with the characters `o` before it, or none. -/
def Found (b : Buffer) (p : Pos) (o : Option Str) : Option Pos → Prop
  | some q => Valid b.lines q ∧ Le q p ∧ o = some (b.back q)
  | none => o = none

theorem Found.of_le {o : Option Str} {r : Option Pos} (h : b.Found q o r) (hle : Le q p) : b.Found p o r := by
  cases r with
  | none => exact h
  | some q' => exact ⟨h.1, le_trans_pos h.2.1 hle, h.2.2⟩

theorem openerOf_back (h : Valid b.lines q) (hc : b.charAt q = .ok c) :
    ∃ r, b.openerOf q = .ok r ∧ b.Found q (openBack 0 (c :: b.back q)) r := by
  unfold openerOf
  refine loop_ok (fun qd => Valid b.lines qd.1 ∧ Le qd.1 q ∧ ∃ c', b.charAt qd.1 = .ok c' ∧
      openBack qd.2 (c' :: b.back qd.1) = openBack 0 (c :: b.back q))
    (fun qd => (b.back qd.1).length) _ ?_ ⟨h, .inr ⟨rfl, Nat.le_refl _⟩, c, hc, rfl⟩ (length_back h)
  rintro ⟨q₁, d⟩ ⟨hv, hle, c', hc', heq⟩
  dsimp only at hv hle hc' heq ⊢
  rw [hc', ok_bind]
  have hdepth : (if (closers c').isSome then d + 1 else if ['(', '[', '\x7b'].contains c' then d - 1 else d) =
      d + bracket c' := by
    unfold bracket
    split_ifs <;> omega
  rw [hdepth]
  rw [openBack] at heq
  by_cases hzero : d + bracket c' = 0
  · rw [if_pos hzero] at heq ⊢
    exact .inl ⟨some q₁, rfl, hv, hle, heq.symm⟩
  · rw [if_neg hzero] at heq ⊢
    rcases back_cases hv with ⟨h0, hback, -⟩ | ⟨h0, q₂, c₂, hprev, hv₂, hle₂, hc₂, hback⟩
    · rw [if_pos h0]
      rw [hback] at heq
      exact .inl ⟨none, rfl, heq.symm⟩
    · rw [if_neg h0, hprev]
      rw [hback] at heq
      refine .inr ⟨(q₂, d + bracket c'), rfl, ⟨hv₂, le_trans_pos hle₂ hle, c₂, hc₂, heq⟩, ?_⟩
      rw [hback]
      exact Nat.lt_succ_self _

theorem quoteBefore_back (h : Valid b.lines q) (hc : b.charAt q = .ok c) :
    ∃ r, b.quoteBefore q = .ok r ∧ b.Found q (quoteBack (c :: b.back q)) r := by
  unfold quoteBefore
  refine loop_ok (fun q₁ => Valid b.lines q₁ ∧ Le q₁ q ∧ ∃ c', b.charAt q₁ = .ok c' ∧
      quoteBack (c' :: b.back q₁) = quoteBack (c :: b.back q))
    (fun q₁ => (b.back q₁).length) _ ?_ ⟨h, .inr ⟨rfl, Nat.le_refl _⟩, c, hc, rfl⟩ (length_back h)
  rintro q₁ ⟨hv, hle, c', hc', heq⟩
  rw [hc', ok_bind]
  rw [quoteBack] at heq
  by_cases hquote : c' = '"'
  · rw [if_pos hquote] at heq ⊢
    exact .inl ⟨some q₁, rfl, hv, hle, heq.symm⟩
  · rw [if_neg hquote] at heq ⊢
    rcases back_cases hv with ⟨h0, hback, -⟩ | ⟨h0, q₂, c₂, hprev, hv₂, hle₂, hc₂, hback⟩
    · rw [if_pos h0]
      rw [hback] at heq
      exact .inl ⟨none, rfl, heq.symm⟩
    · rw [if_neg h0, hprev]
      rw [hback] at heq
      refine .inr ⟨q₂, rfl, ⟨hv₂, le_trans_pos hle₂ hle, c₂, hc₂, heq⟩, ?_⟩
      rw [hback]
      exact Nat.lt_succ_self _

theorem wordStart_back (h : Valid b.lines q) :
    ∃ r, b.wordStart q = .ok r ∧ b.Found q (some ((b.back q).dropWhile wordChar)) r := by
  unfold wordStart
  refine loop_ok (fun q₁ => Valid b.lines q₁ ∧ Le q₁ q ∧
      (b.back q₁).dropWhile wordChar = (b.back q).dropWhile wordChar)
    (fun q₁ => (b.back q₁).length) _ ?_ ⟨h, .inr ⟨rfl, Nat.le_refl _⟩, rfl⟩ (length_back h)
  rintro q₁ ⟨hv, hle, heq⟩
  rcases back_cases hv with ⟨h0, hback, -⟩ | ⟨h0, q₂, c₂, hprev, hv₂, hle₂, hc₂, hback⟩
  · rw [if_pos h0]
    rw [hback, List.dropWhile_nil] at heq
    refine .inl ⟨some q₁, rfl, hv, hle, ?_⟩
    rw [hback, heq]
  · rw [if_neg h0, hprev, ok_bind, hc₂, ok_bind]
    rw [hback, List.dropWhile_cons] at heq
    cases hword : wordChar c₂ with
    | false =>
        rw [hword, if_neg Bool.false_ne_true] at heq
        refine .inl ⟨some q₁, rfl, hv, hle, ?_⟩
        rw [hback, heq]
    | true =>
        rw [hword, if_pos rfl] at heq
        refine .inr ⟨q₂, rfl, ⟨hv₂, le_trans_pos hle₂ hle, heq⟩, ?_⟩
        rw [hback]
        exact Nat.lt_succ_self _

theorem skipBlanks_back (h : Valid b.lines p) :
    ∃ q, b.skipBlanks p = .ok q ∧ Valid b.lines q ∧ Le q p ∧ b.back q = (b.back p).dropWhile blank := by
  unfold skipBlanks
  refine loop_ok (fun q₁ => Valid b.lines q₁ ∧ Le q₁ p ∧ (b.back q₁).dropWhile blank = (b.back p).dropWhile blank)
    (fun q₁ => (b.back q₁).length) (fun q => Valid b.lines q ∧ Le q p ∧ b.back q = (b.back p).dropWhile blank) ?_
    ⟨h, .inr ⟨rfl, Nat.le_refl _⟩, rfl⟩ (length_back h)
  rintro q₁ ⟨hv, hle, heq⟩
  rcases back_cases hv with ⟨h0, hback, -⟩ | ⟨h0, q₂, c₂, hprev, hv₂, hle₂, hc₂, hback⟩
  · rw [if_pos h0]
    rw [hback, List.dropWhile_nil] at heq
    exact .inl ⟨q₁, rfl, hv, hle, hback.trans heq⟩
  · rw [if_neg h0, hprev, ok_bind, hc₂, ok_bind]
    rw [hback, List.dropWhile_cons] at heq
    unfold blank at heq
    cases hblank : [' ', '\n'].contains c₂ with
    | false =>
        rw [hblank, if_neg Bool.false_ne_true] at heq
        exact .inl ⟨q₁, rfl, hv, hle, hback.trans heq⟩
    | true =>
        rw [hblank, if_pos rfl] at heq
        refine .inr ⟨q₂, rfl, ⟨hv₂, le_trans_pos hle₂ hle, heq⟩, ?_⟩
        rw [hback]
        exact Nat.lt_succ_self _

theorem sexpBefore_back (h : Valid b.lines b.point) :
    ∃ r, b.sexpBefore = .ok r ∧ b.Found b.point (sexpBack (b.back b.point)) r := by
  obtain ⟨p, hp, hv, hle, hskip⟩ := skipBlanks_back h
  unfold sexpBefore sexpBack
  rw [hp, ok_bind, ← hskip]
  rcases back_cases hv with ⟨h0, hback, -⟩ | ⟨h0, q, c, hprev, hvq, hleq, hc, hback⟩
  · rw [if_pos h0, hback]
    exact ⟨none, rfl, rfl⟩
  · rw [if_neg h0, hprev, ok_bind, hc, ok_bind, hback]
    dsimp only
    have hleq' := le_trans_pos hleq hle
    split_ifs with hclose hquote hs
    · obtain ⟨r, hr, hfound⟩ := openerOf_back hvq hc
      exact ⟨r, hr, hfound.of_le hleq'⟩
    · rcases back_cases hvq with ⟨-, -, hprev'⟩ | ⟨-, q', c', -, -, -, -, hback'⟩
      · obtain ⟨r, hr, hfound⟩ := quoteBefore_back hvq hc
        rw [quoteBack, if_pos hquote, hs] at hfound
        rw [hprev', ok_bind]
        exact ⟨r, hr, hfound.of_le hleq'⟩
      · rw [hback'] at hs
        cases hs
    · rcases back_cases hvq with ⟨-, hback', -⟩ | ⟨-, q', c', hprev', hvq', hle', hc', hback'⟩
      · exact absurd hback' hs
      · obtain ⟨r, hr, hfound⟩ := quoteBefore_back hvq' hc'
        rw [hprev', ok_bind, hback']
        exact ⟨r, hr, hfound.of_le (le_trans_pos hle' hleq')⟩
    · obtain ⟨r, hr, hfound⟩ := wordStart_back hvq
      exact ⟨r, hr, hfound.of_le hleq'⟩

end Buffer

end Beeros.Beermacs
