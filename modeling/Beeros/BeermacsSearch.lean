import Beeros.BeermacsText

/-! `search-forward` of `beermacs.buffer`: the first place at or after a position where the pattern stands. -/

namespace Beeros.Beermacs

open Beerlang
open Lines (Pos Valid Le)

/-- `beer.string/lower-case` is the lower case of each ASCII letter. -/
def LowersAscii (lowerCase : Str → Str) : Prop := ∀ s, lowerCase s = s.map Char.toLower

/-- The text `s` is the pattern; without its case when the pattern has no capitals. -/
def Same (pat s : Str) : Prop :=
  if pat.any Char.isUpper then s = pat else s.map Char.toLower = pat.map Char.toLower

/-- The pattern stands at `p`. -/
def Buffer.MatchesAt (b : Buffer) (pat : Str) (p : Pos) : Prop :=
  ∃ pre s post, b.lines[p.1]? = some (pre ++ s ++ post) ∧ pre.length = p.2 ∧ Same pat s

/-- The first position at or after `p` with `P`, if there is one. -/
def FirstAt (P : Pos → Prop) (p : Pos) : Option Pos → Prop
  | some q => P q ∧ Le p q ∧ ∀ q', P q' → Le p q' → Le q q'
  | none => ∀ q, P q → ¬ Le p q

variable {lowerCase : Str → Str} {b : Buffer} {l pat : Str} {p q : Pos}

/-! ### One line -/

theorem take_drop_eq_iff {i : Nat} : (l.drop i).take pat.length = pat ↔ pat <+: l.drop i := by
  rw [List.prefix_iff_eq_take, eq_comm]

theorem add_length_le {i : Nat} (hpat : pat ≠ []) (h : pat <+: l.drop i) : i + pat.length ≤ l.length := by
  have hlen := h.length_le
  have hpos := List.length_pos_of_ne_nil hpat
  rw [List.length_drop] at hlen
  omega

/-- `find-in-line`. -/
theorem findInLine_cases (hpat : pat ≠ []) (start : Nat) :
    match findInLine l pat start with
    | some i => start ≤ i ∧ pat <+: l.drop i ∧ ∀ j, start ≤ j → pat <+: l.drop j → i ≤ j
    | none => ∀ j, start ≤ j → ¬ pat <+: l.drop j := by
  cases h : findInLine l pat start with
  | some i =>
      obtain ⟨hat, hmem, hfirst⟩ := List.find?_range'_eq_some.mp h
      rw [decide_eq_true_eq, take_drop_eq_iff] at hat
      refine ⟨(List.mem_range'_1.mp hmem).1, hat, fun j hj hat' => ?_⟩
      by_contra hlt
      have := hfirst j hj (Nat.lt_of_not_le hlt)
      rw [Bool.not_eq_true', decide_eq_false_iff_not, take_drop_eq_iff] at this
      exact this hat'
  | none =>
      intro j hj hat
      have hle := add_length_le hpat hat
      have := List.find?_range'_eq_none.mp h j hj (by omega)
      rw [Bool.not_eq_true', decide_eq_false_iff_not, take_drop_eq_iff] at this
      exact this hat

/-! ### The rows -/

/-- The pattern stands at `p` when each line is read through `prep`. -/
def Buffer.Hit (b : Buffer) (prep : Str → Str) (pat : Str) (p : Pos) : Prop :=
  p.1 < b.lines.length ∧ pat <+: (prep (b.lines.getD p.1 [])).drop p.2

/-- The rows from `p` on. -/
theorem searchRows_ok (prep : Str → Str) (hpat : pat ≠ []) (hb : b.lines ≠ []) {fuel : Nat}
    (hfuel : b.lines.length - p.1 < fuel) :
    ∃ r, loop (fun rc : Pos => do
      if rc.1 ≤ b.lastRow then
        match findInLine (prep (← b.line rc.1)) pat rc.2 with
        | some i => pure (.inl (some (rc.1, i)))
        | none => pure (.inr (rc.1 + 1, 0))
      else pure (.inl none)) fuel p = .ok r ∧ FirstAt (b.Hit prep pat) p r := by
  have hlast : b.lastRow = b.lines.length - 1 := rfl
  have hpos := List.length_pos_of_ne_nil hb
  induction fuel generalizing p with
  | zero => exact absurd hfuel (Nat.not_lt_zero _)
  | succ fuel ih =>
      obtain ⟨r, c⟩ := p
      dsimp only at hfuel ⊢
      unfold loop
      by_cases hrow : r < b.lines.length
      · dsimp only
        rw [if_pos (by omega), Buffer.line_ok hrow, ok_bind]
        have hfind := findInLine_cases (l := prep (b.lines.getD r [])) hpat c
        cases h : findInLine (prep (b.lines.getD r [])) pat c with
        | some i =>
            rw [h] at hfind
            obtain ⟨hci, hat, hfirst⟩ := hfind
            refine ⟨some (r, i), rfl, ⟨hrow, hat⟩, .inr ⟨rfl, hci⟩, ?_⟩
            rintro ⟨r', c'⟩ hhit (hlt | ⟨heq, hle⟩)
            · exact .inl hlt
            · dsimp only at heq hle
              subst heq
              exact .inr ⟨rfl, hfirst c' hle hhit.2⟩
        | none =>
            rw [h] at hfind
            obtain ⟨res, hres, hfirst⟩ := ih (p := (r + 1, 0)) (by dsimp only; omega)
            have hnext : ∀ q, b.Hit prep pat q → Le (r, c) q → Le (r + 1, 0) q := by
              rintro ⟨r', c'⟩ hhit (hlt | ⟨heq, hle⟩)
              · unfold Le
                dsimp only at hlt ⊢
                omega
              · dsimp only at heq hle
                subst heq
                exact absurd hhit.2 (hfind c' hle)
            refine ⟨res, hres, ?_⟩
            cases res with
            | some q =>
                refine ⟨hfirst.1, ?_, fun q' hq' hle => hfirst.2.2 q' hq' (hnext q' hq' hle)⟩
                have := hfirst.2.1
                unfold Le at this ⊢
                dsimp only at this ⊢
                omega
            | none => exact fun q hq hle => hfirst q hq (hnext q hq hle)
      · dsimp only
        rw [if_neg (by omega)]
        refine ⟨none, rfl, fun q hq hle => ?_⟩
        have := hq.1
        unfold Le at hle
        dsimp only at hle
        omega

/-! ### Case -/

theorem toLower_eq_iff (c : Char) : c = c.toLower ↔ c.isUpper = false := by
  unfold Char.isUpper Char.toLower
  split_ifs with h
  · refine ⟨fun heq => ?_, fun hlow => absurd (decide_eq_true h) (by rw [hlow]; exact Bool.false_ne_true)⟩
    have hval : c.val = c.val + ('a'.val - 'A'.val) := congrArg Char.val heq
    have hzero := UInt32.left_eq_add.mp hval
    exact absurd hzero (by decide)
  · exact ⟨fun _ => decide_eq_false h, fun _ => rfl⟩

theorem map_toLower_eq_iff : pat = pat.map Char.toLower ↔ pat.any Char.isUpper = false := by
  induction pat with
  | nil => exact ⟨fun _ => rfl, fun _ => rfl⟩
  | cons c pat ih =>
      rw [List.map_cons, List.cons.injEq, ih, toLower_eq_iff, List.any_cons, Bool.or_eq_false_iff]

/-- How a text is read when it is searched for `pat`. -/
def casing (pat : Str) : Char → Char := if pat.any Char.isUpper then id else Char.toLower

theorem map_casing (pat : Str) : pat.map (casing pat) = pat := by
  unfold casing
  split_ifs with hup
  · exact List.map_id pat
  · exact (map_toLower_eq_iff.mpr (Bool.eq_false_iff.mpr hup)).symm

theorem same_iff {s : Str} : Same pat s ↔ s.map (casing pat) = pat := by
  unfold Same
  by_cases hup : pat.any Char.isUpper
  · rw [if_pos hup, casing, if_pos hup, List.map_id]
  · rw [if_neg hup, casing, if_neg hup, ← map_toLower_eq_iff.mpr (Bool.eq_false_iff.mpr hup)]

/-- The pattern is a part of the line that is read in its case. -/
theorem hit_iff (hpat : pat ≠ []) : b.Hit (List.map (casing pat)) pat p ↔ b.MatchesAt pat p := by
  unfold Buffer.Hit Buffer.MatchesAt
  constructor
  · rintro ⟨hrow, hat⟩
    have hle := add_length_le hpat hat
    rw [List.length_map] at hle
    rw [← take_drop_eq_iff, ← List.map_drop, ← List.map_take] at hat
    refine ⟨(b.lines.getD p.1 []).take p.2, ((b.lines.getD p.1 []).drop p.2).take pat.length,
      ((b.lines.getD p.1 []).drop p.2).drop pat.length, ?_, List.length_take_of_le (by omega), same_iff.mpr hat⟩
    rw [List.append_assoc, List.take_append_drop, List.take_append_drop, List.getElem?_eq_getElem hrow,
      List.getD_eq_getElem _ _ hrow]
  · rintro ⟨pre, s, post, hline, hlen, hsame⟩
    obtain ⟨hrow, -⟩ := List.getElem?_eq_some_iff.mp hline
    refine ⟨hrow, ?_⟩
    rw [List.getD_eq_getElem?_getD, hline, Option.getD_some, List.map_append, List.map_append, List.append_assoc,
      List.drop_left' (by rw [List.length_map, hlen]), same_iff.mp hsame]
    exact List.prefix_append _ _

theorem searchForward_ok (hlow : LowersAscii lowerCase) (hpat : pat ≠ []) (hb : b.lines ≠ []) (p : Pos) :
    ∃ r, b.searchForward lowerCase pat p = .ok r ∧ FirstAt (b.MatchesAt pat) p r := by
  obtain ⟨r, hr, hfirst⟩ := searchRows_ok (List.map (casing pat)) hpat hb (p := p)
    (show _ < b.lines.length + 1 by omega)
  refine ⟨r, ?_, ?_⟩
  · have hfold : (if pat = lowerCase pat then lowerCase pat else pat) = pat := by
      split_ifs with h
      · exact h.symm
      · rfl
    have hread : ∀ s, (if pat = lowerCase pat then lowerCase s else s) = s.map (casing pat) := by
      intro s
      unfold casing
      rw [hlow, hlow]
      by_cases hup : pat.any Char.isUpper
      · have hne : pat ≠ pat.map Char.toLower := by
          rw [ne_eq, map_toLower_eq_iff, hup]
          exact nofun
        rw [if_neg hne, if_pos hup, List.map_id]
      · rw [if_pos (map_toLower_eq_iff.mpr (Bool.eq_false_iff.mpr hup)), if_neg hup]
    unfold Buffer.searchForward
    dsimp only
    simp only [hfold, hread]
    exact hr
  · have hext : b.Hit (List.map (casing pat)) pat = b.MatchesAt pat := by
      funext q
      exact propext (hit_iff hpat)
    rw [← hext]
    exact hfirst

/-- `search-forward` returns the first match at or after a position, and none when there is none. -/
theorem searchForward_first (hlow : LowersAscii lowerCase) (hpat : pat ≠ []) (hp : Valid b.lines p) :
    ∃ r, b.searchForward lowerCase pat p = .ok r ∧ FirstAt (b.MatchesAt pat) p r :=
  searchForward_ok hlow hpat (List.ne_nil_of_length_pos (Nat.zero_lt_of_lt hp.row)) p

theorem searchForward_first_cap : ∃ r,
    (newBuffer ['x'] "ab\nxAb".toList none).searchForward (List.map Char.toLower) ['a', 'b'] (0, 1) = .ok r ∧
      FirstAt ((newBuffer ['x'] "ab\nxAb".toList none).MatchesAt ['a', 'b']) (0, 1) r :=
  searchForward_first (fun _ => rfl) nofun ⟨by decide, by decide⟩

example : (newBuffer ['x'] "ab\nxAb".toList none).searchForward (List.map Char.toLower) ['a', 'b'] (0, 1) =
    .ok (some (1, 1)) := by decide

end Beeros.Beermacs
