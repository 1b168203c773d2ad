import Beeros.Brackets
import Beeros.Lineedit

/-! What `match-before` of `beer.lineedit` finds: in one pass with a stack, the opener that encloses balanced code with
the closer it is asked for. -/

namespace Beeros.Lineedit

open Beerlang FormComplete Brackets

/-- What a character is to the matching of brackets: outside code, nothing. -/
def side (x : Mode × Char) : Side :=
  if x.1 = .code then if isOpener x.2 then .opens else if isCloser x.2 then .closes else .other else .other

/-- The brackets of the text from a place in mode `q` on. -/
def sides (q : Mode) (s : Str) : List Side := (marks q s).map side

/-- `o` is a place before `i` that holds an opener in code, and the code between them is balanced. -/
structure Encloses (buf : Str) (o i : Nat) : Prop where
  lt : o < i
  opener : (sides .code buf)[o]? = some .opens
  balanced : Balanced (((sides .code buf).take i).drop (o + 1))

/-- `o` is the last place that encloses balanced code with the closer in code at `i`, and holds the opener of its
kind. -/
structure Matching (buf : Str) (o i : Nat) : Prop where
  code : (sides .code buf)[i]? = some .closes
  encloses : Encloses buf o i
  last : ∀ o', Encloses buf o' i → o' ≤ o
  kind : buf[o]? = buf[i]?.bind closer

variable {buf cs : Str} {c : Char} {q : Mode} {i o : Nat}

/-- What the loop returns from the place `j` in mode `q` on. -/
def seek (buf : Str) (i : Nat) (opener : Char) (j : Nat) (stack : List Nat) (q : Mode) : Option Nat :=
  if j ≤ i ∧ (sides q (buf.drop j))[i - j]? = some .closes then
    (stackAfter j stack ((sides q (buf.drop j)).take (i - j))).head?.filter fun o => buf.getD o ' ' = opener
  else none

theorem sides_cons : sides q (c :: cs) = side (q, c) :: sides (q.next c) cs := rfl

/-- A line in which a comment has begun holds no brackets in code. -/
theorem sides_comment (hline : '\n' ∉ cs) {n : Nat} : (sides .comment cs)[n]? ≠ some .closes := by
  induction cs generalizing n with
  | nil => exact (Option.some_ne_none _).symm
  | cons c cs ih =>
      rw [List.mem_cons, not_or] at hline
      have hnext : Mode.comment.next c = .comment := by rw [Mode.next, if_neg (Ne.symm hline.1)]
      rw [sides_cons, hnext]
      cases n with
      | zero =>
          show some Side.other ≠ some Side.closes
          decide
      | succ n => exact ih hline.2

theorem seek_of_lt {opener : Char} {j : Nat} {stack : List Nat} (h : i < j) : seek buf i opener j stack q = none :=
  if_neg fun hj => Nat.not_le_of_gt h hj.1

/-- One character that is not the closer asked for. -/
theorem seek_next (opener : Char) (j : Nat) (stack : List Nat) (q : Mode) (hi : i < buf.length)
    (h : j = i → side (q, buf.getD j ' ') ≠ .closes) :
    seek buf i opener j stack q =
      seek buf i opener (j + 1) ((side (q, buf.getD j ' ')).push j stack) (q.next (buf.getD j ' ')) := by
  rcases Nat.lt_trichotomy j i with hlt | heq | hgt
  · have hdrop : buf.drop j = buf.getD j ' ' :: buf.drop (j + 1) := by
      rw [List.getD_eq_getElem _ _ (by omega)]
      exact List.drop_eq_getElem_cons (by omega)
    unfold seek
    rw [hdrop, sides_cons, show i - j = i - (j + 1) + 1 by omega, List.getElem?_cons_succ, List.take_succ_cons,
      stackAfter]
    simp only [Nat.le_of_lt hlt, Nat.succ_le_of_lt hlt, true_and]
  · rw [seek_of_lt (by omega : i < j + 1), seek, if_neg]
    rintro ⟨-, hcloses⟩
    subst heq
    rw [List.drop_eq_getElem_cons hi, sides_cons, Nat.sub_self, List.getElem?_cons_zero, Option.some_inj,
      ← List.getD_eq_getElem _ ' '] at hcloses
    exact h rfl hcloses
  · rw [seek_of_lt hgt, seek_of_lt (by omega)]

theorem isCloser_of_closer {opener : Char} (h : closer c = some opener) : isCloser c = true := by
  unfold closer at h
  rw [isCloser_iff]
  split_ifs at h with h₁ h₂ h₃
  · exact .inl h₁
  · exact .inr (.inl h₂)
  · exact .inr (.inr h₃)

theorem closer_none (h : closer c = none) : isCloser c = false := by
  unfold closer at h
  split_ifs at h with h₁ h₂ h₃
  rw [← Bool.not_eq_true, isCloser_iff]
  rintro (h | h | h)
  · exact h₁ h
  · exact h₂ h
  · exact h₃ h

theorem side_code : side (.code, c) = if isOpener c then .opens else if isCloser c then .closes else .other := rfl

theorem side_other (h : q ≠ .code) : side (q, c) = .other := if_neg h

/-- The loop from a place in mode `q` on. -/
theorem matchLoop_eq (hline : '\n' ∉ buf) (hi : i < buf.length) {opener : Char}
    (hkind : closer (buf.getD i ' ') = some opener) {fuel j : Nat} {stack : List Nat} (hfuel : i + 1 - j < fuel)
    (hstack : ∀ o ∈ stack, o ≤ i) :
    matchLoop buf i fuel j stack false = .ok (seek buf i opener j stack .code) ∧
      matchLoop buf i fuel j stack true = .ok (seek buf i opener j stack .string) := by
  induction fuel generalizing j stack with
  | zero => exact absurd hfuel (Nat.not_lt_zero _)
  | succ fuel ih =>
      rw [matchLoop, matchLoop]
      by_cases hj : j ≤ i
      swap
      · rw [if_neg hj, if_neg hj, seek_of_lt (by omega), seek_of_lt (by omega)]
        exact ⟨rfl, rfl⟩
      obtain ⟨hone, honeStr⟩ := ih (show i + 1 - (j + 1) < fuel by omega) hstack
      obtain ⟨htwo, htwoStr⟩ := ih (show i + 1 - (j + 2) < fuel by omega) hstack
      have hskip : ∀ q, q ≠ .code → ∀ k, seek buf i opener k stack q =
          seek buf i opener (k + 1) stack (q.next (buf.getD k ' ')) := by
        intro q hq k
        rw [seek_next opener k stack q hi fun _ => by rw [side_other hq]; decide, side_other hq]
        rfl
      have hnext := seek_next opener j stack .code hi
      rw [if_pos hj, if_pos hj, nth_ok ' ' (by omega), ok_bind, ok_bind, if_neg Bool.false_ne_true, if_pos rfl]
      constructor
      · by_cases hq : buf.getD j ' ' = '"'
        · rw [if_pos hq, honeStr, hnext fun _ => by rw [hq]; decide, hq]
          rfl
        by_cases hb : buf.getD j ' ' = '\\'
        · rw [if_neg hq, if_pos hb, htwo, hnext fun _ => by rw [hb]; decide, hb]
          show _ = Except.ok (seek buf i opener (j + 1) stack .literal)
          rw [hskip .literal (by decide)]
          rfl
        by_cases hs : buf.getD j ' ' = ';'
        · rw [if_neg hq, if_neg hb, if_pos hs, hnext fun _ => by rw [hs]; decide, hs]
          show _ = Except.ok (seek buf i opener (j + 1) stack .comment)
          rw [seek, if_neg fun h => sides_comment (fun hmem => hline (List.mem_of_mem_drop hmem)) h.2]
          rfl
        have hmode : Mode.code.next (buf.getD j ' ') = .code := by rw [Mode.next, if_neg hq, if_neg hb, if_neg hs]
        rw [if_neg hq, if_neg hb, if_neg hs]
        by_cases ho : isOpener (buf.getD j ' ') = true
        · have hside : side (.code, buf.getD j ' ') = .opens := by rw [side_code, if_pos ho]
          rw [if_pos ho, (ih (by omega) (List.forall_mem_cons.mpr ⟨hj, hstack⟩)).1,
            hnext fun _ => by rw [hside]; decide, hside, hmode]
          rfl
        rw [if_neg ho]
        cases hc : closer (buf.getD j ' ') with
        | none =>
            have hside : side (.code, buf.getD j ' ') = .other := by
              rw [side_code, if_neg ho, closer_none hc]
              rfl
            rw [hnext fun _ => by rw [hside]; decide, hside, hmode]
            exact hone
        | some opener' =>
            have hside : side (.code, buf.getD j ' ') = .closes := by
              rw [side_code, if_neg ho, isCloser_of_closer hc, if_pos rfl]
            by_cases heq : j = i
            · subst heq
              have hdrop : buf.drop j = buf.getD j ' ' :: buf.drop (j + 1) := by
                rw [List.getD_eq_getElem _ _ hi]
                exact List.drop_eq_getElem_cons hi
              dsimp only
              rw [if_pos rfl, seek, hdrop, sides_cons, hside, Nat.sub_self, if_pos ⟨Nat.le_refl j, rfl⟩]
              rw [hc, Option.some_inj] at hkind
              cases stack with
              | nil => rfl
              | cons o stack =>
                  have ho := hstack o List.mem_cons_self
                  dsimp only
                  rw [nth_ok ' ' (by omega), ok_bind, hkind]
                  show _ = Except.ok (Option.filter _ (some o))
                  rw [Option.filter_some]
                  simp only [decide_eq_true_eq]
                  split_ifs <;> rfl
            · dsimp only
              rw [if_neg heq, hnext fun h => absurd h heq, hside, hmode]
              exact (ih (by omega) fun o ho => hstack o (List.mem_of_mem_tail ho)).1
      · by_cases hb : buf.getD j ' ' = '\\'
        · rw [if_pos hb, htwoStr, hskip .string (by decide) j, hb]
          show _ = Except.ok (seek buf i opener (j + 1) stack .escape)
          rw [hskip .escape (by decide)]
          rfl
        rw [if_neg hb, hskip .string (by decide) j, Mode.next, if_neg hb]
        split_ifs
        · exact hone
        · exact honeStr

theorem encloses_iff :
    Encloses buf o i ↔ (stackAfter 0 [] ((sides .code buf).take i)).head? = some o := by
  rw [mem_head_iff, Nat.sub_zero, List.getElem?_take]
  constructor
  · intro h
    exact ⟨Nat.zero_le o, by rw [if_pos h.lt, h.opener], h.balanced⟩
  · rintro ⟨-, hopens, hbal⟩
    split_ifs at hopens with hlt
    exact ⟨hlt, hopens, hbal⟩

/-- On a line, `match-before` returns the place that matches the closer at `i`, and none when there is no such
place. -/
theorem matchBefore_iff (hline : '\n' ∉ buf) (hc : buf[i]? = some c) (hclose : isCloser c = true) :
    ∃ r, matchBefore buf i = .ok r ∧ ∀ o, r = some o ↔ Matching buf o i := by
  obtain ⟨hi, -⟩ := List.getElem?_eq_some_iff.mp hc
  cases hkind : closer c with
  | none => exact absurd hclose (by rw [closer_none hkind]; exact Bool.false_ne_true)
  | some opener =>
      have hget : buf.getD i ' ' = c := by rw [List.getD_eq_getElem?_getD, hc, Option.getD_some]
      refine ⟨_, (matchLoop_eq hline hi (hget ▸ hkind) (by omega) (List.forall_mem_nil _)).1, fun o => ?_⟩
      unfold seek
      rw [List.drop_zero, Nat.sub_zero]
      constructor
      · intro h
        split_ifs at h with hcode
        rw [Option.filter_eq_some_iff, decide_eq_true_eq] at h
        obtain ⟨hhead, hkind'⟩ := h
        have henc := encloses_iff.mpr hhead
        refine ⟨hcode.2, henc, fun o' ho' => ?_, ?_⟩
        · have := encloses_iff.mp ho'
          rw [hhead, Option.some_inj] at this
          exact Nat.le_of_eq this.symm
        · have ho : o < buf.length := henc.lt.trans hi
          rw [hc, Option.bind_some, hkind, List.getElem?_eq_getElem ho, ← List.getD_eq_getElem _ ' ' ho, hkind']
      · intro h
        rw [if_pos ⟨Nat.zero_le i, h.code⟩, Option.filter_eq_some_iff, decide_eq_true_eq]
        refine ⟨encloses_iff.mp h.encloses, ?_⟩
        have hk := h.kind
        rw [hc, Option.bind_some, hkind] at hk
        rw [List.getD_eq_getElem?_getD, hk, Option.getD_some]

theorem matchBefore_iff_string : ∃ r, matchBefore "(a \"]\" [b])".toList 10 = .ok r ∧
    ∀ o, r = some o ↔ Matching "(a \"]\" [b])".toList o 10 :=
  matchBefore_iff (by decide) rfl rfl

example : matchBefore "(a \"]\" [b])".toList 10 = .ok (some 0) := by decide

end Beeros.Lineedit
