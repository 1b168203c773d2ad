import Beeros.LineeditKeys
import Mathlib.Data.List.Destutter
import Mathlib.Data.List.DropRight

/-! `read-line`, `read-form` and the history of `beer.lineedit` (`lib/lineedit.beer`), over the keystrokes that a tty
gives. `trim` of `beer.string` is a parameter. -/

namespace Beeros.Lineedit

open Beerlang Tty FormComplete

/-! ### Reading -/

/-- What `read-line` returned (`none` after `C-c`), or where it is when the keystrokes are used up. -/
inductive LineRead
  | typing (s : Editing)
  | line (text : Option Str) (ring : List Str) (rest : List Stroke)

/-- The loop of `read-line`. -/
def readLine (h : List Str) : Editing → List Stroke → Except Error LineRead
  | s, [] => pure (.typing s)
  | s, e :: es => do
      let (r, ring) ← handle h e.candidates s.ring s.st e.key
      match r with
      | .done text => pure (.line (some text) ring es)
      | .cancel => pure (.line none ring es)
      | .edit st => readLine h ⟨{ st with last := e.key.key, crow := e.crow }, ring⟩ es

def historyMax : Nat := 500

section Form

variable (trim : Str → Str)

/-- The line of the history for a text. -/
def historyLine (s : Str) : Str := trim (s.map fun c => if c = '\n' then ' ' else c)

/-- `remember!`. -/
def remember (h : List Str) (s : Str) : List Str :=
  let line := historyLine trim s
  if line ≠ [] ∧ h.getLast? ≠ some line then
    if (h ++ [line]).length > historyMax then (h ++ [line]).drop 1 else h ++ [line]
  else h

/-- `(join "\n" lines)`. -/
def joinLines (lines : List Str) : Str := ['\n'].intercalate lines

/-- What `read-form` returned, with the history, or where it is when the keystrokes are used up. -/
inductive FormRead
  | typing (lines : List Str) (s : Editing)
  | form (text : Str) (h ring : List Str) (rest : List Stroke)

/-- The loop of `read-form`. -/
def readFormLoop (h : List Str) : Nat → List Str → List Str → List Stroke → Except Error FormRead
  | 0, _, _, _ => .error .endless
  | fuel + 1, lines, ring, es => do
      match ← readLine h ⟨.start, ring⟩ es with
      | .typing s => pure (.typing lines s)
      | .line none ring rest => pure (.form [] h ring rest)
      | .line (some line) ring rest =>
          let lines := lines ++ [line]
          let text := joinLines lines
          if formComplete text = true ∨ trim text = [] then
            pure (.form (text ++ ['\n']) (remember trim h text) ring rest)
          else readFormLoop h fuel lines ring rest

def readForm (h ring : List Str) (es : List Stroke) : Except Error FormRead :=
  readFormLoop trim h (es.length + 1) [] ring es

/-- The texts that a REPL has read, the history, and the form that is being typed. -/
structure Session where
  texts : List Str
  history : List Str
  lines : List Str
  editing : Editing

/-- A REPL calls `read-form` for every input. -/
def readForms : Nat → List Str → List Str → List Stroke → Except Error Session
  | 0, _, _, _ => .error .endless
  | fuel + 1, h, ring, es => do
      match ← readForm trim h ring es with
      | .typing lines s => pure ⟨[], h, lines, s⟩
      | .form text h ring rest => do
          let s ← readForms fuel h ring rest
          pure { s with texts := text :: s.texts }

/-! ### Every input is read -/

variable {trim} {h : List Str}

/-- `read-line` does not throw, and takes a keystroke for the line it returns. -/
theorem readLine_ok {es : List Stroke} (hfair : ∀ e ∈ es, e.Fair) {s : Editing} (hok : s.st.Ok h) :
    (∃ s', readLine h s es = .ok (.typing s')) ∨
      ∃ text ring rest, readLine h s es = .ok (.line text ring rest) ∧ rest <:+ es ∧ rest.length < es.length := by
  induction es generalizing s with
  | nil => exact Or.inl ⟨s, rfl⟩
  | cons e es ih =>
      rw [List.forall_mem_cons] at hfair
      have hsuffix : es <:+ e :: es := List.suffix_cons e es
      obtain ⟨⟨r, ring⟩, hr, hedit⟩ := handle_ok hok hfair.1 s.ring e.key
      rw [readLine, hr, ok_bind]
      cases r with
      | done text => exact Or.inr ⟨some text, ring, es, rfl, hsuffix, Nat.lt_succ_self _⟩
      | cancel => exact Or.inr ⟨none, ring, es, rfl, hsuffix, Nat.lt_succ_self _⟩
      | edit st =>
          have hok' := hedit st rfl
          rcases ih hfair.2 (s := ⟨{ st with last := e.key.key, crow := e.crow }, ring⟩)
              ⟨hok'.nonneg, hok'.le, hok'.hist⟩ with htyping | ⟨text, ring', rest, hline, hrest, hlen⟩
          · exact Or.inl htyping
          · exact Or.inr ⟨text, ring', rest, hline, hrest.trans hsuffix, Nat.lt_succ_of_lt hlen⟩

/-- What `read-form` returns, and the history that it leaves. -/
inductive Returned (trim : Str → Str) (h : List Str) : Str → List Str → Prop
  | cancelled : Returned trim h [] h
  | form {text : Str} (hdone : formComplete text = true ∨ trim text = []) :
      Returned trim h (text ++ ['\n']) (remember trim h text)

theorem readFormLoop_ok (trim : Str → Str) (h : List Str) {fuel : Nat} {es : List Stroke} (hfair : ∀ e ∈ es, e.Fair)
    (hfuel : es.length < fuel) (lines ring : List Str) :
    (∃ lines' s, readFormLoop trim h fuel lines ring es = .ok (.typing lines' s)) ∨
      ∃ text h' ring' rest, readFormLoop trim h fuel lines ring es = .ok (.form text h' ring' rest) ∧
        rest <:+ es ∧ rest.length < es.length ∧ Returned trim h text h' := by
  induction fuel generalizing es lines ring with
  | zero => exact absurd hfuel (Nat.not_lt_zero _)
  | succ fuel ih =>
      rw [readFormLoop]
      rcases readLine_ok hfair (s := ⟨.start, ring⟩) start_ok with ⟨s, hs⟩ | ⟨line, ring', rest, hline, hrest, hlen⟩
      · rw [hs]
        exact Or.inl ⟨lines, s, rfl⟩
      · rw [hline, ok_bind]
        cases line with
        | none => exact Or.inr ⟨[], h, ring', rest, rfl, hrest, hlen, .cancelled⟩
        | some line =>
            dsimp only
            by_cases hdone : formComplete (joinLines (lines ++ [line])) = true ∨ trim (joinLines (lines ++ [line])) = []
            · rw [if_pos hdone]
              exact Or.inr ⟨_, _, ring', rest, rfl, hrest, hlen, .form hdone⟩
            · rw [if_neg hdone]
              rcases ih (fun e he => hfair e (hrest.subset he)) (by omega) (lines ++ [line]) ring' with
                htyping | ⟨text, h', ring'', rest', hform, hrest', hlen', hret⟩
              · exact Or.inl htyping
              · exact Or.inr ⟨text, h', ring'', rest', hform, hrest'.trans hrest, hlen'.trans hlen, hret⟩

/-! ### The history -/

theorem destutter'_concat {α : Type} [DecidableEq α] (l : List α) (a b : α) :
    (l ++ [b]).destutter' (· ≠ ·) a =
      if (a :: l).getLast? = some b then l.destutter' (· ≠ ·) a else l.destutter' (· ≠ ·) a ++ [b] := by
  induction l generalizing a with
  | nil =>
      rw [List.nil_append, List.destutter'_singleton, List.destutter'_nil]
      by_cases hab : a = b
      · simp [hab]
      · simp [hab]
  | cons c l ih =>
      rw [List.cons_append, List.getLast?_cons_cons]
      by_cases hac : a ≠ c
      · rw [List.destutter'_cons_pos _ hac, List.destutter'_cons_pos _ hac, ih]
        split_ifs <;> rfl
      · rw [List.destutter'_cons_neg _ hac, List.destutter'_cons_neg _ hac, ih]
        rw [not_not] at hac
        rw [hac]

theorem getLast?_destutter' {α : Type} [DecidableEq α] (l : List α) (a : α) :
    (l.destutter' (· ≠ ·) a).getLast? = (a :: l).getLast? := by
  induction l generalizing a with
  | nil => rfl
  | cons c l ih =>
      rw [List.getLast?_cons_cons]
      by_cases hac : a ≠ c
      · rw [List.destutter'_cons_pos _ hac, ← ih c]
        cases hd : l.destutter' (· ≠ ·) c with
        | nil => exact absurd hd (List.destutter'_ne_nil l _)
        | cons d ds => exact List.getLast?_cons_cons
      · rw [List.destutter'_cons_neg _ hac, ih]
        rw [not_not] at hac
        rw [hac]

theorem getLast?_destutter {α : Type} [DecidableEq α] (l : List α) :
    (l.destutter (· ≠ ·)).getLast? = l.getLast? := by
  cases l with
  | nil => rfl
  | cons a l => exact getLast?_destutter' l a

theorem destutter_concat {α : Type} [DecidableEq α] (l : List α) (b : α) :
    (l ++ [b]).destutter (· ≠ ·) =
      if l.getLast? = some b then l.destutter (· ≠ ·) else l.destutter (· ≠ ·) ++ [b] := by
  cases l with
  | nil => rfl
  | cons a l => exact destutter'_concat l a b

theorem getLast?_rtake {α : Type} (l : List α) {n : Nat} (hn : 0 < n) : (l.rtake n).getLast? = l.getLast? := by
  rw [List.rtake_eq_reverse_take_reverse, List.getLast?_reverse, List.head?_take, if_neg hn.ne', List.head?_reverse]

/-- The lines of the submitted texts that are not blank, each run of equal ones once. -/
def remembered (trim : Str → Str) (ss : List Str) : List Str :=
  ((ss.map (historyLine trim)).filter (· ≠ [])).destutter (· ≠ ·)

theorem remembered_concat (ss : List Str) (s : Str) :
    remembered trim (ss ++ [s]) =
      if historyLine trim s ≠ [] ∧ (remembered trim ss).getLast? ≠ some (historyLine trim s) then
        remembered trim ss ++ [historyLine trim s]
      else remembered trim ss := by
  unfold remembered
  rw [List.map_append, List.filter_append, List.map_singleton, getLast?_destutter]
  by_cases hblank : historyLine trim s = []
  · simp [hblank]
  have hone : [historyLine trim s].filter (fun l => decide (l ≠ [])) = [historyLine trim s] := by simp [hblank]
  rw [hone, destutter_concat]
  by_cases hsame : ((ss.map (historyLine trim)).filter fun l => decide (l ≠ [])).getLast? = some (historyLine trim s)
  · rw [if_pos hsame, if_neg fun h => h.2 hsame]
  · rw [if_neg hsame, if_pos ⟨hblank, hsame⟩]

/-- Of a list that grows, the last `n` elements. -/
theorem rtake_concat {α : Type} (l : List α) (a : α) {n : Nat} (hn : 0 < n) :
    (l ++ [a]).rtake n = if (l.rtake n ++ [a]).length > n then (l.rtake n ++ [a]).drop 1 else l.rtake n ++ [a] := by
  have hlen : (l.rtake n).length = min n l.length := by
    rw [List.rtake, List.length_drop]
    omega
  rw [List.length_append, List.length_singleton, hlen]
  by_cases hfull : n ≤ l.length
  · rw [if_pos (by omega), List.drop_append_of_le_length (by omega)]
    unfold List.rtake
    rw [List.drop_drop, List.length_append, List.length_singleton, List.drop_append_of_le_length (by omega)]
    congr 2
    omega
  · rw [if_neg (by omega)]
    unfold List.rtake
    rw [List.length_append, List.length_singleton, Nat.sub_eq_zero_of_le (by omega), Nat.sub_eq_zero_of_le (by omega)]
    rfl

/-- The history is the last 500 of the lines submitted. -/
theorem foldl_remember (ss : List Str) : ss.foldl (remember trim) [] = (remembered trim ss).rtake historyMax := by
  have hmax : 0 < historyMax := by decide
  induction ss using List.reverseRecOn with
  | nil => exact (List.rtake_nil _).symm
  | append_singleton ss s ih =>
      rw [List.foldl_append, List.foldl_cons, List.foldl_nil, ih, remembered_concat]
      unfold remember
      dsimp only
      rw [getLast?_rtake _ hmax]
      split_ifs with hnew hfull
      · rw [rtake_concat _ _ hmax, if_pos hfull]
      · rw [rtake_concat _ _ hmax, if_neg hfull]
      · rfl

theorem readForms_ok {fuel : Nat} {es : List Stroke} (hfair : ∀ e ∈ es, e.Fair) (hfuel : es.length < fuel)
    (h ring : List Str) (htrim : trim [] = []) :
    ∃ s, readForms trim fuel h ring es = .ok s ∧ s.history = (s.texts.map List.dropLast).foldl (remember trim) h ∧
      ∀ text ∈ s.texts, text = [] ∨ ∃ form, text = form ++ ['\n'] ∧ (formComplete form = true ∨ trim form = []) := by
  induction fuel generalizing es h ring with
  | zero => exact absurd hfuel (Nat.not_lt_zero _)
  | succ fuel ih =>
      rw [readForms, readForm]
      rcases readFormLoop_ok trim h hfair (Nat.lt_succ_self _) [] ring with
        ⟨lines, s, hs⟩ | ⟨text, h', ring', rest, hform, hrest, hlen, hret⟩
      · rw [hs]
        exact ⟨_, rfl, rfl, List.forall_mem_nil _⟩
      · rw [hform, ok_bind]
        obtain ⟨s, hs, hhistory, htexts⟩ := ih (fun e he => hfair e (hrest.subset he)) (by omega) h' ring'
        dsimp only
        rw [hs]
        refine ⟨_, rfl, ?_, ?_⟩
        · show s.history = ((text :: s.texts).map List.dropLast).foldl (remember trim) h
          rw [hhistory, List.map_cons, List.foldl_cons]
          congr 1
          cases hret with
          | cancelled => simp [remember, historyLine, htrim]
          | form hdone => rw [List.dropLast_concat]
        · refine List.forall_mem_cons.mpr ⟨?_, htexts⟩
          cases hret with
          | cancelled => exact Or.inl rfl
          | form hdone => exact Or.inr ⟨_, rfl, hdone⟩

/-- The keystrokes of a line that is typed. -/
def keysOf (line : Str) : List Keystroke := line.map (fun c => .ofChar [c]) ++ [.ofKey .enter noMods]

/-- A keystroke at which there are no candidates. -/
def plainStroke (k : Keystroke) : Stroke := ⟨k, fun _ => [], 0⟩

theorem plainStroke_fair (k : Keystroke) : (plainStroke k).Fair := fun _ => List.forall_mem_nil _

/-- The keystrokes of two forms, the first one over two lines. -/
def twoForms : List Stroke :=
  ([["(f".toList, "1)".toList], ["x".toList]].flatMap fun lines => lines.flatMap keysOf).map plainStroke

/-- **A session.** Whatever keystrokes come, `read-form` throws at none; each text it returns is a complete or blank
form and a newline, or empty after `C-c`; and the history is the last 500 of the lines submitted that are not blank,
without repetitions next to each other. -/
theorem session_reads (trim : Str → Str) (htrim : trim [] = []) (ring : List Str) {es : List Stroke}
    (hfair : ∀ e ∈ es, e.Fair) :
    ∃ s, readForms trim (es.length + 1) [] ring es = .ok s ∧
      s.history = (remembered trim (s.texts.map List.dropLast)).rtake historyMax ∧
        ∀ text ∈ s.texts, text = [] ∨ ∃ form, text = form ++ ['\n'] ∧ (formComplete form = true ∨ trim form = []) := by
  obtain ⟨s, hs, hhistory, htexts⟩ := readForms_ok hfair (Nat.lt_succ_self _) [] ring htrim
  exact ⟨s, hs, hhistory.trans (foldl_remember _), htexts⟩

theorem session_reads_two : ∃ s, readForms id (twoForms.length + 1) [] [] twoForms = .ok s ∧
    s.history = (remembered id (s.texts.map List.dropLast)).rtake historyMax := by
  have hfair : ∀ e ∈ twoForms, e.Fair := by
    intro e he
    obtain ⟨k, -, rfl⟩ := List.mem_map.mp he
    exact plainStroke_fair k
  obtain ⟨s, hs, hhistory, -⟩ := session_reads id rfl [] hfair
  exact ⟨s, hs, hhistory⟩

/-! ### Typed forms -/

/-- The lines so far are a form. -/
def Done (trim : Str → Str) (lines : List Str) : Prop :=
  formComplete (joinLines lines) = true ∨ trim (joinLines lines) = []

/-- The form is complete with its last line and no earlier. -/
structure Submits (trim : Str → Str) (lines : List Str) : Prop where
  nonempty : lines ≠ []
  done : Done trim lines
  pending : ∀ i, 0 < i → i < lines.length → ¬Done trim (lines.take i)

theorem readLine_append {es rest : List Stroke} {s s' : Editing}
    (h' : Interleave.runEvents (Editing.step h) s es = some s') : readLine h s (es ++ rest) = readLine h s' rest := by
  induction es generalizing s with
  | nil =>
      cases h'
      rfl
  | cons e es ih =>
      obtain ⟨s₁, hstep, hrest⟩ := Option.bind_eq_some_iff.mp h'
      rw [List.cons_append, readLine]
      unfold Editing.step at hstep
      cases hr : handle h e.candidates s.ring s.st e.key with
      | error err =>
          rw [hr] at hstep
          cases hstep
      | ok r =>
          obtain ⟨r, ring⟩ := r
          rw [hr] at hstep
          cases r with
          | edit st =>
              cases hstep
              exact ih hrest
          | done text => cases hstep
          | cancel => cases hstep

theorem readLine_typed {line : Str} {es : List Stroke} (hes : es.map Stroke.key = keysOf line) (ring : List Str)
    (rest : List Stroke) : readLine h ⟨.start, ring⟩ (es ++ rest) = .ok (.line (some line) ring rest) := by
  obtain ⟨init, last, rfl, hinit, hlast⟩ := List.map_eq_append_iff.mp hes
  obtain ⟨enter, rfl, henter⟩ := List.map_eq_singleton_iff.mp hlast
  have hchars : init.map (fun e => e.key.char) = (line.map fun c => [c]).map some := by
    show init.map (Keystroke.char ∘ Stroke.key) = _
    rw [← List.map_map, hinit, List.map_map, List.map_map]
    rfl
  obtain ⟨s, hrun, hring, hbuf, -⟩ := run_chars (h := h) hchars (s := ⟨.start, ring⟩) rfl
  rw [List.append_assoc, readLine_append hrun, List.singleton_append, readLine]
  have hcommand : command enter.key = .submit := by
    rw [henter]
    rfl
  have hline : s.st.buf.flatten = line := by
    rw [hbuf]
    show (line.map fun c => [c]).flatten = line
    rw [← List.flatMap_def, List.flatMap_singleton']
  unfold handle
  rw [hcommand, hline, hring]
  rfl

theorem readFormLoop_typed {lines : List Str} (hne : lines ≠ []) {before : List Str}
    (hpending : ∀ i, 0 < i → i < lines.length → ¬Done trim (before ++ lines.take i))
    (hdone : Done trim (before ++ lines)) {es : List Stroke} (hes : es.map Stroke.key = lines.flatMap keysOf)
    {fuel : Nat} (hfuel : lines.length ≤ fuel) (ring : List Str) (rest : List Stroke) :
    readFormLoop trim h fuel before ring (es ++ rest) =
      .ok (.form (joinLines (before ++ lines) ++ ['\n']) (remember trim h (joinLines (before ++ lines))) ring
        rest) := by
  induction lines generalizing before es fuel with
  | nil => exact absurd rfl hne
  | cons line lines ih =>
      obtain ⟨fuel, rfl⟩ : ∃ f, fuel = f + 1 := ⟨fuel - 1, by rw [List.length_cons] at hfuel; omega⟩
      rw [List.flatMap_cons] at hes
      obtain ⟨first, others, rfl, hfirst, hothers⟩ := List.map_eq_append_iff.mp hes
      rw [readFormLoop, List.append_assoc, readLine_typed hfirst, ok_bind]
      dsimp only
      by_cases hlast : lines = []
      · subst hlast
        unfold Done at hdone
        rw [if_pos hdone, List.map_eq_nil_iff.mp hothers]
        rfl
      · have hpos := List.length_pos_iff.mpr hlast
        have hfirst := hpending 1 Nat.one_pos (by rw [List.length_cons]; omega)
        rw [List.take_succ_cons, List.take_zero, Done] at hfirst
        have hlater : ∀ i, 0 < i → i < lines.length → ¬Done trim (before ++ [line] ++ lines.take i) := by
          intro i hi hlt
          have hlater := hpending (i + 1) (Nat.succ_pos i) (by rw [List.length_cons]; omega)
          rwa [List.take_succ_cons, ← List.singleton_append, ← List.append_assoc] at hlater
        have hassoc : before ++ line :: lines = before ++ [line] ++ lines := by simp
        rw [hassoc] at hdone ⊢
        rw [if_neg hfirst]
        exact ih hlast hlater hdone hothers (by rw [List.length_cons] at hfuel; omega)

theorem length_le_keysOf (lines : List Str) : lines.length ≤ (lines.flatMap keysOf).length := by
  induction lines with
  | nil => exact Nat.le_refl 0
  | cons line lines ih =>
      rw [List.flatMap_cons, List.length_append, List.length_cons]
      have hkeys : 0 < (keysOf line).length := by
        rw [keysOf, List.length_append]
        exact Nat.succ_pos _
      omega

/-- **Typed forms.** What is typed line by line is what `read-form` returns, form by form. -/
theorem typed_forms_read (trim : Str → Str) (h ring : List Str) {forms : List (List Str)}
    (hforms : ∀ lines ∈ forms, Submits trim lines) {es : List Stroke}
    (hes : es.map Stroke.key = forms.flatMap fun lines => lines.flatMap keysOf) {fuel : Nat}
    (hfuel : es.length < fuel) :
    readForms trim fuel h ring es =
      .ok ⟨forms.map fun lines => joinLines lines ++ ['\n'], (forms.map joinLines).foldl (remember trim) h, [],
        ⟨.start, ring⟩⟩ := by
  induction forms generalizing es fuel h with
  | nil =>
      obtain ⟨fuel, rfl⟩ : ∃ f, fuel = f + 1 := ⟨fuel - 1, by omega⟩
      rw [List.map_eq_nil_iff.mp hes]
      rfl
  | cons lines forms ih =>
      rw [List.forall_mem_cons] at hforms
      obtain ⟨fuel, rfl⟩ : ∃ f, fuel = f + 1 := ⟨fuel - 1, by omega⟩
      rw [List.flatMap_cons] at hes
      obtain ⟨first, others, rfl, hfirst, hothers⟩ := List.map_eq_append_iff.mp hes
      have hlen : lines.length ≤ first.length := by
        rw [← List.length_map (f := Stroke.key), hfirst]
        exact length_le_keysOf lines
      have hpos := List.length_pos_iff.mpr hforms.1.nonempty
      rw [List.length_append] at hfuel
      have hform : readForm trim h ring (first ++ others) =
          .ok (.form (joinLines lines ++ ['\n']) (remember trim h (joinLines lines)) ring others) := by
        rw [← List.nil_append lines] at hforms
        refine readFormLoop_typed hforms.1.nonempty hforms.1.pending hforms.1.done hfirst ?_ ring others
        rw [List.nil_append, List.length_append]
        omega
      rw [readForms, hform, ok_bind]
      dsimp only
      rw [ih _ hforms.2 hothers (by omega)]
      rfl

theorem typed_forms_read_two :
    ∃ s, readForms id (twoForms.length + 1) [] [] twoForms = .ok s ∧ s.texts = ["(f\n1)\n".toList, "x\n".toList] ∧
      s.history = ["(f 1)".toList, "x".toList] := by
  have hone : Submits id ["x".toList] := by
    refine ⟨List.cons_ne_nil _ _, Or.inl (by rw [formComplete_eq]; decide), fun i hi hlt => ?_⟩
    exact absurd hlt (Nat.not_lt.mpr hi)
  have htwo : Submits id ["(f".toList, "1)".toList] := by
    refine ⟨List.cons_ne_nil _ _, Or.inl (by rw [formComplete_eq]; decide), fun i hi hlt => ?_⟩
    rw [show i = 1 from Nat.le_antisymm (Nat.le_of_lt_succ hlt) hi, Done, not_or, formComplete_eq]
    exact ⟨by decide, by decide⟩
  have hforms : ∀ lines ∈ [["(f".toList, "1)".toList], ["x".toList]], Submits id lines :=
    List.forall_mem_cons.mpr ⟨htwo, List.forall_mem_singleton.mpr hone⟩
  have hkeys : twoForms.map Stroke.key =
      [["(f".toList, "1)".toList], ["x".toList]].flatMap fun lines => lines.flatMap keysOf := by
    rw [twoForms, List.map_map]
    exact List.map_id _
  exact ⟨_, typed_forms_read id [] [] hforms hkeys (Nat.lt_succ_self _), by decide, by decide⟩

end Form

/-! ### Browsing the history -/

/-- The place in the history; its length is the place of the line being typed. -/
def Line.place (h : List Str) (st : Line) : Nat :=
  match st.hist with
  | some i => i.toNat
  | none => h.length

/-- The line being typed. -/
def Line.typed (st : Line) : List Str := if st.hist = none then st.buf else st.saved

def moved (n p : Nat) : Command → Nat
  | .older => p - 1
  | .newer => min n (p + 1)
  | _ => p

def Command.IsMove : Command → Prop
  | .older | .newer => True
  | _ => False

variable {h : List Str} {st st' : Line}

/-- The line and the history's place are as they were. -/
def SamePlace (st st' : Line) : Prop := st'.hist = st.hist ∧ st'.saved = st.saved

theorem SamePlace.refl : SamePlace st st := ⟨rfl, rfl⟩

theorem samePlace_insert {cs : List Str} (h' : st.insert cs = .ok st') : SamePlace st st' := by
  obtain ⟨_, -, h'⟩ := bind_eq_ok.mp h'
  obtain ⟨_, -, h'⟩ := bind_eq_ok.mp h'
  cases h'
  exact .refl

theorem samePlace_deleteRange {i j : Int} (h' : st.deleteRange i j = .ok st') : SamePlace st st' := by
  obtain ⟨_, -, h'⟩ := bind_eq_ok.mp h'
  obtain ⟨_, -, h'⟩ := bind_eq_ok.mp h'
  cases h'
  exact .refl

theorem samePlace_kill {i j : Int} {ring : List Str} (h' : st.kill i j = .ok (st', ring)) : SamePlace st st' := by
  obtain ⟨_, -, h'⟩ := bind_eq_ok.mp h'
  obtain ⟨_, hst, h'⟩ := bind_eq_ok.mp h'
  cases h'
  exact samePlace_deleteRange hst

theorem samePlace_complete {candidates : Str → List Str} (h' : st.complete candidates = .ok st') :
    SamePlace st st' := by
  obtain ⟨start, -, h'⟩ := bind_eq_ok.mp h'
  obtain ⟨pre, -, h'⟩ := bind_eq_ok.mp h'
  dsimp only at h'
  split at h'
  · cases h'
    exact .refl
  · split_ifs at h' with hnil hone
    · cases h'
      exact .refl
    · obtain ⟨_, -, h'⟩ := bind_eq_ok.mp h'
      exact samePlace_insert h'
    · obtain ⟨_, -, h'⟩ := bind_eq_ok.mp h'
      obtain ⟨_, -, h'⟩ := bind_eq_ok.mp h'
      split_ifs at h'
      · cases h'
        exact .refl
      · exact samePlace_insert h'

theorem SamePlace.place (hsame : SamePlace st st') : st'.place h = st.place h := by
  unfold Line.place
  rw [hsame.1]

theorem SamePlace.typed (hsame : SamePlace st st') (hhist : st.hist ≠ none) : st'.typed = st.typed := by
  unfold Line.typed
  rw [hsame.1, hsame.2, if_neg hhist, if_neg hhist]

/-- Entry `j` of the history, or the line being typed. -/
def entry (h : List Str) (st : Line) (p : Nat) : List Str := (h.map chars ++ [st.typed]).getD p []

theorem entry_of_lt {p : Nat} (hp : p < h.length) : entry h st p = chars (h.getD p []) := by
  unfold entry
  rw [List.getD_append _ _ _ _ (by rwa [List.length_map])]
  show (h.map chars).getD p (chars []) = chars (h.getD p [])
  rw [List.getD_map]

theorem entry_length : entry h st h.length = st.typed := by
  unfold entry
  rw [List.getD_append_right _ _ _ _ (by rw [List.length_map]), List.length_map, Nat.sub_self]
  rfl

theorem shown_some {p : Nat} (hp : p < h.length) (h' : st.shown h (some (p : Int)) = .ok st') :
    st'.place h = p ∧ st'.hist ≠ none ∧ st'.saved = st.saved ∧ st'.buf = chars (h.getD p []) := by
  rw [Line.shown, nth_ok [] hp] at h'
  cases h'
  exact ⟨rfl, Option.some_ne_none _, rfl, rfl⟩

/-- Moving from the line being typed. -/
theorem historyMove_typed {dir : Int} {c : Command} (hdir : c = .older ∧ dir = -1 ∨ c = .newer ∧ dir = 1)
    (hhist : st.hist = none) (h' : st.historyMove h dir = .ok st') :
    st'.place h = moved h.length (st.place h) c ∧ st'.typed = st.typed ∧ st'.buf = entry h st (st'.place h) := by
  have hplace : st.place h = h.length := by rw [Line.place, hhist]
  have htyped : st.typed = st.buf := by rw [Line.typed, if_pos hhist]
  unfold Line.historyMove at h'
  simp only [hhist, ↓reduceIte, and_true] at h'
  by_cases hup : dir < 0 ∧ 0 < (h.length : Int)
  · obtain ⟨rfl, rfl⟩ := hdir.resolve_right fun h => absurd hup.1 (by omega)
    have hlast : (h.length : Int) - 1 = (h.length - 1 : Nat) := by omega
    rw [if_pos hup, if_neg (Option.some_ne_none _), hlast] at h'
    obtain ⟨hp, hsome, hsaved, hbuf⟩ := shown_some (by omega) h'
    rw [hp, hplace, entry_of_lt (by omega)]
    refine ⟨rfl, ?_, hbuf⟩
    rw [htyped, Line.typed, if_neg hsome, hsaved]
  · rw [if_neg hup, if_pos rfl] at h'
    cases h'
    have hplace' : Line.place h { st with hist := none, saved := st.buf } = h.length := rfl
    rw [hplace', hplace, entry_length]
    refine ⟨?_, ?_, htyped.symm⟩
    · rcases hdir with ⟨rfl, rfl⟩ | ⟨rfl, rfl⟩
      · show h.length = h.length - 1
        omega
      · exact (Nat.min_eq_left (Nat.le_succ _)).symm
    · rw [htyped, Line.typed, if_pos rfl]

/-- Moving from an entry. -/
theorem historyMove_entry (ok : st.Ok h) {dir : Int} {c : Command}
    (hdir : c = .older ∧ dir = -1 ∨ c = .newer ∧ dir = 1) {i : Int} (hhist : st.hist = some i)
    (h' : st.historyMove h dir = .ok st') :
    st'.place h = moved h.length (st.place h) c ∧ st'.typed = st.typed ∧ st'.buf = entry h st (st'.place h) := by
  obtain ⟨hnonneg, hlt⟩ := ok.hist i hhist
  obtain ⟨m, rfl⟩ := Int.eq_ofNat_of_zero_le hnonneg
  have hplace : st.place h = m := by
    rw [Line.place, hhist]
    rfl
  have htyped : st.typed = st.saved := by rw [Line.typed, if_neg (hhist ▸ Option.some_ne_none _)]
  unfold Line.historyMove at h'
  simp only [hhist, reduceCtorEq, ↓reduceIte, and_false] at h'
  have hentry : ∀ p : Nat, p < h.length → moved h.length m c = p → st.shown h (some (p : Int)) = .ok st' →
      st'.place h = moved h.length (st.place h) c ∧ st'.typed = st.typed ∧ st'.buf = entry h st (st'.place h) := by
    intro p hp hmoved hshown
    obtain ⟨hp', hsome, hsaved, hbuf⟩ := shown_some hp hshown
    rw [hp', hplace, hmoved, entry_of_lt hp]
    refine ⟨rfl, ?_, hbuf⟩
    rw [htyped, Line.typed, if_neg hsome, hsaved]
  rcases hdir with ⟨rfl, rfl⟩ | ⟨rfl, rfl⟩
  · rw [if_pos (by decide), show max 0 ((m : Int) - 1) = (m - 1 : Nat) by omega] at h'
    exact hentry (m - 1) (by omega) rfl h'
  · rw [if_neg (by decide)] at h'
    by_cases hnext : (m : Int) + 1 < h.length
    · rw [if_pos hnext, show (m : Int) + 1 = (m + 1 : Nat) from rfl] at h'
      exact hentry (m + 1) (by omega) (Nat.min_eq_right (by omega)) h'
    · rw [if_neg hnext] at h'
      cases h'
      have hbottom : moved h.length m .newer = h.length := Nat.min_eq_left (by omega)
      rw [hplace, hbottom, htyped]
      refine ⟨rfl, rfl, ?_⟩
      show st.saved = entry h st h.length
      rw [entry_length, htyped]

theorem historyMove_place (ok : st.Ok h) {dir : Int} {c : Command}
    (hdir : c = .older ∧ dir = -1 ∨ c = .newer ∧ dir = 1) (h' : st.historyMove h dir = .ok st') :
    st'.place h = moved h.length (st.place h) c ∧ st'.typed = st.typed ∧ st'.buf = entry h st (st'.place h) := by
  cases hhist : st.hist with
  | none => exact historyMove_typed hdir hhist h'
  | some i => exact historyMove_entry ok hdir hhist h'

theorem keep_ok {x : Except Error Line} {ring ring' : List Str}
    (h' : (do pure (Outcome.edit (← x), ring) : Except Error (Outcome × List Str)) = .ok (.edit st', ring')) :
    x = .ok st' := by
  obtain ⟨st₁, hx, h'⟩ := bind_eq_ok.mp h'
  cases h'
  exact hx

theorem killing_ok {x : Except Error (Line × List Str)} {ring' : List Str}
    (h' : (do
      let (st', ring') ← x
      pure (Outcome.edit st', ring') : Except Error (Outcome × List Str)) = .ok (.edit st', ring')) :
    x = .ok (st', ring') := by
  obtain ⟨⟨st₁, ring₁⟩, hx, h'⟩ := bind_eq_ok.mp h'
  cases h'
  exact hx

theorem samePlace_of_ok {st₁ : Line} (h' : (.ok st₁ : Except Error Line) = .ok st') (hsame : SamePlace st st₁) :
    SamePlace st st' := by
  cases h'
  exact hsame

/-- Only the two history commands go to another place. -/
theorem handle_samePlace {candidates : Str → List Str} {ring ring' : List Str} {k : Keystroke}
    (hk : ¬(command k).IsMove) (h' : handle h candidates ring st k = .ok (.edit st', ring')) : SamePlace st st' := by
  unfold handle at h'
  cases hc : command k with
  | older =>
      rw [hc] at hk
      exact absurd trivial hk
  | newer =>
      rw [hc] at hk
      exact absurd trivial hk
  | submit =>
      rw [hc] at h'
      cases h'
  | cancel =>
      rw [hc] at h'
      cases h'
  | insert s =>
      rw [hc] at h'
      exact samePlace_insert (keep_ok h')
  | yank =>
      rw [hc] at h'
      exact samePlace_insert (keep_ok h')
  | complete =>
      rw [hc] at h'
      exact samePlace_complete (keep_ok h')
  | backspace =>
      rw [hc] at h'
      have hx := keep_ok h'
      split_ifs at hx
      · exact samePlace_deleteRange hx
      · exact samePlace_of_ok hx .refl
  | delete =>
      rw [hc] at h'
      have hx := keep_ok h'
      split_ifs at hx
      · exact samePlace_deleteRange hx
      · exact samePlace_of_ok hx .refl
  | wordLeft =>
      rw [hc] at h'
      obtain ⟨_, -, hx⟩ := bind_eq_ok.mp (keep_ok h')
      exact samePlace_of_ok hx ⟨rfl, rfl⟩
  | wordRight =>
      rw [hc] at h'
      obtain ⟨_, -, hx⟩ := bind_eq_ok.mp (keep_ok h')
      exact samePlace_of_ok hx ⟨rfl, rfl⟩
  | killLine =>
      rw [hc] at h'
      exact samePlace_kill (killing_ok h')
  | killStart =>
      rw [hc] at h'
      exact samePlace_kill (killing_ok h')
  | killWordLeft =>
      rw [hc] at h'
      obtain ⟨_, -, hx⟩ := bind_eq_ok.mp (killing_ok h')
      exact samePlace_kill hx
  | killWordRight =>
      rw [hc] at h'
      obtain ⟨_, -, hx⟩ := bind_eq_ok.mp (killing_ok h')
      exact samePlace_kill hx
  | left =>
      rw [hc] at h'
      exact samePlace_of_ok (keep_ok h') ⟨rfl, rfl⟩
  | right =>
      rw [hc] at h'
      exact samePlace_of_ok (keep_ok h') ⟨rfl, rfl⟩
  | lineStart =>
      rw [hc] at h'
      exact samePlace_of_ok (keep_ok h') ⟨rfl, rfl⟩
  | lineEnd =>
      rw [hc] at h'
      exact samePlace_of_ok (keep_ok h') ⟨rfl, rfl⟩
  | clear =>
      rw [hc] at h'
      exact samePlace_of_ok (keep_ok h') ⟨rfl, rfl⟩
  | ignore =>
      rw [hc] at h'
      exact samePlace_of_ok (keep_ok h') ⟨rfl, rfl⟩

theorem handle_move (ok : st.Ok h) {candidates : Str → List Str} {ring ring' : List Str} {k : Keystroke}
    (hk : (command k).IsMove) (h' : handle h candidates ring st k = .ok (.edit st', ring')) :
    st'.place h = moved h.length (st.place h) (command k) ∧ st'.typed = st.typed ∧
      st'.buf = entry h st (st'.place h) := by
  unfold handle at h'
  cases hc : command k with
  | older =>
      rw [hc] at h'
      exact historyMove_place ok (Or.inl ⟨rfl, rfl⟩) (keep_ok h')
  | newer =>
      rw [hc] at h'
      exact historyMove_place ok (Or.inr ⟨rfl, rfl⟩) (keep_ok h')
  | _ => simp [hc, Command.IsMove] at hk

theorem moved_of_not_isMove {n p : Nat} {c : Command} (hc : ¬c.IsMove) : moved n p c = p := by
  cases c with
  | older => exact absurd trivial hc
  | newer => exact absurd trivial hc
  | _ => rfl

/-- What a keystroke does while the history is browsed: an entry may be edited, the line being typed is not. -/
theorem step_browses {e : Stroke} {s s' : Editing} (ok : s.st.Ok h) (hstep : Editing.step h e s = some s')
    (hbrowse : (command e.key).IsMove ∨ s.st.hist ≠ none) :
    s'.st.place h = moved h.length (s.st.place h) (command e.key) ∧ s'.st.typed = s.st.typed ∧
      ((command e.key).IsMove → s'.st.buf = entry h s.st (s'.st.place h)) := by
  unfold Editing.step at hstep
  cases hr : handle h e.candidates s.ring s.st e.key with
  | error err =>
      rw [hr] at hstep
      cases hstep
  | ok r =>
      obtain ⟨r, ring⟩ := r
      rw [hr] at hstep
      cases r with
      | done text => cases hstep
      | cancel => cases hstep
      | edit st₁ =>
          cases hstep
          by_cases hmove : (command e.key).IsMove
          · obtain ⟨hplace, htyped, hbuf⟩ := handle_move ok hmove hr
            exact ⟨hplace, htyped, fun _ => hbuf⟩
          · have hsame := handle_samePlace hmove hr
            refine ⟨?_, ?_, fun h => absurd h hmove⟩
            · rw [moved_of_not_isMove hmove]
              exact hsame.place
            · exact hsame.typed (hbrowse.resolve_left hmove)

/-- Where the commands of some keystrokes lead. -/
def placeAfter (n p : Nat) (es : List Stroke) : Nat := (es.map fun e => command e.key).foldl (moved n) p

/-- **Browsing.** From whatever state of a line, as long as only entries of the history are edited, the history commands
walk between its entries and the line being typed: the place is the one they lead to, each of them shows what is there,
and the line being typed comes back as it was left. -/
theorem history_browsed (h ring : List Str) {es es' : List Stroke} {s s' : Editing}
    (hrun : Interleave.Run (Editing.step h) (fun e _ => e.Fair) ⟨.start, ring⟩ es s)
    (hbrowse : Interleave.Run (Editing.step h)
      (fun e s => e.Fair ∧ ((command e.key).IsMove ∨ s.st.hist ≠ none)) s es' s') :
    s'.st.place h = placeAfter h.length (s.st.place h) es' ∧ s'.st.typed = s.st.typed ∧
      (∀ es₁ e, es' = es₁ ++ [e] → (command e.key).IsMove → s'.st.buf = entry h s.st (s'.st.place h)) := by
  have ok : s.st.Ok h := hrun.keeps (I := fun s => s.st.Ok h) start_ok fun e s₁ s₂ _ hfair hstep ok =>
    step_keeps hfair hstep ok
  have hkeeps : s'.st.Ok h ∧ s'.st.place h = placeAfter h.length (s.st.place h) es' ∧ s'.st.typed = s.st.typed ∧
      (∀ es₁ e, es' = es₁ ++ [e] → (command e.key).IsMove → s'.st.buf = entry h s.st (s'.st.place h)) := by
    induction hbrowse with
    | nil =>
        refine ⟨ok, rfl, rfl, fun es₁ e hnil => ?_⟩
        exact absurd hnil.symm (List.append_ne_nil_of_right_ne_nil _ (List.cons_ne_nil _ _))
    | @snoc es e s₁ s₂ _ hok hstep ih =>
        obtain ⟨ok₁, hplace₁, htyped₁, -⟩ := ih
        obtain ⟨hplace, htyped, hbuf⟩ := step_browses ok₁ hstep hok.2
        refine ⟨step_keeps hok.1 hstep ok₁, ?_, htyped.trans htyped₁, ?_⟩
        · rw [hplace, hplace₁, placeAfter, placeAfter, List.map_append, List.foldl_append]
          rfl
        · intro es₁ e' hes hmove
          obtain ⟨-, hlast⟩ := List.append_inj' hes rfl
          cases hlast
          rw [hbuf hmove, entry, htyped₁]
          rfl
  exact hkeeps.2

/-- Up twice and down twice. -/
def upAndDown : List Stroke :=
  [.up, .up, .down, .down].map fun k => plainStroke (.ofKey k noMods)

/-- A line with `x` typed. -/
def typedX : Editing := ⟨⟨[['x']], 1, none, [], none, 0⟩, []⟩

theorem history_browsed_back :
    ∃ s, Interleave.runEvents (Editing.step [['a'], ['b']]) ⟨.start, []⟩
      (plainStroke (.ofChar ['x']) :: upAndDown) = some s ∧ s.st.buf = [['x']] := by
  have hrun : Interleave.Run (Editing.step [['a'], ['b']]) (fun e _ => e.Fair) ⟨.start, []⟩
      [plainStroke (.ofChar ['x'])] typedX :=
    (Interleave.run_of_runEvents rfl).mono fun e he _ _ => List.mem_singleton.mp he ▸ plainStroke_fair _
  have hkeys : ∀ e ∈ upAndDown, ∀ s : Editing, True → e.Fair ∧ ((command e.key).IsMove ∨ s.st.hist ≠ none) := by
    intro e he s _
    obtain ⟨k, hk, rfl⟩ := List.mem_map.mp he
    refine ⟨plainStroke_fair _, Or.inl ?_⟩
    simp only [List.mem_cons, List.not_mem_nil, or_false] at hk
    rcases hk with rfl | rfl | rfl | rfl <;> trivial
  have hmoves : Interleave.runEvents (Editing.step [['a'], ['b']]) typedX upAndDown = some _ := rfl
  obtain ⟨hplace, -, hbuf⟩ := history_browsed [['a'], ['b']] [] hrun ((Interleave.run_of_runEvents hmoves).mono hkeys)
  refine ⟨_, hmoves, ?_⟩
  rw [hbuf (upAndDown.take 3) (plainStroke (.ofKey .down noMods)) rfl trivial, hplace]
  rfl

end Beeros.Lineedit
