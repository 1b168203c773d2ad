import Beeros.FormComplete

/-! How far does `is_form_complete` of `kernel/repl_uart.c` read? It is given the lines of `uart_readline`, whose last
one may fill the buffer before its newline. -/

namespace Beeros.FormComplete

/-! ### `uart_readline` -/

/-- What a round of `uart_readline` finds. -/
inductive Rx
  | interrupt
  /-- `console_getc_nonblock` has no character. -/
  | nothing
  | char (c : UInt8)

/-- The rounds of `uart_readline` with `buf` read: the bytes of the line, or none when an interrupt key dropped it. -/
def readlineLoop (max : Nat) : List Rx → List UInt8 → Except Error (Option (List UInt8))
  | [], buf => if buf.length < max - 1 then .error .endless else pure (some buf)
  | rx :: rxs, buf =>
      if buf.length < max - 1 then
        match rx with
        | .interrupt => pure none
        | .nothing => readlineLoop max rxs buf
        | .char c =>
            if c = '\r'.toUInt8 then pure (some (buf ++ ['\n'.toUInt8]))
            else if c = 127 ∨ c = 8 then readlineLoop max rxs buf.dropLast
            else if c < 0x20 then readlineLoop max rxs buf
            else readlineLoop max rxs (buf ++ [c])
      else pure (some buf)

def uartReadline (rxs : List Rx) (max : Nat) : Except Error (Option (List UInt8)) := readlineLoop max rxs []

/-- `INPUT_SIZE`. -/
def inputSize : Nat := 4096

/-! ### Where a byte stands -/

/-- `is_form_complete` knows no character literals. -/
def Mode.nextByte : Mode → UInt8 → Mode
  | code, b | literal, b =>
      if b = '"'.toUInt8 then string else if b = ';'.toUInt8 then comment else code
  | string, b => if b = '\\'.toUInt8 then escape else if b = '"'.toUInt8 then code else string
  | escape, _ => string
  | comment, b => if b = '\n'.toUInt8 then code else comment

/-- Where a byte after the text would stand. -/
def endByteMode (bs : List UInt8) : Mode := bs.foldl Mode.nextByte .code

variable {q : Mode} {depth : Int} {content : Bool} {b : UInt8} {bs : List UInt8}

/-! ### One byte -/

theorem scan_byte (hb : b ≠ 0) :
    ∃ depth' content', ∀ p, scan (b :: p) depth false content = scanAt (Mode.code.nextByte b) p depth' content' := by
  by_cases hq : b = '"'.toUInt8
  · refine ⟨depth, true, fun p => ?_⟩
    rw [scan, if_neg hb, if_neg Bool.false_ne_true, if_pos hq, Mode.nextByte, if_pos hq]
    rfl
  by_cases hs : b = ';'.toUInt8
  · refine ⟨depth, content, fun p => ?_⟩
    rw [hs, scan_semicolon]
    rfl
  have hnext : Mode.code.nextByte b = .code := by rw [Mode.nextByte, if_neg hq, if_neg hs]
  by_cases ho : b = '('.toUInt8 ∨ b = '['.toUInt8 ∨ b = '{'.toUInt8
  · refine ⟨depth + 1, true, fun p => ?_⟩
    rw [scan, if_neg hb, if_neg Bool.false_ne_true, if_neg hq, if_neg hs, if_pos ho, hnext]
    rfl
  by_cases hc : b = ')'.toUInt8 ∨ b = ']'.toUInt8 ∨ b = '}'.toUInt8
  · refine ⟨depth - 1, content, fun p => ?_⟩
    rw [scan, if_neg hb, if_neg Bool.false_ne_true, if_neg hq, if_neg hs, if_neg ho, if_pos hc, hnext]
    rfl
  · refine ⟨depth, content || decide (' '.toUInt8 < b), fun p => ?_⟩
    rw [scan, if_neg hb, if_neg Bool.false_ne_true, if_neg hq, if_neg hs, if_neg ho, if_neg hc, hnext]
    rfl

/-- One byte of the text, whatever comes after it. -/
theorem scanAt_byte (q : Mode) (depth : Int) (content : Bool) (hb : b ≠ 0) :
    ∃ depth' content', ∀ p, scanAt q (b :: p) depth content = scanAt (q.nextByte b) p depth' content' := by
  cases q with
  | code => exact scan_byte hb
  | literal => exact scan_byte hb
  | string =>
      refine ⟨depth, content, fun p => ?_⟩
      show scan (b :: p) depth true content = _
      rw [scan, if_neg hb, if_pos rfl, Mode.nextByte]
      by_cases hs : b = '\\'.toUInt8
      · rw [if_pos hs, if_neg (show b ≠ '"'.toUInt8 by rw [hs]; decide)]
        simp only [hs, true_and]
        rfl
      · rw [if_neg hs, if_neg fun h => hs h.1]
        split_ifs <;> rfl
  | escape => exact ⟨depth, content, fun p => if_pos hb⟩
  | comment =>
      refine ⟨depth, content, fun p => ?_⟩
      show afterComment (b :: p) depth content = _
      rw [Mode.nextByte]
      by_cases hn : b = '\n'.toUInt8
      · subst hn
        rw [if_pos rfl]
        show scan ('\n'.toUInt8 :: p) depth false content = scan p depth false content
        rw [scan_code (c := '\n') (by decide) (by decide)]
        show scan p (depth + 0) false (content || false) = scan p depth false content
        rw [add_zero, Bool.or_false]
      · rw [if_neg hn]
        show afterComment ([b] ++ p) depth content = afterComment p depth content
        unfold afterComment
        rw [List.dropWhile_append_of_pos]
        intro x hx
        rw [List.mem_singleton.mp hx, Bool.and_eq_true, bne_iff_ne, bne_iff_ne]
        exact ⟨hb, hn⟩

theorem scanAt_bytes (q : Mode) (depth : Int) (content : Bool) (h0 : 0 ∉ bs) :
    ∃ depth' content', ∀ p,
      scanAt q (bs ++ p) depth content = scanAt (bs.foldl Mode.nextByte q) p depth' content' := by
  induction bs generalizing q depth content with
  | nil => exact ⟨depth, content, fun _ => rfl⟩
  | cons b bs ih =>
      rw [List.mem_cons, not_or] at h0
      obtain ⟨depth₁, content₁, h₁⟩ := scanAt_byte q depth content (Ne.symm h0.1)
      obtain ⟨depth₂, content₂, h₂⟩ := ih (q.nextByte b) depth₁ content₁ h0.2
      exact ⟨depth₂, content₂, fun p => (h₁ (bs ++ p)).trans (h₂ p)⟩

/-! ### The zero byte -/

/-- Outside a comment the scan ends at the zero byte. -/
theorem scanAt_zero (hq : q ≠ .comment) (rest : List UInt8) :
    scanAt q (0 :: rest) depth content = some (content && decide (depth ≤ 0)) := by
  have hend : ∀ inString, scan (0 :: rest) depth inString content = some (content && decide (depth ≤ 0)) :=
    fun inString => by rw [scan, if_pos rfl]
  cases q with
  | code => exact hend false
  | string => exact hend true
  | escape =>
      rw [scanAt, List.headD_cons, if_neg (not_not.mpr rfl)]
      exact hend true
  | literal => exact hend false
  | comment => exact absurd rfl hq

/-- In a comment it is stepped over. -/
theorem scanAt_comment_zero (rest : List UInt8) :
    scanAt .comment (0 :: rest) depth content = scan rest depth false content := rfl

/-- The scan of a text that does not end in a comment reads up to the zero byte: its answer is the same whatever
bytes lie behind. After a text that does, it goes on with those. -/
theorem reads_text (h0 : 0 ∉ bs) :
    (endByteMode bs ≠ .comment → ∃ r, ∀ rest, scan (bs ++ 0 :: rest) 0 false false = some r) ∧
      (endByteMode bs = .comment →
        ∃ depth content, ∀ rest, scan (bs ++ 0 :: rest) 0 false false = scan rest depth false content) := by
  obtain ⟨depth, content, h⟩ := scanAt_bytes .code 0 false h0
  refine ⟨fun hq => ⟨content && decide (depth ≤ 0), fun rest => ?_⟩, fun hq => ⟨depth, content, fun rest => ?_⟩⟩
  · exact (h (0 :: rest)).trans (scanAt_zero hq rest)
  · rw [endByteMode] at hq
    rw [hq] at h
    exact h (0 :: rest)

theorem scan_ends (h0 : 0 ∉ bs) (hq : endByteMode bs ≠ .comment) : ∃ r, scan (bs ++ [0]) 0 false false = some r := by
  obtain ⟨r, hr⟩ := (reads_text h0).1 hq
  exact ⟨r, hr []⟩

theorem scan_runs_on (h0 : 0 ∉ bs) (hq : endByteMode bs = .comment) :
    ¬∃ r, scan (bs ++ [0]) 0 false false = some r := by
  rintro ⟨r, hr⟩
  obtain ⟨depth, content, h⟩ := (reads_text h0).2 hq
  rw [h [], scan] at hr
  cases hr

/-- No line has a zero byte, and a line with room in the buffer ends with its newline. -/
theorem readlineLoop_line {max : Nat} {rxs : List Rx} {buf line : List UInt8} (h0 : 0 ∉ buf)
    (h : readlineLoop max rxs buf = .ok (some line)) :
    0 ∉ line ∧ (line.length < max - 1 → ∃ pre, line = pre ++ ['\n'.toUInt8]) := by
  induction rxs generalizing buf with
  | nil =>
      rw [readlineLoop] at h
      split_ifs at h with hroom
      cases h
      exact ⟨h0, fun hlt => absurd hlt hroom⟩
  | cons rx rxs ih =>
      cases rx with
      | interrupt =>
          rw [readlineLoop] at h
          split_ifs at h with hroom
          · cases h
          · cases h
            exact ⟨h0, fun hlt => absurd hlt hroom⟩
      | nothing =>
          rw [readlineLoop] at h
          split_ifs at h with hroom
          · exact ih h0 h
          · cases h
            exact ⟨h0, fun hlt => absurd hlt hroom⟩
      | char c =>
          rw [readlineLoop] at h
          split_ifs at h with hroom hcr hdel hctl
          · cases h
            refine ⟨fun hmem => ?_, fun _ => ⟨buf, rfl⟩⟩
            rcases List.mem_append.mp hmem with hmem | hmem
            · exact h0 hmem
            · exact absurd (List.mem_singleton.mp hmem) (by decide)
          · exact ih (fun hmem => h0 ((List.dropLast_sublist _).subset hmem)) h
          · exact ih h0 h
          · refine ih (fun hmem => ?_) h
            rcases List.mem_append.mp hmem with hmem | hmem
            · exact h0 hmem
            · rw [← List.mem_singleton.mp hmem] at hctl
              exact hctl (by decide)
          · cases h
            exact ⟨h0, fun hlt => absurd hlt hroom⟩

theorem nextByte_newline : q.nextByte '\n'.toUInt8 ≠ .comment := by
  cases q <;> decide

/-- The scan stays inside every line that does not fill the buffer. -/
theorem inside_of_line {max : Nat} {rxs : List Rx} {line : List UInt8}
    (h : uartReadline rxs max = .ok (some line)) (hroom : line.length < max - 1) :
    ∃ r, scan (line ++ [0]) 0 false false = some r := by
  obtain ⟨h0, hnl⟩ := readlineLoop_line List.not_mem_nil h
  obtain ⟨pre, rfl⟩ := hnl hroom
  refine scan_ends h0 ?_
  rw [endByteMode, List.foldl_append]
  exact nextByte_newline

/-- Characters that are echoed fill the buffer. -/
theorem readlineLoop_chars {max : Nat} {cs buf : List UInt8} (hcs : ∀ c ∈ cs, 0x20 ≤ c ∧ c ≠ 127)
    (hlen : buf.length + cs.length = max - 1) : readlineLoop max (cs.map .char) buf = .ok (some (buf ++ cs)) := by
  induction cs generalizing buf with
  | nil =>
      rw [List.map_nil, readlineLoop, if_neg (by rw [List.length_nil] at hlen; omega), List.append_nil]
      rfl
  | cons c cs ih =>
      obtain ⟨hprint, hdel⟩ := hcs c List.mem_cons_self
      have hge : ∀ d : UInt8, d < 0x20 → c ≠ d := by
        rintro d hd rfl
        exact absurd hd (UInt8.not_lt.mpr hprint)
      rw [List.length_cons] at hlen
      rw [List.map_cons, readlineLoop, if_pos (by omega),
        if_neg (hge _ (by decide)), if_neg (not_or.mpr ⟨hdel, hge _ (by decide)⟩), if_neg (UInt8.not_lt.mpr hprint),
        ih (fun d hd => hcs d (List.mem_cons_of_mem c hd)) (by rw [List.length_append, List.length_singleton]; omega),
        List.append_assoc]
      rfl

theorem comment_foldl (h : '\n'.toUInt8 ∉ bs) : bs.foldl Mode.nextByte .comment = .comment := by
  induction bs with
  | nil => rfl
  | cons b bs ih =>
      rw [List.mem_cons, not_or] at h
      rw [List.foldl_cons, Mode.nextByte, if_neg (Ne.symm h.1), ih h.2]

end Beeros.FormComplete
