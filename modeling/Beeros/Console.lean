import Beeros.Ring
import Mathlib.Data.List.Forall2

/-! The receive ring of `kernel/console.c` in interrupt-driven mode. `console_rx` runs as an interrupt
between any two memory accesses of `console_getc_nonblock`; its own accesses are not interrupted. -/

namespace Beeros.Console

open Ring

/-- `RING_SIZE`. -/
def ringSize : Nat := 256
def ctrlC : UInt8 := 0x03
def ctrlBackslash : UInt8 := 0x1C

structure State where
  ring : Nat → UInt8
  ringHead : BitVec 32
  ringTail : BitVec 32
  dropBefore : BitVec 32
  drop : Bool
  reading : Bool
  ctrlCInterrupts : Bool

/-- The condition of the first branch of `console_rx`. -/
def isInterrupt (s : State) (b : UInt8) (isBreak : Bool) : Bool :=
  isBreak || b == ctrlBackslash || (b == ctrlC && s.ctrlCInterrupts && !s.reading)

def isFull (s : State) : Bool := ringSize ≤ (s.ringHead - s.ringTail).toNat

def keyRx (s : State) : State := { s with dropBefore := s.ringHead, drop := true }

def store (s : State) (b : UInt8) : State :=
  { s with
    ring := Function.update s.ring (slot ringSize s.ringHead) b
    ringHead := s.ringHead + 1 }

def consoleRx (s : State) (b : UInt8) (isBreak : Bool) : State :=
  if isInterrupt s b isBreak then keyRx s else if isFull s then s else store s b

/-- `if ((int32_t)(d - t) > 0) t = d`. -/
def skipTo (t d : BitVec 32) : BitVec 32 := if 0 < (d - t).toInt then d else t

/-- `console_getc_nonblock` without an interrupt in it. -/
def consoleGetc (s : State) : Option UInt8 × State :=
  let t := if s.drop then skipTo s.ringTail s.dropBefore else s.ringTail
  if t = s.ringHead then (none, { s with ringTail := t, drop := false })
  else (some (s.ring (slot ringSize t)), { s with ringTail := t + 1, drop := false })

/-! ### The reader in steps -/

/-- The last access that a running `console_getc_nonblock` has made, with its local `t`: it has read
`ring_tail`; found `drop` set; cleared it; has its final `t`; found the ring empty behind `t`, or not;
has read the byte at `t`. -/
inductive Phase
  | idle
  | gotTail (t : BitVec 32)
  | sawDrop (t : BitVec 32)
  | cleared (t : BitVec 32)
  | ready (t : BitVec 32)
  | empty (t : BitVec 32)
  | more (t : BitVec 32)
  | gotByte (t : BitVec 32) (c : UInt8)

/-- What is seen of a step: an interrupt key, an ordinary byte that is stored or that finds the ring
full, the begin of a call, its result. -/
inductive Event
  | key
  | stored (b : UInt8)
  | full (b : UInt8)
  | start
  | ret (c : Option UInt8)
  | internal

structure System where
  con : State
  phase : Phase

inductive Step : System → Event → System → Prop
  | key {s : System} (b : UInt8) (isBreak : Bool) : isInterrupt s.con b isBreak = true →
      Step s .key { s with con := consoleRx s.con b isBreak }
  | stored {s : System} (b : UInt8) (isBreak : Bool) : isInterrupt s.con b isBreak = false →
      isFull s.con = false → Step s (.stored b) { s with con := consoleRx s.con b isBreak }
  | full {s : System} (b : UInt8) (isBreak : Bool) : isInterrupt s.con b isBreak = false →
      isFull s.con = true → Step s (.full b) { s with con := consoleRx s.con b isBreak }
  | setReading {s : System} (r : Bool) : Step s .internal { s with con := { s.con with reading := r } }
  | setCtrlC {s : System} (r : Bool) :
      Step s .internal { s with con := { s.con with ctrlCInterrupts := r } }
  | start {s : System} : s.phase = .idle → Step s .start { s with phase := .gotTail s.con.ringTail }
  | readDrop {s : System} {t : BitVec 32} : s.phase = .gotTail t →
      Step s .internal { s with phase := if s.con.drop then .sawDrop t else .ready t }
  | clearDrop {s : System} {t : BitVec 32} : s.phase = .sawDrop t →
      Step s .internal ⟨{ s.con with drop := false }, .cleared t⟩
  | readBefore {s : System} {t : BitVec 32} : s.phase = .cleared t →
      Step s .internal { s with phase := .ready (skipTo t s.con.dropBefore) }
  | readHead {s : System} {t : BitVec 32} : s.phase = .ready t →
      Step s .internal { s with phase := if t = s.con.ringHead then .empty t else .more t }
  | retEmpty {s : System} {t : BitVec 32} : s.phase = .empty t →
      Step s (.ret none) ⟨{ s.con with ringTail := t }, .idle⟩
  | readByte {s : System} {t : BitVec 32} : s.phase = .more t →
      Step s .internal { s with phase := .gotByte t (s.con.ring (slot ringSize t)) }
  | retByte {s : System} {t : BitVec 32} {c : UInt8} : s.phase = .gotByte t c →
      Step s (.ret (some c)) ⟨{ s.con with ringTail := t + 1 }, .idle⟩

structure Booted (s : System) : Prop where
  ringHead : s.con.ringHead = 0
  ringTail : s.con.ringTail = 0
  dropBefore : s.con.dropBefore = 0
  drop : s.con.drop = false
  phase : s.phase = .idle

/-- The state after the events, oldest first. -/
inductive Runs : List Event → System → Prop
  | boot {s : System} : Booted s → Runs [] s
  | step {es : List Event} {e : Event} {s s' : System} : Runs es s → Step s e s' → Runs (es ++ [e]) s'

/-! ### What a run has seen -/

/-- The bytes stored so far, how many of them came before the last interrupt key, that number when the
last call began, and the bytes returned, each with that number for its call. -/
structure Summary where
  bytes : List UInt8
  mark : Nat
  startMark : Nat
  returned : List (Nat × UInt8)

def Summary.add (u : Summary) : Event → Summary
  | .key => { u with mark := u.bytes.length }
  | .stored b => { u with bytes := u.bytes ++ [b] }
  | .start => { u with startMark := u.mark }
  | .ret (some c) => { u with returned := u.returned ++ [(u.startMark, c)] }
  | _ => u

def summary (es : List Event) : Summary := es.foldl Summary.add ⟨[], 0, 0, []⟩

/-- How many bytes the ring holds. -/
def fill (s : State) : Nat := (s.ringHead - s.ringTail).toNat

/-- `pos` are the positions, among the bytes stored, of the bytes returned: each once and in order, each
byte the one stored there, and none from before a key that came before its call. A byte that has not
been returned is still in the ring, or a key came after it. -/
structure Fifo (es : List Event) (s : System) (pos : List Nat) : Prop where
  ordered : pos.Pairwise (· < ·)
  returned : List.Forall₂ (fun p r => (summary es).bytes[p]? = some r.2 ∧ r.1 ≤ p) pos
    (summary es).returned
  fill_le : fill s.con ≤ ringSize
  missing : ∀ p, p < (summary es).bytes.length → p ∉ pos →
    p < (summary es).mark ∨ (summary es).bytes.length ≤ p + fill s.con

/-! ### The invariant of a run -/

/-- No byte from before the last key is in front of the tail, or `drop` says that there may be. -/
def Settled (drop : Bool) (u : Summary) (tail : Nat) : Prop :=
  if drop then tail ≤ u.mark + 1 else u.mark ≤ tail

/-- `q` is where the running call reads: everything it passes over came before a key. -/
structure Chosen (drop : Bool) (u : Summary) (tail q : Nat) : Prop where
  le : tail ≤ q
  le_length : q ≤ u.bytes.length
  start_le : u.startMark ≤ q
  passed : ∀ p, tail ≤ p → p < q → p < u.mark
  settled : if drop then q ≤ u.mark else u.mark ≤ q

def PhaseOk (drop : Bool) (u : Summary) (tail : Nat) : Phase → Prop
  | .idle => Settled drop u tail
  | .gotTail t => t = BitVec.ofNat 32 tail ∧ u.startMark ≤ u.mark ∧ Settled drop u tail
  | .sawDrop t => t = BitVec.ofNat 32 tail ∧ u.startMark ≤ u.mark ∧ tail ≤ u.mark + 1
  | .cleared t => t = BitVec.ofNat 32 tail ∧ u.startMark ≤ u.mark ∧ tail ≤ u.mark + 1 ∧
      (drop = true → tail ≤ u.mark)
  | .ready t => ∃ q, t = BitVec.ofNat 32 q ∧ Chosen drop u tail q
  | .empty t => ∃ q, t = BitVec.ofNat 32 q ∧ Chosen drop u tail q
  | .more t => ∃ q, t = BitVec.ofNat 32 q ∧ Chosen drop u tail q ∧ q < u.bytes.length
  | .gotByte t c => ∃ q, t = BitVec.ofNat 32 q ∧ Chosen drop u tail q ∧ u.bytes[q]? = some c

/-- The counters stand for the numbers of bytes stored, taken out and marked; the bytes between tail and
head are in the ring; `pos` are the positions returned. -/
structure Track (s : System) (u : Summary) (tail : Nat) (pos : List Nat) : Prop where
  ringHead : s.con.ringHead = BitVec.ofNat 32 u.bytes.length
  ringTail : s.con.ringTail = BitVec.ofNat 32 tail
  dropBefore : s.con.dropBefore = BitVec.ofNat 32 u.mark
  tail_le : tail ≤ u.bytes.length
  length_le : u.bytes.length ≤ tail + ringSize
  mark_le : u.mark ≤ u.bytes.length
  holds : Holds ringSize s.con.ring tail (u.bytes.drop tail)
  ordered : pos.Pairwise (· < ·)
  lt_tail : ∀ p ∈ pos, p < tail
  returned : List.Forall₂ (fun p r => u.bytes[p]? = some r.2 ∧ r.1 ≤ p) pos u.returned
  missing : ∀ p, p < tail → p ∉ pos → p < u.mark
  phase : PhaseOk s.con.drop u tail s.phase

theorem ringSize_dvd : ringSize ∣ 2 ^ 32 := by decide

theorem summary_append (es : List Event) (e : Event) : summary (es ++ [e]) = (summary es).add e := by
  unfold summary
  rw [List.foldl_append, List.foldl_cons, List.foldl_nil]

theorem getElem?_of_append {l : List UInt8} {p : Nat} {c : UInt8} (h : l[p]? = some c) (b : UInt8) :
    (l ++ [b])[p]? = some c := by
  obtain ⟨hp, -⟩ := List.getElem?_eq_some_iff.mp h
  rw [List.getElem?_append_left hp, h]

/-! ### Keys and bytes, in any phase of the reader -/

section Interrupt

variable {drop : Bool} {u : Summary} {tail q : Nat} {ph : Phase}

theorem Chosen.key (h : Chosen drop u tail q) (hm : u.mark ≤ u.bytes.length) :
    Chosen true (u.add .key) tail q := by
  refine ⟨h.le, h.le_length, h.start_le, ?_, h.le_length⟩
  intro p hp hq
  exact (h.passed p hp hq).trans_le hm

theorem Chosen.stored (h : Chosen drop u tail q) (b : UInt8) : Chosen drop (u.add (.stored b)) tail q := by
  refine ⟨h.le, ?_, h.start_le, h.passed, h.settled⟩
  have := h.le_length
  simp only [Summary.add, List.length_append, List.length_singleton]
  omega

theorem PhaseOk.key (h : PhaseOk drop u tail ph) (hm : u.mark ≤ u.bytes.length)
    (ht : tail ≤ u.bytes.length) : PhaseOk true (u.add .key) tail ph := by
  have hsettled : Settled true (u.add .key) tail := Nat.le_succ_of_le ht
  cases ph with
  | idle => exact hsettled
  | gotTail t =>
      obtain ⟨htail, hs, -⟩ := h
      exact ⟨htail, hs.trans hm, hsettled⟩
  | sawDrop t =>
      obtain ⟨htail, hs, -⟩ := h
      exact ⟨htail, hs.trans hm, hsettled⟩
  | cleared t =>
      obtain ⟨htail, hs, -, -⟩ := h
      exact ⟨htail, hs.trans hm, hsettled, fun _ => ht⟩
  | ready t =>
      obtain ⟨q, hq, hc⟩ := h
      exact ⟨q, hq, hc.key hm⟩
  | empty t =>
      obtain ⟨q, hq, hc⟩ := h
      exact ⟨q, hq, hc.key hm⟩
  | more t =>
      obtain ⟨q, hq, hc, hlt⟩ := h
      exact ⟨q, hq, hc.key hm, hlt⟩
  | gotByte t c =>
      obtain ⟨q, hq, hc, hb⟩ := h
      exact ⟨q, hq, hc.key hm, hb⟩

theorem PhaseOk.stored (h : PhaseOk drop u tail ph) (b : UInt8) :
    PhaseOk drop (u.add (.stored b)) tail ph := by
  cases ph with
  | idle => exact h
  | gotTail t => exact h
  | sawDrop t => exact h
  | cleared t => exact h
  | ready t =>
      obtain ⟨q, hq, hc⟩ := h
      exact ⟨q, hq, hc.stored b⟩
  | empty t =>
      obtain ⟨q, hq, hc⟩ := h
      exact ⟨q, hq, hc.stored b⟩
  | more t =>
      obtain ⟨q, hq, hc, hlt⟩ := h
      refine ⟨q, hq, hc.stored b, ?_⟩
      simp only [Summary.add, List.length_append, List.length_singleton]
      omega
  | gotByte t c =>
      obtain ⟨q, hq, hc, hb⟩ := h
      exact ⟨q, hq, hc.stored b, getElem?_of_append hb b⟩

end Interrupt

section Track

variable {s : System} {u : Summary} {tail : Nat} {pos : List Nat}

theorem Track.length_lt (h : Track s u tail pos) : u.bytes.length - tail < 2 ^ 32 := by
  have := h.length_le
  unfold ringSize at this
  omega

theorem Track.fill_eq (h : Track s u tail pos) : fill s.con = u.bytes.length - tail := by
  have hsub := toNat_sub (w := 32) (a := tail) h.length_lt
  rw [Nat.add_sub_cancel' h.tail_le] at hsub
  unfold fill
  rw [h.ringHead, h.ringTail, hsub]

theorem Track.key (h : Track s u tail pos) :
    Track { s with con := keyRx s.con } (u.add .key) tail pos where
  ringHead := h.ringHead
  ringTail := h.ringTail
  dropBefore := h.ringHead
  tail_le := h.tail_le
  length_le := h.length_le
  mark_le := le_rfl
  holds := h.holds
  ordered := h.ordered
  lt_tail := h.lt_tail
  returned := h.returned
  missing p hp hnot := (h.missing p hp hnot).trans_le h.mark_le
  phase := h.phase.key h.mark_le h.tail_le

theorem Track.stored (h : Track s u tail pos) (hfull : isFull s.con = false) (b : UInt8) :
    Track { s with con := store s.con b } (u.add (.stored b)) tail pos := by
  have hroom : u.bytes.length - tail < ringSize := by
    rw [← h.fill_eq]
    exact Nat.lt_of_not_le (of_decide_eq_false hfull)
  have hlen : (u.add (.stored b)).bytes.length = u.bytes.length + 1 := List.length_append
  have htail := h.tail_le
  refine ⟨?_, h.ringTail, h.dropBefore, ?_, ?_, ?_, ?_, h.ordered, h.lt_tail, ?_, h.missing,
    h.phase.stored b⟩
  · show s.con.ringHead + 1 = _
    rw [h.ringHead, ofNat_succ, hlen]
  · rw [hlen]
    omega
  · rw [hlen]
    omega
  · rw [hlen]
    exact Nat.le_succ_of_le h.mark_le
  · -- the head's slot is the one behind the last byte held
    have hslot : slot ringSize s.con.ringHead = (tail + (u.bytes.drop tail).length) % ringSize := by
      rw [h.ringHead, slot_ofNat ringSize_dvd, List.length_drop, Nat.add_sub_cancel' htail]
    have hpush := h.holds.push (by rwa [List.length_drop]) b
    show Holds ringSize (Function.update s.con.ring (slot ringSize s.con.ringHead) b) tail
      ((u.bytes ++ [b]).drop tail)
    rw [hslot, List.drop_append_of_le_length htail]
    exact hpush
  · refine h.returned.imp ?_
    rintro p r ⟨hb, hr⟩
    exact ⟨getElem?_of_append hb b, hr⟩

/-- A change of the phase alone. -/
theorem Track.turn (h : Track s u tail pos) {ph : Phase} (hph : PhaseOk s.con.drop u tail ph) :
    Track { s with phase := ph } u tail pos :=
  { h with phase := hph }

/-- Reading `ring_tail`. -/
theorem Track.start (h : Track s u tail pos) (hph : s.phase = .idle) :
    Track { s with phase := .gotTail s.con.ringTail } (u.add .start) tail pos := by
  have hidle := h.phase
  rw [hph] at hidle
  exact { h with phase := ⟨h.ringTail, le_rfl, hidle⟩ }

theorem Track.readDrop (h : Track s u tail pos) {t : BitVec 32} (hph : s.phase = .gotTail t) :
    Track { s with phase := if s.con.drop then .sawDrop t else .ready t } u tail pos := by
  have hgot := h.phase
  rw [hph] at hgot
  obtain ⟨ht, hstart, hsettled⟩ := hgot
  apply h.turn
  unfold Settled at hsettled
  cases hd : s.con.drop with
  | true =>
      rw [hd, if_pos rfl] at hsettled
      exact ⟨ht, hstart, hsettled⟩
  | false =>
      rw [hd, if_neg Bool.false_ne_true] at hsettled
      refine ⟨tail, ht, le_rfl, h.tail_le, hstart.trans hsettled, ?_, hsettled⟩
      intro p hp hlt
      omega

theorem Track.clearDrop (h : Track s u tail pos) {t : BitVec 32} (hph : s.phase = .sawDrop t) :
    Track ⟨{ s.con with drop := false }, .cleared t⟩ u tail pos := by
  have hsaw := h.phase
  rw [hph] at hsaw
  obtain ⟨ht, hstart, hle⟩ := hsaw
  exact { h with phase := ⟨ht, hstart, hle, nofun⟩ }

/-- The comparison of the wrapping counters, for marks at most one behind the tail and at most a ring
in front of it. -/
theorem skipTo_ofNat {tail mark : Nat} (hlo : tail ≤ mark + 1) (hhi : mark ≤ tail + ringSize) :
    skipTo (BitVec.ofNat 32 tail) (BitVec.ofNat 32 mark) = BitVec.ofNat 32 (max tail mark) := by
  unfold skipTo
  unfold ringSize at hhi
  rcases Nat.lt_or_ge tail mark with hlt | hge
  · have hsub := toNat_sub (w := 32) (a := tail) (n := mark - tail) (by omega)
    rw [Nat.add_sub_cancel' hlt.le] at hsub
    rw [if_pos (by rw [BitVec.toInt_eq_toNat_of_lt (by omega)]; omega), max_eq_right hlt.le]
  · rw [max_eq_left hge]
    rcases Nat.eq_or_lt_of_le hge with rfl | hlt
    · rw [BitVec.sub_self]
      rfl
    · obtain rfl : tail = mark + 1 := by omega
      have hneg : BitVec.ofNat 32 mark - BitVec.ofNat 32 (mark + 1) = -1 := by
        rw [← ofNat_succ]
        bv_omega
      rw [hneg]
      rfl

theorem Track.readBefore (h : Track s u tail pos) {t : BitVec 32} (hph : s.phase = .cleared t) :
    Track { s with phase := .ready (skipTo t s.con.dropBefore) } u tail pos := by
  have hcl := h.phase
  rw [hph] at hcl
  obtain ⟨ht, hstart, hle, hdrop⟩ := hcl
  have hmark := h.mark_le
  have htail := h.tail_le
  have hlen := h.length_le
  apply h.turn
  refine ⟨max tail u.mark, ?_, le_max_left _ _, by omega, by omega, ?_, ?_⟩
  · rw [ht, h.dropBefore, skipTo_ofNat hle (by omega)]
  · intro p hp hlt
    omega
  · split_ifs with hd
    · have := hdrop hd
      omega
    · omega

theorem Track.readHead (h : Track s u tail pos) {t : BitVec 32} (hph : s.phase = .ready t) :
    Track { s with phase := if t = s.con.ringHead then .empty t else .more t } u tail pos := by
  have hready := h.phase
  rw [hph] at hready
  obtain ⟨q, rfl, hq⟩ := hready
  apply h.turn
  split_ifs with heq
  · exact ⟨q, rfl, hq⟩
  · refine ⟨q, rfl, hq, lt_of_le_of_ne hq.le_length ?_⟩
    rintro rfl
    exact heq h.ringHead.symm

theorem Track.retEmpty (h : Track s u tail pos) {t : BitVec 32} (hph : s.phase = .empty t) :
    ∃ tail', Track ⟨{ s.con with ringTail := t }, .idle⟩ (u.add (.ret none)) tail' pos := by
  have hempty := h.phase
  rw [hph] at hempty
  obtain ⟨q, rfl, hq⟩ := hempty
  refine ⟨q, h.ringHead, rfl, h.dropBefore, hq.le_length, ?_, h.mark_le, ?_, h.ordered, ?_, h.returned,
    ?_, ?_⟩
  · exact h.length_le.trans (Nat.add_le_add_right hq.le _)
  · exact h.holds.drop hq.le
  · intro p hp
    exact (h.lt_tail p hp).trans_le hq.le
  · intro p hp hnot
    rcases Nat.lt_or_ge p tail with hlt | hge
    · exact h.missing p hlt hnot
    · exact hq.passed p hge hp
  · have := hq.settled
    show Settled s.con.drop u q
    unfold Settled
    split_ifs at this ⊢ <;> omega

theorem Track.readByte (h : Track s u tail pos) {t : BitVec 32} (hph : s.phase = .more t) :
    Track { s with phase := .gotByte t (s.con.ring (slot ringSize t)) } u tail pos := by
  have hmore := h.phase
  rw [hph] at hmore
  obtain ⟨q, rfl, hq, hlt⟩ := hmore
  apply h.turn
  refine ⟨q, rfl, hq, ?_⟩
  have hholds := h.holds.drop hq.le
  rw [List.drop_eq_getElem_cons hlt] at hholds
  rw [slot_ofNat ringSize_dvd, List.getElem?_eq_getElem hlt, hholds.head]

theorem Track.retByte (h : Track s u tail pos) {t : BitVec 32} {c : UInt8} (hph : s.phase = .gotByte t c) :
    ∃ tail' pos', Track ⟨{ s.con with ringTail := t + 1 }, .idle⟩ (u.add (.ret (some c))) tail' pos' := by
  have hgot := h.phase
  rw [hph] at hgot
  obtain ⟨q, rfl, hq, hb⟩ := hgot
  obtain ⟨hlt, -⟩ := List.getElem?_eq_some_iff.mp hb
  refine ⟨q + 1, pos ++ [q], h.ringHead, ofNat_succ, h.dropBefore, hlt, ?_, h.mark_le, ?_, ?_, ?_, ?_,
    ?_, ?_⟩
  · have := h.length_le
    have := hq.le
    show u.bytes.length ≤ _
    omega
  · exact h.holds.drop (Nat.le_succ_of_le hq.le)
  · -- everything returned so far is in front of the tail, and the tail is not behind `q`
    rw [List.pairwise_append]
    refine ⟨h.ordered, List.pairwise_singleton _ _, ?_⟩
    intro p hp p' hp'
    rw [List.mem_singleton.mp hp']
    exact (h.lt_tail p hp).trans_le hq.le
  · intro p hp
    rcases List.mem_append.mp hp with hp | hp
    · exact (h.lt_tail p hp).trans_le (Nat.le_succ_of_le hq.le)
    · rw [List.mem_singleton.mp hp]
      exact Nat.lt_succ_self q
  · exact List.rel_append h.returned (.cons ⟨hb, hq.start_le⟩ .nil)
  · intro p hp hnot
    rw [List.mem_append, List.mem_singleton, not_or] at hnot
    rcases Nat.lt_or_ge p tail with hlt' | hge
    · exact h.missing p hlt' hnot.1
    · exact hq.passed p hge (by omega)
  · have := hq.settled
    show Settled s.con.drop u (q + 1)
    unfold Settled
    split_ifs at this ⊢ <;> omega

end Track

/-! ### Whole runs -/

theorem track_of_booted {s : System} (h : Booted s) : Track s (summary []) 0 [] where
  ringHead := h.ringHead
  ringTail := h.ringTail
  dropBefore := h.dropBefore
  tail_le := le_rfl
  length_le := Nat.zero_le _
  mark_le := le_rfl
  holds := holds_nil
  ordered := .nil
  lt_tail := nofun
  returned := .nil
  missing := nofun
  phase := by
    rw [h.phase, h.drop]
    exact le_rfl

theorem Track.step {s s' : System} {e : Event} {u : Summary} {tail : Nat} {pos : List Nat}
    (h : Track s u tail pos) (hstep : Step s e s') : ∃ tail' pos', Track s' (u.add e) tail' pos' := by
  cases hstep with
  | key b isBreak hkey =>
      unfold consoleRx
      rw [if_pos hkey]
      exact ⟨tail, pos, h.key⟩
  | stored b isBreak hkey hfull =>
      unfold consoleRx
      rw [if_neg (by rw [hkey]; decide), if_neg (by rw [hfull]; decide)]
      exact ⟨tail, pos, h.stored hfull _⟩
  | full b isBreak hkey hfull =>
      unfold consoleRx
      rw [if_neg (by rw [hkey]; decide), if_pos hfull]
      exact ⟨tail, pos, h⟩
  | setReading r => exact ⟨tail, pos, { h with }⟩
  | setCtrlC r => exact ⟨tail, pos, { h with }⟩
  | start hph => exact ⟨tail, pos, h.start hph⟩
  | readDrop hph => exact ⟨tail, pos, h.readDrop hph⟩
  | clearDrop hph => exact ⟨tail, pos, h.clearDrop hph⟩
  | readBefore hph => exact ⟨tail, pos, h.readBefore hph⟩
  | readHead hph => exact ⟨tail, pos, h.readHead hph⟩
  | retEmpty hph =>
      obtain ⟨tail', h'⟩ := h.retEmpty hph
      exact ⟨tail', pos, h'⟩
  | readByte hph => exact ⟨tail, pos, h.readByte hph⟩
  | retByte hph => exact h.retByte hph

theorem track_of_runs {es : List Event} {s : System} (h : Runs es s) :
    ∃ tail pos, Track s (summary es) tail pos := by
  induction h with
  | boot hb => exact ⟨0, [], track_of_booted hb⟩
  | step hruns hstep ih =>
      obtain ⟨tail, pos, ih⟩ := ih
      rw [summary_append]
      exact ih.step hstep

theorem fill_le_of_runs {es : List Event} {s : System} (h : Runs es s) : fill s.con ≤ ringSize := by
  obtain ⟨tail, pos, ht⟩ := track_of_runs h
  rw [ht.fill_eq]
  exact Nat.sub_le_iff_le_add'.mpr ht.length_le

/-- With interrupts between any two accesses of the reader, the bytes returned are, once each and in
order, bytes that were stored; one is missing only when the ring was full or a key came after it; and a
call returns nothing from before a key that came before the call. -/
theorem fifo_of_runs {es : List Event} {s : System} (h : Runs es s) : ∃ pos, Fifo es s pos := by
  obtain ⟨tail, pos, ht⟩ := track_of_runs h
  refine ⟨pos, ht.ordered, ht.returned, fill_le_of_runs h, ?_⟩
  intro p hp hnot
  rcases Nat.lt_or_ge p tail with hlt | hge
  · exact Or.inl (ht.missing p hlt hnot)
  · right
    rw [ht.fill_eq]
    omega

def bootSystem : System := ⟨⟨fun _ => 0, 0, 0, 0, false, false, true⟩, .idle⟩

def typedAhead : System := { bootSystem with con := consoleRx bootSystem.con 0x61 false }

theorem runs_typedAhead : Runs [.stored 0x61] typedAhead :=
  .step (.boot ⟨rfl, rfl, rfl, rfl, rfl⟩) (.stored 0x61 false (by decide) (by decide))

/-- A key between the test of `drop` and the read of the byte: the byte typed before is still returned
by the call that was already running. -/
theorem fifo_key_inside_call :
    ∃ pos, Fifo [.stored 0x61, .start, .internal, .key, .internal, .internal, .ret (some 0x61)]
      ⟨{ keyRx typedAhead.con with ringTail := 1 }, .idle⟩ pos := by
  have hready : Runs [.stored 0x61, .start, .internal] ⟨typedAhead.con, .ready 0⟩ :=
    (runs_typedAhead.step (.start rfl)).step (.readDrop rfl)
  have hkey : Runs [.stored 0x61, .start, .internal, .key] ⟨keyRx typedAhead.con, .ready 0⟩ :=
    hready.step (.key 0 true (by decide))
  have hmore : Runs [.stored 0x61, .start, .internal, .key, .internal] ⟨keyRx typedAhead.con, .more 0⟩ :=
    hkey.step (.readHead (t := 0) rfl)
  have hbyte : Runs [.stored 0x61, .start, .internal, .key, .internal, .internal]
      ⟨keyRx typedAhead.con, .gotByte 0 0x61⟩ := hmore.step (.readByte rfl)
  exact fifo_of_runs (hbyte.step (.retByte (t := 0) rfl))

/-! ### Without interrupts in the calls -/

/-- The bytes of `bs` received one after the other. -/
def receive (s : State) (bs : List UInt8) : State := bs.foldl (fun s b => consoleRx s b false) s

/-- The results of `n` calls. -/
def getcs : Nat → State → List (Option UInt8)
  | 0, _ => []
  | n + 1, s => (consoleGetc s).1 :: getcs n (consoleGetc s).2

/-- None of the bytes is an interrupt key. -/
def Ordinary (s : State) (bs : List UInt8) : Prop := ∀ b ∈ bs, isInterrupt s b false = false

/-- After any interrupt key, a whole ring of ordinary bytes is returned by as many calls. -/
def KeptAfterKey (s : State) : Prop :=
  ∀ b isBreak, isInterrupt s b isBreak = true → ∀ bs, bs.length = ringSize → Ordinary s bs →
    getcs ringSize (receive (consoleRx s b isBreak) bs) = bs.map some

/-- A call in steps, with no interrupt between them, is `consoleGetc`. -/
theorem runs_consoleGetc {es : List Event} {s : System} (h : Runs es s) (hph : s.phase = .idle) :
    ∃ es', Runs (es ++ es' ++ [.ret (consoleGetc s.con).1]) ⟨(consoleGetc s.con).2, .idle⟩ := by
  obtain ⟨con, ph⟩ := s
  obtain rfl : ph = .idle := hph
  obtain ⟨t, ht⟩ : ∃ t, (if con.drop then skipTo con.ringTail con.dropBefore else con.ringTail) = t :=
    ⟨_, rfl⟩
  have hready : ∃ es', Runs (es ++ es') ⟨{ con with drop := false }, .ready t⟩ := by
    have hgot := (h.step (.start rfl)).step (.readDrop rfl)
    cases hd : con.drop with
    | true =>
        rw [hd, if_pos rfl] at ht
        subst ht
        simp only [hd, if_true] at hgot
        have hbefore := (hgot.step (.clearDrop rfl)).step (.readBefore rfl)
        simp only [List.append_assoc] at hbefore
        exact ⟨_, hbefore⟩
    | false =>
        rw [hd, if_neg Bool.false_ne_true] at ht
        subst ht
        simp only [hd, Bool.false_eq_true, if_false, List.append_assoc] at hgot
        have hcon : { con with drop := false } = con := by rw [← hd]
        rw [hcon]
        exact ⟨_, hgot⟩
  obtain ⟨es', hready⟩ := hready
  have hhead := hready.step (.readHead rfl)
  by_cases hempty : t = con.ringHead
  · have hget : consoleGetc con = (none, { con with ringTail := t, drop := false }) := by
      unfold consoleGetc
      rw [ht, if_pos hempty]
    simp only [if_pos hempty] at hhead
    have hret := hhead.step (.retEmpty rfl)
    rw [hget]
    exact ⟨_, List.append_assoc es _ _ ▸ hret⟩
  · have hget : consoleGetc con = (some (con.ring (slot ringSize t)),
        { con with ringTail := t + 1, drop := false }) := by
      unfold consoleGetc
      rw [ht, if_neg hempty]
    simp only [if_neg hempty] at hhead
    have hret := (hhead.step (.readByte rfl)).step (.retByte rfl)
    rw [hget]
    exact ⟨es' ++ [.internal] ++ [.internal], by simpa only [List.append_assoc] using hret⟩

/-- `l` is what the next calls return, the first of it at position `a`. -/
structure Queue (s : State) (a : Nat) (l : List UInt8) : Prop where
  next : (if s.drop then skipTo s.ringTail s.dropBefore else s.ringTail) = BitVec.ofNat 32 a
  ringHead : s.ringHead = BitVec.ofNat 32 (a + l.length)
  holds : Holds ringSize s.ring a l
  length_le : l.length ≤ fill s

theorem fill_store {s : State} (h : fill s < ringSize) (b : UInt8) : fill (store s b) = fill s + 1 := by
  unfold fill at h
  unfold fill store ringSize at *
  bv_omega

theorem Queue.store {s : State} {a : Nat} {l : List UInt8} (h : Queue s a l) (hroom : fill s < ringSize)
    (b : UInt8) : Queue (store s b) a (l ++ [b]) := by
  have hlen := h.length_le
  refine ⟨h.next, ?_, ?_, ?_⟩
  · show s.ringHead + 1 = _
    rw [h.ringHead, ofNat_succ, List.length_append, List.length_singleton, Nat.add_assoc]
  · have hpush := h.holds.push (hlen.trans_lt hroom) b
    rwa [← slot_ofNat ringSize_dvd, ← h.ringHead] at hpush
  · rw [fill_store hroom, List.length_append, List.length_singleton]
    exact Nat.succ_le_succ hlen

/-- The bytes are kept as far as the ring has room, typed-ahead bytes included. -/
theorem Queue.receive {s : State} {a : Nat} {l bs : List UInt8} (h : Queue s a l)
    (hfill : fill s ≤ ringSize) (hbs : Ordinary s bs) :
    Queue (receive s bs) a (l ++ bs.take (ringSize - fill s)) := by
  induction bs generalizing s l with
  | nil =>
      rw [List.take_nil, List.append_nil]
      exact h
  | cons b bs ih =>
      have hb := hbs b List.mem_cons_self
      have hrest : Ordinary s bs := fun b' hb' => hbs b' (List.mem_cons_of_mem _ hb')
      have hcons : Console.receive s (b :: bs) = Console.receive (consoleRx s b false) bs := rfl
      rw [hcons]
      unfold consoleRx
      rw [if_neg (by rw [hb]; decide)]
      rcases Nat.eq_or_lt_of_le hfill with hfull | hroom
      · rw [if_pos (by unfold isFull; exact decide_eq_true hfull.ge)]
        have := ih h hfill hrest
        rw [hfull, Nat.sub_self, List.take_zero] at this ⊢
        exact this
      · rw [if_neg (by unfold isFull; exact (decide_eq_false hroom.not_ge).symm ▸ Bool.false_ne_true)]
        have := ih (h.store hroom b) (by rw [fill_store hroom]; exact hroom) hrest
        rw [fill_store hroom, List.append_assoc, List.singleton_append] at this
        rw [Nat.sub_add_eq] at this
        rw [List.take_cons (Nat.sub_pos_of_lt hroom)]
        exact this

section Queue

variable {s : State} {a : Nat} {b : UInt8} {l : List UInt8}

theorem Queue.length_lt (h : Queue s a l) : l.length < 2 ^ 32 := h.length_le.trans_lt (BitVec.isLt _)

theorem Queue.getc_nil (h : Queue s a []) :
    (consoleGetc s).1 = none ∧ Queue (consoleGetc s).2 a [] := by
  have hempty : BitVec.ofNat 32 a = s.ringHead := h.ringHead.symm
  have hget : consoleGetc s = (none, { s with ringTail := BitVec.ofNat 32 a, drop := false }) := by
    unfold consoleGetc
    rw [h.next, if_pos hempty]
  rw [hget]
  exact ⟨rfl, rfl, h.ringHead, holds_nil, Nat.zero_le _⟩

theorem Queue.getc_cons (h : Queue s a (b :: l)) :
    (consoleGetc s).1 = some b ∧ Queue (consoleGetc s).2 (a + 1) l := by
  have hlt := h.length_lt
  have hne : BitVec.ofNat 32 a ≠ s.ringHead := by
    rw [h.ringHead, ne_comm, Ne, ofNat_add_eq_iff hlt]
    exact Nat.succ_ne_zero _
  have hhead : s.ringHead = BitVec.ofNat 32 (a + 1 + l.length) := by
    rw [h.ringHead, List.length_cons, Nat.add_assoc, Nat.add_comm 1]
  have hget : consoleGetc s = (some b, { s with ringTail := BitVec.ofNat 32 (a + 1), drop := false }) := by
    unfold consoleGetc
    rw [h.next, if_neg hne, slot_ofNat ringSize_dvd, h.holds.head, ofNat_succ]
  rw [hget]
  refine ⟨rfl, rfl, hhead, h.holds.tail, ?_⟩
  show _ ≤ (s.ringHead - BitVec.ofNat 32 (a + 1)).toNat
  rw [hhead, toNat_sub (Nat.lt_of_succ_lt hlt)]

theorem Queue.getcs (h : Queue s a l) (n : Nat) :
    getcs n s = (l.take n).map some ++ List.replicate (n - l.length) none := by
  induction n generalizing s a l with
  | zero => simp [Console.getcs]
  | succ n ih =>
      cases l with
      | nil =>
          obtain ⟨hnone, hrest⟩ := h.getc_nil
          unfold Console.getcs
          rw [hnone, ih hrest]
          simp [List.replicate_succ]
      | cons b l =>
          obtain ⟨hsome, hrest⟩ := h.getc_cons
          unfold Console.getcs
          rw [hsome, ih hrest]
          simp

end Queue

/-- After a key nothing is waiting, but what was typed ahead still counts as filling the ring. -/
theorem queue_keyRx {s : State} (h : fill s ≤ ringSize) : Queue (keyRx s) s.ringHead.toNat [] := by
  have hhead : BitVec.ofNat 32 s.ringHead.toNat = s.ringHead := by
    rw [BitVec.ofNat_toNat, BitVec.setWidth_eq]
  refine ⟨?_, hhead.symm, holds_nil, Nat.zero_le _⟩
  rw [hhead]
  show skipTo s.ringTail s.ringHead = s.ringHead
  unfold skipTo
  unfold fill ringSize at h
  split_ifs with hpos
  · rfl
  · rw [BitVec.toInt_eq_toNat_of_lt (by omega)] at hpos
    have hzero : (s.ringHead - s.ringTail).toNat = 0 := by omega
    bv_omega

/-- Of a ring full of bytes received after a key, those are returned that found room beside the bytes
typed ahead before it. -/
theorem getcs_after_key {s : State} {b : UInt8} {isBreak : Bool} {bs : List UInt8} (hfill : fill s ≤ ringSize)
    (hkey : isInterrupt s b isBreak = true) (hlen : bs.length = ringSize) (hbs : Ordinary s bs) :
    getcs ringSize (receive (consoleRx s b isBreak) bs) =
      (bs.take (ringSize - fill s)).map some ++ List.replicate (fill s) none := by
  unfold consoleRx
  rw [if_pos hkey]
  have hqueue := (queue_keyRx hfill).receive hfill hbs
  rw [List.nil_append] at hqueue
  rw [hqueue.getcs, List.take_take, List.length_take, hlen]
  have hsame : fill (keyRx s) = fill s := rfl
  rw [hsame, Nat.min_eq_right (Nat.sub_le _ _), Nat.min_eq_left (Nat.sub_le _ _), Nat.sub_sub_self hfill]

/-- What is typed after a key is kept exactly when nothing was typed ahead before it. -/
theorem keptAfterKey_iff {es : List Event} {s : System} (h : Runs es s) :
    KeptAfterKey s.con ↔ fill s.con = 0 := by
  have hfill := fill_le_of_runs h
  constructor
  · intro hkept
    have hbs : Ordinary s.con (List.replicate ringSize 0x61) := by
      intro b hb
      rw [List.eq_of_mem_replicate hb]
      rfl
    have hall := hkept 0 true rfl _ List.length_replicate hbs
    rw [getcs_after_key hfill rfl List.length_replicate hbs] at hall
    by_contra hne
    have hmem : none ∈ (List.replicate ringSize (0x61 : UInt8)).map some := by
      rw [← hall]
      exact List.mem_append_right _ (List.mem_replicate.mpr ⟨hne, rfl⟩)
    simp at hmem
  · intro hzero b isBreak hkey bs hlen hbs
    rw [getcs_after_key hfill hkey hlen hbs, hzero, Nat.sub_zero, ← hlen, List.take_length]
    simp

theorem keptAfterKey_bootSystem : Runs [] bootSystem ∧ KeptAfterKey bootSystem.con := by
  have hboot : Runs [] bootSystem := .boot ⟨rfl, rfl, rfl, rfl, rfl⟩
  exact ⟨hboot, (keptAfterKey_iff hboot).mpr rfl⟩

/-- One byte typed ahead takes a place from the bytes that follow the key. -/
theorem not_keptAfterKey_typedAhead : Runs [.stored 0x61] typedAhead ∧ ¬ KeptAfterKey typedAhead.con := by
  refine ⟨runs_typedAhead, ?_⟩
  intro hkept
  have hfill : fill typedAhead.con = 1 := by decide
  have hbs : Ordinary typedAhead.con (List.replicate ringSize 0x62) := by
    intro b hb
    rw [List.eq_of_mem_replicate hb]
    rfl
  have hall := hkept 0 true rfl _ List.length_replicate hbs
  rw [getcs_after_key (by rw [hfill]; decide) rfl List.length_replicate hbs, hfill] at hall
  exact absurd (congrArg (fun l => l[255]?) hall) (by decide)

end Beeros.Console
