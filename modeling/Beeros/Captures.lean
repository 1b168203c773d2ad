import Beeros.Utf8
import Mathlib.Algebra.Group.Nat.Defs
import Mathlib.Data.List.GetD
import Mathlib.Data.List.Infix
import Mathlib.Logic.Function.Basic
import Mathlib.Tactic.SplitIfs

/-! The capture streams of `kernel/console.c`: output kept in a growing buffer until `take-output` drains
it, always up to the last whole character. `realloc` may fail: `grant` says which capacities the heap
grants during a call. Within one call a refused capacity is refused again, since nothing else runs. -/

namespace Beeros.Captures

open Utf8

/-- `CAPTURES`. -/
def captureCount : Nat := 32
/-- `CAPTURE_FD0`. -/
def captureFd0 : Int := 3
/-- `CAPTURE_MAX`: beyond this, output is dropped. -/
def captureMax : Nat := 64 * 1024

def lf : UInt8 := 0x0A
def cr : UInt8 := 0x0D

/-- A slot; `data` is `buf[0..len)`. -/
structure Capture where
  used : Bool
  data : List UInt8
  cap : Nat
deriving DecidableEq, Repr

/-- The capacity that `capture_put` asks for next. -/
def nextCap (cap : Nat) : Nat := if cap ≠ 0 then cap * 2 else 256

def capturePut (grant : Nat → Bool) (c : Capture) (ch : UInt8) : Capture :=
  if c.cap ≤ c.data.length then
    if captureMax ≤ c.cap then c
    else if grant (nextCap c.cap) then { c with data := c.data ++ [ch], cap := nextCap c.cap }
    else c
  else { c with data := c.data ++ [ch] }

/-- The loop of `console_capture_write`. -/
def captureWrite (grant : Nat → Bool) (c : Capture) (s : List UInt8) : Capture :=
  s.foldl (fun c b => capturePut grant (if b = lf then capturePut grant c cr else c) b) c

/-- The loop of `utf8_tail` from `k` on, `n` more rounds. -/
def utf8TailFrom (b : List UInt8) (k : Nat) : Nat → Nat
  | 0 => 0
  | n + 1 =>
      if b.length < k then 0
      else if isCont (b.getD (b.length - k) 0) then utf8TailFrom b (k + 1) n
      else if k < seqLength (b.getD (b.length - k) 0) then k else 0

/-- Bytes of an incomplete UTF-8 sequence at the end. -/
def utf8Tail (b : List UInt8) : Nat := utf8TailFrom b 1 3

/-- `string_from_buffer`: no string from bytes that are not UTF-8. -/
def stringFromBuffer (b : List UInt8) : Option (List UInt8) := if Valid b then some b else none

/-- `native_take_output` on its slot. -/
def takeOutput (c : Capture) : Option (List UInt8) × Capture :=
  if c.data.length = 0 then (none, c)
  else
    let n := c.data.length - utf8Tail c.data
    if n = 0 then (none, c)
    else (stringFromBuffer (c.data.take n), { c with data := c.data.drop n })

/-! ### What a write stores -/

/-- LF becomes CR LF. -/
def expand (s : List UInt8) : List UInt8 := s.flatMap fun b => if b = lf then [cr, b] else [b]

/-- The capacity that a buffer can grow to. -/
def reach (grant : Nat → Bool) (cap : Nat) : Nat :=
  if captureMax ≤ cap then cap
  else if grant (nextCap cap) then reach grant (nextCap cap)
  else cap
termination_by captureMax - cap
decreasing_by
  unfold nextCap
  split_ifs <;> omega

/-- The capacities that doubling gives. -/
def CapOk (cap : Nat) : Prop := cap = 0 ∨ ∃ k ≤ 8, cap = 256 * 2 ^ k

structure WellFormed (c : Capture) : Prop where
  cap : CapOk c.cap
  length_le : c.data.length ≤ c.cap

theorem captureWrite_eq (grant : Nat → Bool) (c : Capture) (s : List UInt8) :
    captureWrite grant c s = (expand s).foldl (capturePut grant) c := by
  unfold captureWrite expand
  rw [List.foldl_flatMap]
  congr 1
  funext c b
  split_ifs <;> rfl

theorem CapOk.nextCap {cap : Nat} (h : CapOk cap) (hmax : cap < captureMax) : CapOk (nextCap cap) := by
  unfold Captures.nextCap
  rcases h with rfl | ⟨k, hk, rfl⟩
  · exact Or.inr ⟨0, by omega, rfl⟩
  · have hlt : k < 8 := by
      rcases Nat.eq_or_lt_of_le hk with rfl | hlt
      · exact absurd hmax (by decide)
      · exact hlt
    rw [if_pos (Nat.mul_ne_zero (by decide) (Nat.two_pow_pos k).ne')]
    exact Or.inr ⟨k + 1, hlt, by rw [Nat.pow_succ, Nat.mul_assoc]⟩

theorem reach_nextCap {grant : Nat → Bool} {cap : Nat} (hmax : cap < captureMax)
    (hgrant : grant (nextCap cap) = true) : reach grant cap = reach grant (nextCap cap) := by
  rw [reach, if_neg hmax.not_ge, if_pos hgrant]

theorem le_reach (grant : Nat → Bool) (cap : Nat) : cap ≤ reach grant cap := by
  fun_induction reach grant cap with
  | case1 => exact Nat.le_refl _
  | case2 cap hmax hgrant ih =>
      refine Nat.le_trans ?_ ih
      unfold nextCap
      split_ifs <;> omega
  | case3 => exact Nat.le_refl _

/-- With every capacity granted the buffer grows to its limit. -/
theorem reach_granted {grant : Nat → Bool} (hgrant : ∀ n, grant n = true) {cap : Nat} (h : CapOk cap) :
    reach grant cap = captureMax := by
  fun_induction reach grant cap with
  | case1 cap hmax =>
      rcases h with rfl | ⟨k, hk, rfl⟩
      · exact absurd hmax (by decide)
      · have hpow : 2 ^ k ≤ 2 ^ 8 := Nat.pow_le_pow_right (by decide) hk
        unfold captureMax at *
        omega
  | case2 cap hmax _ ih => exact ih (h.nextCap (Nat.lt_of_not_le hmax))
  | case3 cap _ hno => exact absurd (hgrant _) hno

/-- One byte is kept when there is or can be room for it. -/
theorem capturePut_eq (grant : Nat → Bool) {c : Capture} (h : WellFormed c) (ch : UInt8) :
    (capturePut grant c ch).data = c.data ++ [ch].take (reach grant c.cap - c.data.length) ∧
      reach grant (capturePut grant c ch).cap = reach grant c.cap ∧ WellFormed (capturePut grant c ch) ∧
      (capturePut grant c ch).used = c.used := by
  have hlen := h.length_le
  unfold capturePut
  by_cases hroom : c.cap ≤ c.data.length
  · rw [if_pos hroom]
    have heq : c.data.length = c.cap := Nat.le_antisymm hlen hroom
    by_cases hmax : captureMax ≤ c.cap
    · have hreach : reach grant c.cap = c.cap := by rw [reach, if_pos hmax]
      rw [if_pos hmax, hreach, heq, Nat.sub_self, List.take_zero, List.append_nil]
      exact ⟨rfl, rfl, h, rfl⟩
    · rw [if_neg hmax]
      by_cases hgrant : grant (nextCap c.cap) = true
      · have hlt : c.cap < nextCap c.cap := by
          unfold nextCap
          split_ifs <;> omega
        have hle := le_reach grant (nextCap c.cap)
        have hnext := reach_nextCap (Nat.lt_of_not_le hmax) hgrant
        rw [if_pos hgrant, hnext, List.take_of_length_le (by rw [List.length_singleton]; omega)]
        refine ⟨rfl, rfl, ⟨h.cap.nextCap (Nat.lt_of_not_le hmax), ?_⟩, rfl⟩
        show (c.data ++ [ch]).length ≤ nextCap c.cap
        rw [List.length_append, List.length_singleton]
        omega
      · have hreach : reach grant c.cap = c.cap := by rw [reach, if_neg hmax, if_neg hgrant]
        rw [if_neg hgrant, hreach, heq, Nat.sub_self, List.take_zero, List.append_nil]
        exact ⟨rfl, rfl, h, rfl⟩
  · have hle := le_reach grant c.cap
    rw [if_neg hroom, List.take_of_length_le (by rw [List.length_singleton]; omega)]
    refine ⟨rfl, rfl, ⟨h.cap, ?_⟩, rfl⟩
    show (c.data ++ [ch]).length ≤ c.cap
    rw [List.length_append, List.length_singleton]
    omega

theorem putAll_eq (grant : Nat → Bool) {c : Capture} (h : WellFormed c) (s : List UInt8) :
    (s.foldl (capturePut grant) c).data = c.data ++ s.take (reach grant c.cap - c.data.length) ∧
      WellFormed (s.foldl (capturePut grant) c) ∧ (s.foldl (capturePut grant) c).used = c.used := by
  induction s generalizing c with
  | nil =>
      rw [List.take_nil, List.append_nil]
      exact ⟨rfl, h, rfl⟩
  | cons b s ih =>
      obtain ⟨hdata, hreach, hwf, hused⟩ := capturePut_eq grant h b
      obtain ⟨hdata', hwf', hused'⟩ := ih hwf
      rw [List.foldl_cons]
      refine ⟨?_, hwf', hused'.trans hused⟩
      rw [hdata', hreach, hdata, List.append_assoc]
      congr 1
      rcases Nat.eq_zero_or_pos (reach grant c.cap - c.data.length) with hzero | hpos
      · rw [hzero, List.take_zero, List.append_nil, hzero]
        rfl
      · obtain ⟨n, hn⟩ : ∃ n, reach grant c.cap - c.data.length = n + 1 := ⟨_, (Nat.succ_pred hpos.ne').symm⟩
        rw [List.length_append, ← Nat.sub_sub, hn]
        simp

/-- A write keeps what there is room for and drops the rest. -/
theorem captureWrite_data (grant : Nat → Bool) {c : Capture} (h : WellFormed c) (s : List UInt8) :
    (captureWrite grant c s).data = c.data ++ (expand s).take (reach grant c.cap - c.data.length) := by
  rw [captureWrite_eq]
  exact (putAll_eq grant h _).1

theorem captureWrite_wellFormed (grant : Nat → Bool) {c : Capture} (h : WellFormed c) (s : List UInt8) :
    WellFormed (captureWrite grant c s) := by
  rw [captureWrite_eq]
  exact (putAll_eq grant h _).2.1

theorem captureWrite_used (grant : Nat → Bool) {c : Capture} (h : WellFormed c) (s : List UInt8) :
    (captureWrite grant c s).used = c.used := by
  rw [captureWrite_eq]
  exact (putAll_eq grant h _).2.2

/-! ### What a take leaves -/

section Tail

variable {x bs : List UInt8} {b : UInt8}

/-- The loop stops at the last byte that is not a continuation byte, if it comes as far. -/
theorem utf8TailFrom_eq (hb : isCont b = false) (hbs : ∀ y ∈ bs, isCont y = true) {k n : Nat} (hk : 1 ≤ k)
    (hle : k ≤ bs.length + 1) (hn : k + n = 4) : utf8TailFrom (x ++ b :: bs) k n =
      if bs.length < 3 ∧ bs.length + 1 < seqLength b then bs.length + 1 else 0 := by
  induction n generalizing k with
  | zero =>
      rw [if_neg (by omega)]
      rfl
  | succ n ih =>
      have hlen : (x ++ b :: bs).length = x.length + (bs.length + 1) := List.length_append
      rw [utf8TailFrom, if_neg (by omega)]
      rcases Nat.eq_or_lt_of_le hle with rfl | hlt
      · have hget : (x ++ b :: bs).getD ((x ++ b :: bs).length - (bs.length + 1)) 0 = b := by
          rw [hlen, Nat.add_sub_cancel]
          simp
        rw [hget, hb, if_neg Bool.false_ne_true]
        simp only [show bs.length < 3 by omega, true_and]
      · have hget : isCont ((x ++ b :: bs).getD ((x ++ b :: bs).length - k) 0) = true := by
          apply hbs
          have hidx : (x ++ b :: bs).length - k = x.length + (bs.length - k + 1) := by omega
          have hin : bs.length - k < bs.length := by omega
          rw [hidx, List.getD_append_right _ _ _ _ (Nat.le_add_right _ _), Nat.add_sub_cancel_left,
            List.getD_cons_succ, List.getD_eq_getElem _ _ hin]
          exact List.getElem_mem hin
        rw [if_pos hget]
        exact ih (by omega) (by omega) (by omega)

theorem utf8Tail_eq (hb : isCont b = false) (hbs : ∀ y ∈ bs, isCont y = true) :
    utf8Tail (x ++ b :: bs) = if bs.length < 3 ∧ bs.length + 1 < seqLength b then bs.length + 1 else 0 :=
  utf8TailFrom_eq hb hbs (Nat.le_refl 1) (Nat.le_add_left 1 _) rfl

theorem utf8Tail_encode (s : List Char) : utf8Tail (encode s) = 0 := by
  rcases List.eq_nil_or_concat s with rfl | ⟨t, c, rfl⟩
  · rfl
  · obtain ⟨b, bs, hc, hb, hlen, hbs⟩ := utf8EncodeChar_shape c
    rw [List.concat_eq_append, encode_append, encode_cons, encode_nil, List.append_nil, hc,
      utf8Tail_eq hb hbs, if_neg (by omega)]

/-- Of valid bytes and the begin of a character, `utf8_tail` finds that begin. -/
theorem utf8Tail_append {s : List Char} {r : List UInt8} (hr : Partial r) :
    utf8Tail (encode s ++ r) = r.length := by
  obtain ⟨c, r', hc, hne⟩ := hr
  cases r with
  | nil =>
      rw [List.append_nil]
      exact utf8Tail_encode s
  | cons b bs =>
      obtain ⟨b', bs', hshape, hb, hlen, hbs⟩ := utf8EncodeChar_shape c
      rw [hshape, List.cons_append, List.cons.injEq] at hc
      obtain ⟨rfl, rfl⟩ := hc
      have hpos := List.length_pos_iff.mpr hne
      have hfour : seqLength b' ≤ 4 := by
        unfold seqLength
        split_ifs <;> omega
      rw [List.length_append] at hlen
      rw [utf8Tail_eq hb (fun y hy => hbs y (List.mem_append_left _ hy)), if_pos (by omega)]
      rfl

end Tail

/-- A take returns the whole characters and leaves the begin of the next. -/
theorem takeOutput_eq {c : Capture} {s : List Char} {r : List UInt8} (h : c.data = encode s ++ r)
    (hr : Partial r) :
    takeOutput c = (if s = [] then none else some (encode s), { c with data := r }) := by
  have htail : utf8Tail c.data = r.length := by rw [h, utf8Tail_append hr]
  have hn : c.data.length - utf8Tail c.data = (encode s).length := by
    rw [htail, h, List.length_append, Nat.add_sub_cancel]
  unfold takeOutput
  cases s with
  | nil =>
      have hsame : { c with data := r } = c := by
        rw [encode_nil, List.nil_append] at h
        rw [← h]
      rw [if_pos rfl, hsame]
      by_cases hzero : c.data.length = 0
      · rw [if_pos hzero]
      · rw [if_neg hzero, hn]
        rfl
  | cons ch s =>
      have hpos : 0 < (encode (ch :: s)).length :=
        Nat.lt_of_lt_of_le (Nat.succ_pos s.length) (length_le_length_encode (ch :: s))
      have hlen : c.data.length ≠ 0 := by
        rw [h, List.length_append]
        omega
      rw [if_neg hlen, if_neg (List.cons_ne_nil _ _), hn]
      simp only
      rw [if_neg (Nat.ne_of_gt hpos), h, List.take_left, List.drop_left]
      unfold stringFromBuffer
      rw [if_pos (valid_encode _)]

theorem takeOutput_wellFormed {c : Capture} (h : WellFormed c) : WellFormed (takeOutput c).2 := by
  unfold takeOutput
  simp only
  split_ifs
  · exact h
  · exact h
  · refine ⟨h.cap, ?_⟩
    show (c.data.drop _).length ≤ c.cap
    rw [List.length_drop]
    exact Nat.le_trans (Nat.sub_le _ _) h.length_le

/-! ### LF as CR LF keeps UTF-8 -/

theorem expand_append (s t : List UInt8) : expand (s ++ t) = expand s ++ expand t := List.flatMap_append

theorem expand_of_lf_not_mem {s : List UInt8} (h : lf ∉ s) : expand s = s := by
  induction s with
  | nil => rfl
  | cons b s ih =>
      rw [List.mem_cons, not_or] at h
      have hcons : expand (b :: s) = (if b = lf then [cr, b] else [b]) ++ expand s := rfl
      rw [hcons, if_neg (Ne.symm h.1), ih h.2, List.singleton_append]

theorem isCont_lf : isCont lf = false := by decide

theorem lf_not_mem_utf8EncodeChar {c : Char} (hc : c ≠ '\n') : lf ∉ String.utf8EncodeChar c := by
  intro hmem
  obtain ⟨b, bs, hshape, hb, hlen, hbs⟩ := utf8EncodeChar_shape c
  rw [hshape, List.mem_cons] at hmem
  rcases hmem with rfl | hmem
  · -- a first byte below 0x80 is the whole character
    have hsize : c.utf8Size = 1 := by
      rw [← String.length_utf8EncodeChar, hshape, List.length_cons, ← hlen]
      rfl
    rw [String.utf8EncodeChar_eq_singleton hsize, List.cons.injEq] at hshape
    apply hc
    have hle := Char.utf8Size_eq_one_iff.mp hsize
    have hval := congrArg UInt8.toNat hshape.1
    rw [UInt32.toNat_toUInt8] at hval
    rw [UInt32.le_iff_toNat_le] at hle
    apply Char.ext
    apply UInt32.toNat_inj.mp
    have hmod : c.val.toNat % 2 ^ 8 = c.val.toNat := Nat.mod_eq_of_lt (Nat.lt_of_le_of_lt hle (by decide))
    rw [hmod] at hval
    exact hval
  · exact absurd (hbs lf hmem) (by rw [isCont_lf]; decide)

theorem valid_expand {s : List UInt8} (h : Valid s) : Valid (expand s) := by
  obtain ⟨t, rfl⟩ := h
  induction t with
  | nil => exact valid_nil
  | cons c t ih =>
      rw [encode_cons, expand_append]
      apply Valid.append _ ih
      by_cases hc : c = '\n'
      · rw [hc]
        exact ⟨['\r', '\n'], rfl⟩
      · rw [expand_of_lf_not_mem (lf_not_mem_utf8EncodeChar hc)]
        exact ⟨[c], by simp⟩

/-! ### One stream -/

inductive Op
  | write (s : List UInt8) (grant : Nat → Bool)
  | take

/-- A slot with what was written to its stream, what of it was stored, and what the takes returned. -/
structure Log where
  c : Capture
  written : List UInt8
  stored : List UInt8
  results : List (List UInt8)

def Log.step (l : Log) : Op → Log
  | .write s grant =>
      let c := captureWrite grant l.c s
      { l with c := c, written := l.written ++ s, stored := l.stored ++ c.data.drop l.c.data.length }
  | .take => { l with c := (takeOutput l.c).2, results := l.results ++ (takeOutput l.c).1.toList }

def Log.run (l : Log) (ops : List Op) : Log := ops.foldl Log.step l

/-- The stream of a slot that has just been handed out. -/
def Log.start (c : Capture) : Log := ⟨c, [], [], []⟩

/-- What `native_capture_stream` hands out: no bytes, the buffer of the slot's earlier streams. -/
structure Fresh (c : Capture) : Prop where
  used : c.used = true
  data : c.data = []
  cap : CapOk c.cap

theorem Fresh.wellFormed {c : Capture} (h : Fresh c) : WellFormed c :=
  ⟨h.cap, by rw [h.data]; exact Nat.zero_le _⟩

/-- Every operation of the run meets `P` in the slot's state before it. -/
def Along (P : Capture → Op → Prop) : Log → List Op → Prop
  | _, [] => True
  | l, op :: ops => P l.c op ∧ Along P (l.step op) ops

/-- The pending bytes do not exceed the limit. -/
def InLimit (c : Capture) : Op → Prop
  | .write s _ => c.data.length + (expand s).length ≤ captureMax
  | .take => True

instance (c : Capture) : DecidablePred (InLimit c)
  | .write s _ => inferInstanceAs (Decidable (c.data.length + (expand s).length ≤ captureMax))
  | .take => inferInstanceAs (Decidable True)

/-- The heap grants what the write asks for. -/
def Granted (_ : Capture) : Op → Prop
  | .write _ grant => ∀ n, grant n = true
  | .take => True

/-- The results are valid UTF-8, and with the bytes still buffered they are the bytes written, every LF
as CR LF. -/
structure Intact (l : Log) : Prop where
  valid : ∀ r ∈ l.results, Valid r
  bytes : l.results.flatten ++ l.c.data = expand l.written

/-- The invariant of `Intact` runs, and the takes so far ended between characters. -/
structure Tracked (l : Log) : Prop extends Intact l where
  wellFormed : WellFormed l.c

theorem valid_flatten {rs : List (List UInt8)} (h : ∀ r ∈ rs, Valid r) : Valid rs.flatten := by
  induction rs with
  | nil => exact valid_nil
  | cons r rs ih =>
      rw [List.flatten_cons]
      exact (h r List.mem_cons_self).append (ih fun r' hr' => h r' (List.mem_cons_of_mem _ hr'))

theorem captureWrite_whole {grant : Nat → Bool} {c : Capture} {s : List UInt8} (h : WellFormed c)
    (hlimit : InLimit c (.write s grant)) (hgrant : Granted c (.write s grant)) :
    (captureWrite grant c s).data = c.data ++ expand s := by
  have hlimit' : c.data.length + (expand s).length ≤ captureMax := hlimit
  rw [captureWrite_data grant h, reach_granted hgrant h.cap, List.take_of_length_le (by omega)]

theorem Tracked.write {l : Log} {grant : Nat → Bool} {s : List UInt8} (h : Tracked l)
    (hlimit : InLimit l.c (.write s grant)) (hgrant : Granted l.c (.write s grant)) :
    Tracked (l.step (.write s grant)) := by
  refine ⟨⟨h.valid, ?_⟩, captureWrite_wellFormed grant h.wellFormed s⟩
  show l.results.flatten ++ (captureWrite grant l.c s).data = expand (l.written ++ s)
  rw [captureWrite_whole h.wellFormed hlimit hgrant, ← List.append_assoc, h.bytes, expand_append]

/-- What a take adds to the results and what it leaves. -/
theorem Log.step_take {l : Log} {s : List Char} {r : List UInt8} (hdata : l.c.data = encode s ++ r)
    (hr : Partial r) :
    (l.step .take).results.flatten = l.results.flatten ++ encode s ∧ (l.step .take).c.data = r ∧
      ((∀ x ∈ l.results, Valid x) → ∀ x ∈ (l.step .take).results, Valid x) := by
  show (l.results ++ (takeOutput l.c).1.toList).flatten = _ ∧ (takeOutput l.c).2.data = r ∧
    (_ → ∀ x ∈ l.results ++ (takeOutput l.c).1.toList, Valid x)
  rw [takeOutput_eq hdata hr, List.flatten_append]
  by_cases hs : s = []
  · rw [if_pos hs, hs]
    refine ⟨rfl, rfl, ?_⟩
    intro hvalid x hx
    exact hvalid x (by simpa using hx)
  · rw [if_neg hs]
    refine ⟨by simp, rfl, ?_⟩
    intro hvalid x hx
    rcases List.mem_append.mp hx with hx | hx
    · exact hvalid x hx
    · rw [List.mem_singleton.mp hx]
      exact valid_encode s

/-- A take in a run whose bytes will be valid. -/
theorem Tracked.take {l : Log} {rest : List UInt8} (h : Tracked l) (hvalid : Valid (l.written ++ rest)) :
    Tracked (l.step .take) := by
  have hall : Valid (l.results.flatten ++ (l.c.data ++ expand rest)) := by
    rw [← List.append_assoc, h.bytes, ← expand_append]
    exact valid_expand hvalid
  obtain ⟨t, ht⟩ := (valid_flatten h.valid).of_append hall
  obtain ⟨s, r, hdata, hr⟩ := exists_partial_of_append ht.symm
  obtain ⟨hflatten, hleft, hres⟩ := Log.step_take hdata hr
  refine ⟨⟨hres h.valid, ?_⟩, takeOutput_wellFormed h.wellFormed⟩
  rw [hflatten, hleft, List.append_assoc, ← hdata]
  exact h.bytes

theorem Log.written_run (l : Log) (ops : List Op) : ∃ more, (l.run ops).written = l.written ++ more := by
  induction ops generalizing l with
  | nil => exact ⟨[], (List.append_nil _).symm⟩
  | cons op ops ih =>
      obtain ⟨more, hmore⟩ := ih (l.step op)
      cases op with
      | write s grant => exact ⟨s ++ more, hmore.trans (List.append_assoc _ _ _)⟩
      | take => exact ⟨more, hmore⟩

theorem Tracked.run {l : Log} {ops : List Op} {rest : List UInt8} (h : Tracked l)
    (hvalid : Valid ((l.run ops).written ++ rest)) (hlimit : Along InLimit l ops)
    (hgrant : Along Granted l ops) : Tracked (l.run ops) := by
  induction ops generalizing l with
  | nil => exact h
  | cons op ops ih =>
      refine ih ?_ hvalid hlimit.2 hgrant.2
      cases op with
      | write s grant => exact h.write hlimit.1 hgrant.1
      | take =>
          obtain ⟨more, hmore⟩ := (l.step .take).written_run ops
          have hvalid' : Valid (((l.step .take).run ops).written ++ rest) := hvalid
          rw [hmore, List.append_assoc] at hvalid'
          exact h.take hvalid'

/-- Written bytes that are valid UTF-8 once `rest` has followed them are delivered whole, wherever the
writes cut them, while the pending bytes keep to the limit and the heap grants the buffer. -/
theorem intact_of_run {c : Capture} (hfresh : Fresh c) {ops : List Op} (rest : List UInt8)
    (hvalid : Valid (((Log.start c).run ops).written ++ rest)) (hlimit : Along InLimit (Log.start c) ops)
    (hgrant : Along Granted (Log.start c) ops) : Intact ((Log.start c).run ops) := by
  have hstart : Tracked (Log.start c) := by
    refine ⟨⟨nofun, ?_⟩, hfresh.wellFormed⟩
    exact hfresh.data
  exact (hstart.run hvalid hlimit hgrant).toIntact

def emptySlot : Capture := ⟨true, [], 0⟩

theorem fresh_emptySlot : Fresh emptySlot := ⟨rfl, rfl, Or.inl rfl⟩

def allGranted : Nat → Bool := fun _ => true

theorem reach_allGranted {cap : Nat} (h : CapOk cap) : reach allGranted cap = captureMax :=
  reach_granted (fun _ => rfl) h

/-- "é" in two writes with a take between them, then a newline. -/
theorem intact_split_char :
    Intact ((Log.start emptySlot).run
      [.write [0xC3] allGranted, .take, .write [0xA9, 0x0A] allGranted, .take]) := by
  refine intact_of_run fresh_emptySlot [] ?_ ?_ ?_
  · exact ⟨['é', '\n'], by decide⟩
  · exact ⟨by decide, trivial, by decide, trivial, trivial⟩
  · exact ⟨fun _ => rfl, trivial, fun _ => rfl, trivial, trivial⟩

/-- A heap that refuses the first buffer loses the byte. -/
theorem not_intact_refused :
    Valid ((Log.start emptySlot).run [.write [0x61] fun _ => false]).written ∧
      Along InLimit (Log.start emptySlot) [.write [0x61] fun _ => false] ∧
      ¬ Intact ((Log.start emptySlot).run [.write [0x61] fun _ => false]) := by
  refine ⟨⟨['a'], by decide⟩, ⟨by decide, trivial⟩, ?_⟩
  intro h
  exact absurd h.bytes (by decide)

/-! ### Writes over the limit -/

/-- A write of whole characters whose cut, where the buffer can grow no more, is between two. -/
def CleanCut (c : Capture) : Op → Prop
  | .write s grant => Valid s ∧ Valid ((expand s).take (reach grant c.cap - c.data.length))
  | .take => True

/-- Nothing that was stored is lost: it has been returned, or the next take returns it. -/
structure Delivered (l : Log) : Prop where
  valid : ∀ r ∈ l.results, Valid r
  bytes : l.results.flatten ++ l.c.data = l.stored
  next : (takeOutput l.c).1.getD [] = l.c.data

structure Clean (l : Log) : Prop where
  valid : ∀ r ∈ l.results, Valid r
  bytes : l.results.flatten ++ l.c.data = l.stored
  data : Valid l.c.data
  wellFormed : WellFormed l.c

theorem Clean.delivered {l : Log} (h : Clean l) : Delivered l := by
  refine ⟨h.valid, h.bytes, ?_⟩
  obtain ⟨s, hs⟩ := h.data
  rw [takeOutput_eq (hs.symm.trans (List.append_nil _).symm) partial_nil]
  by_cases hnil : s = []
  · rw [← hs, hnil]
    rfl
  · rw [if_neg hnil]
    exact hs

theorem Clean.step {l : Log} {op : Op} (h : Clean l) (hop : CleanCut l.c op) : Clean (l.step op) := by
  cases op with
  | write s grant =>
      have hdata := captureWrite_data grant h.wellFormed s
      refine ⟨h.valid, ?_, ?_, captureWrite_wellFormed grant h.wellFormed s⟩
      · show l.results.flatten ++ (captureWrite grant l.c s).data =
          l.stored ++ (captureWrite grant l.c s).data.drop l.c.data.length
        rw [hdata, List.drop_left, ← h.bytes, List.append_assoc]
      · show Valid (captureWrite grant l.c s).data
        rw [hdata]
        exact h.data.append hop.2
  | take =>
      obtain ⟨s, hs⟩ := h.data
      obtain ⟨hflatten, hleft, hres⟩ := Log.step_take (hs.symm.trans (List.append_nil _).symm) partial_nil
      refine ⟨hres h.valid, ?_, ?_, takeOutput_wellFormed h.wellFormed⟩
      · rw [hflatten, hleft, hs, List.append_nil]
        exact h.bytes
      · rw [hleft]
        exact valid_nil

theorem Clean.run {l : Log} {ops : List Op} (h : Clean l) (hops : Along CleanCut l ops) :
    Clean (l.run ops) := by
  induction ops generalizing l with
  | nil => exact h
  | cons op ops ih => exact ih (h.step hops.1) hops.2

/-- While no write is cut inside a character, every stored byte is returned. -/
theorem delivered_of_cleanCut {c : Capture} (hfresh : Fresh c) {ops : List Op}
    (hops : Along CleanCut (Log.start c) ops) : Delivered ((Log.start c).run ops) := by
  have hstart : Clean (Log.start c) := by
    refine ⟨nofun, ?_, ?_, hfresh.wellFormed⟩
    · exact hfresh.data
    · show Valid c.data
      rw [hfresh.data]
      exact valid_nil
  exact (hstart.run hops).delivered

theorem delivered_one_write :
    Delivered ((Log.start emptySlot).run [.write [0x61, 0x0A, 0xC3, 0xA9] allGranted, .take]) := by
  refine delivered_of_cleanCut fresh_emptySlot ⟨⟨⟨['a', '\n', 'é'], by decide⟩, ?_⟩, trivial, trivial⟩
  have hreach : reach allGranted (Log.start emptySlot).c.cap = captureMax :=
    reach_allGranted fresh_emptySlot.cap
  rw [hreach]
  exact ⟨['a', '\r', '\n', 'é'], by decide⟩

def fillText : List Char := List.replicate (captureMax - 1) 'a'

theorem length_encode_fillText : (encode fillText).length = captureMax - 1 := by
  unfold fillText
  generalize captureMax - 1 = n
  induction n with
  | zero => rfl
  | succ n ih =>
      rw [List.replicate_succ, encode_cons, List.length_append, ih]
      exact Nat.add_comm 1 n

theorem lf_not_mem_fillText : lf ∉ encode (fillText ++ ['é']) := by
  intro hmem
  obtain ⟨c, hc, hlf⟩ := List.mem_flatMap.mp hmem
  refine lf_not_mem_utf8EncodeChar ?_ hlf
  rintro rfl
  rcases List.mem_append.mp hc with hc | hc
  · exact absurd (List.eq_of_mem_replicate hc) (by decide)
  · exact absurd (List.mem_singleton.mp hc) (by decide)

theorem captureWrite_fillText :
    (captureWrite allGranted emptySlot (encode (fillText ++ ['é']))).data = encode fillText ++ [0xC3] := by
  have hsplit : encode (fillText ++ ['é']) = (encode fillText ++ [0xC3]) ++ [0xA9] := by
    rw [encode_append, List.append_assoc]
    rfl
  have hlen : (encode fillText ++ [0xC3]).length = captureMax := by
    rw [List.length_append, length_encode_fillText]
    rfl
  rw [captureWrite_data allGranted fresh_emptySlot.wellFormed, reach_allGranted fresh_emptySlot.cap,
    expand_of_lf_not_mem lf_not_mem_fillText, hsplit]
  show [] ++ List.take captureMax _ = _
  rw [← hlen, List.take_left, List.nil_append]

/-- The limit falls into "é": its first byte stays behind, and the next take loses it with what was
written after it. -/
theorem not_delivered_cut_char :
    Valid (encode (fillText ++ ['é'])) ∧
      ¬ Delivered ((Log.start emptySlot).run
        [.write (encode (fillText ++ ['é'])) allGranted, .take, .write [0x61] allGranted, .take]) := by
  refine ⟨valid_encode _, ?_⟩
  intro h
  obtain ⟨c, hc⟩ : ∃ c, captureWrite allGranted emptySlot (encode (fillText ++ ['é'])) = c := ⟨_, rfl⟩
  have hdata : c.data = encode fillText ++ [0xC3] := by rw [← hc, captureWrite_fillText]
  have hwf : WellFormed c := by
    rw [← hc]
    exact captureWrite_wellFormed allGranted fresh_emptySlot.wellFormed _
  have htake := takeOutput_eq hdata ⟨'é', [0xA9], rfl, List.cons_ne_nil _ _⟩
  rw [if_neg (by intro hnil; exact absurd length_encode_fillText (by rw [hnil]; decide))] at htake
  obtain ⟨c', hc'⟩ : ∃ c', captureWrite allGranted { c with data := [0xC3] } [0x61] = c' := ⟨_, rfl⟩
  have hdata' : c'.data = [0xC3, 0x61] := by
    have hwf' : WellFormed { c with data := [0xC3] } := by
      have := takeOutput_wellFormed hwf
      rwa [htake] at this
    rw [← hc', captureWrite_data allGranted hwf', reach_allGranted hwf'.cap]
    rfl
  have htake' : takeOutput c' = (none, { c' with data := [] }) := by
    have hinvalid : ¬ Valid [0xC3, 0x61] := by decide
    obtain ⟨used, data, cap⟩ := c'
    subst hdata'
    have htail : utf8Tail [0xC3, 0x61] = 0 := by decide
    simp [takeOutput, stringFromBuffer, htail, hinvalid]
  have hbytes := congrArg List.length h.bytes
  simp only [Log.run, List.foldl_cons, List.foldl_nil, Log.step, Log.start, hc, htake, hc', htake', hdata,
    hdata'] at hbytes
  simp [emptySlot, length_encode_fillText] at hbytes

end Beeros.Captures
