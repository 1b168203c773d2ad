import Beeros.Captures
import Mathlib.Data.List.Basic

/-! The table of capture streams in `kernel/console.c`. A stream is only a file descriptor, so it stays
usable after its slot was released. The ghost state of `System` tells the streams of one slot apart: it
numbers the streams handed out and keeps, for every buffered byte, the one it was written through. -/

namespace Beeros.Captures

open Utf8

abbrev Table := Nat → Capture

/-- The argument of a native that takes a slot: a fixnum, or anything else. -/
abbrev Arg := Option Int

/-- `n` is below `2 ^ 31`, so `(int)n` is `n`. -/
def consoleCaptureWrite (grant : Nat → Bool) (t : Table) (fd : Int) (s : List UInt8) : Int × Table :=
  let i := fd - captureFd0
  if i < 0 ∨ captureCount ≤ i ∨ (t i.toNat).used = false then (-1, t)
  else (s.length, Function.update t i.toNat (captureWrite grant (t i.toNat) s))

/-- The slot that is handed out; the stream is for `captureFd0` plus the slot. -/
def nativeCaptureStream (t : Table) : Except String Nat × Table :=
  match (List.range captureCount).find? fun i => !(t i).used with
  | some i => (.ok i, Function.update t i { t i with used := true, data := [] })
  | none => (.error "capture-stream: no free slot", t)

def slotArg (who : String) : Arg → Except String Nat
  | some i =>
      if i < 0 ∨ captureCount ≤ i then .error (who ++ ": takes a slot from capture-stream")
      else .ok i.toNat
  | none => .error (who ++ ": takes a slot from capture-stream")

def nativeTakeOutput (t : Table) (arg : Arg) : Except String (Option (List UInt8)) × Table :=
  match slotArg "take-output" arg with
  | .error e => (.error e, t)
  | .ok i => (.ok (takeOutput (t i)).1, Function.update t i (takeOutput (t i)).2)

def nativeReleaseOutput (t : Table) (arg : Arg) : Except String Unit × Table :=
  match slotArg "release-output!" arg with
  | .error e => (.error e, t)
  | .ok i => (.ok (), Function.update t i { t i with used := false, data := [] })

/-! ### Streams told apart -/

/-- `streams` are the slots of the streams handed out, `owner` the stream that holds a slot, `writers`
the streams that the bytes in its buffer were written through. -/
structure System where
  table : Table
  streams : List Nat
  owner : Nat → Option Nat
  writers : Nat → List Nat

inductive Call
  | captureStream
  | write (stream : Nat) (s : List UInt8) (grant : Nat → Bool)
  | takeOutput (arg : Arg)
  | releaseOutput (arg : Arg)

def System.step (s : System) : Call → System
  | .captureStream =>
      match nativeCaptureStream s.table with
      | (.ok i, t) => ⟨t, s.streams ++ [i], Function.update s.owner i (some s.streams.length),
          Function.update s.writers i []⟩
      | (.error _, t) => { s with table := t }
  | .write g bs grant =>
      match s.streams[g]? with
      | none => s
      | some i =>
          let t := (consoleCaptureWrite grant s.table (captureFd0 + i) bs).2
          { s with
            table := t
            writers := Function.update s.writers i
              (s.writers i ++ List.replicate ((t i).data.length - (s.table i).data.length) g) }
  | .takeOutput arg =>
      let t := (nativeTakeOutput s.table arg).2
      match slotArg "take-output" arg with
      | .error _ => { s with table := t }
      | .ok i =>
          { s with
            table := t
            writers := Function.update s.writers i
              ((s.writers i).drop ((s.table i).data.length - (t i).data.length)) }
  | .releaseOutput arg =>
      let t := (nativeReleaseOutput s.table arg).2
      match slotArg "release-output!" arg with
      | .error _ => { s with table := t }
      | .ok i => ⟨t, s.streams, Function.update s.owner i none, Function.update s.writers i []⟩

section Step

variable (s : System)

theorem System.step_captureStream :
    s.step .captureStream =
      match nativeCaptureStream s.table with
      | (.ok i, t) => ⟨t, s.streams ++ [i], Function.update s.owner i (some s.streams.length),
          Function.update s.writers i []⟩
      | (.error _, t) => { s with table := t } := rfl

theorem System.step_write (g : Nat) (bs : List UInt8) (grant : Nat → Bool) :
    s.step (.write g bs grant) =
      match s.streams[g]? with
      | none => s
      | some i =>
          let t := (consoleCaptureWrite grant s.table (captureFd0 + i) bs).2
          { s with
            table := t
            writers := Function.update s.writers i
              (s.writers i ++ List.replicate ((t i).data.length - (s.table i).data.length) g) } := rfl

theorem System.step_takeOutput (arg : Arg) :
    s.step (.takeOutput arg) =
      let t := (nativeTakeOutput s.table arg).2
      match slotArg "take-output" arg with
      | .error _ => { s with table := t }
      | .ok i =>
          { s with
            table := t
            writers := Function.update s.writers i
              ((s.writers i).drop ((s.table i).data.length - (t i).data.length)) } := rfl

theorem System.step_releaseOutput (arg : Arg) :
    s.step (.releaseOutput arg) =
      let t := (nativeReleaseOutput s.table arg).2
      match slotArg "release-output!" arg with
      | .error _ => { s with table := t }
      | .ok i => ⟨t, s.streams, Function.update s.owner i none, Function.update s.writers i []⟩ := rfl

end Step

/-- The static table: all slots free, no buffers. -/
def boot : System := ⟨fun _ => ⟨false, [], 0⟩, [], fun _ => none, fun _ => []⟩

/-- Every call meets `P` in the state before it. -/
def System.Along (P : System → Call → Prop) : System → List Call → Prop
  | _, [] => True
  | s, op :: ops => P s op ∧ System.Along P (s.step op) ops

/-- A write through a stream that does not hold its slot fails, and a take returns only bytes that were
written through the stream that holds the slot. -/
def Isolated (s : System) : Call → Prop
  | .write g bs grant => ∀ i, s.streams[g]? = some i → s.owner i ≠ some g →
      (consoleCaptureWrite grant s.table (captureFd0 + i) bs).1 = -1
  | .takeOutput arg => ∀ i text, slotArg "take-output" arg = .ok i →
      (nativeTakeOutput s.table arg).1 = .ok (some text) →
      ∀ w ∈ (s.writers i).take text.length, s.owner i = some w
  | _ => True

/-- No write through a stream whose slot was released and handed out again. -/
def NotReused (s : System) : Call → Prop
  | .write g _ _ => ∀ i, s.streams[g]? = some i → s.owner i = some g ∨ (s.table i).used = false
  | _ => True

/-- A slot with the stream that holds it and the streams its bytes came through. -/
structure SlotOk (c : Capture) (owner : Option Nat) (writers : List Nat) : Prop where
  wellFormed : WellFormed c
  used : c.used = owner.isSome
  empty : c.used = false → c.data = []
  length : writers.length = c.data.length
  writer : ∀ w ∈ writers, owner = some w

structure Inv (s : System) : Prop where
  slots : ∀ i, SlotOk (s.table i) (s.owner i) (s.writers i)
  streams : ∀ i ∈ s.streams, i < captureCount

theorem inv_boot : Inv boot := by
  refine ⟨?_, nofun⟩
  intro i
  exact ⟨⟨Or.inl rfl, Nat.le_refl _⟩, rfl, fun _ => rfl, rfl, nofun⟩

theorem Inv.set {s : System} (h : Inv s) (i : Nat) {c : Capture} {owner : Option Nat} {writers : List Nat}
    (hslot : SlotOk c owner writers) {streams : List Nat} (hstreams : ∀ i ∈ streams, i < captureCount) :
    Inv ⟨Function.update s.table i c, streams, Function.update s.owner i owner,
      Function.update s.writers i writers⟩ := by
  refine ⟨?_, hstreams⟩
  intro j
  by_cases hj : j = i
  · subst hj
    simpa using hslot
  · simpa [Function.update_of_ne hj] using h.slots j

/-- The same for a slot that keeps its stream. -/
theorem Inv.setData {s : System} (h : Inv s) {i : Nat} {c : Capture} {writers : List Nat}
    (hslot : SlotOk c (s.owner i) writers) :
    Inv ⟨Function.update s.table i c, s.streams, s.owner, Function.update s.writers i writers⟩ := by
  have := h.set i hslot h.streams
  rwa [Function.update_eq_self] at this

theorem consoleCaptureWrite_slot {grant : Nat → Bool} {t : Table} {i : Nat} {s : List UInt8}
    (hi : i < captureCount) : consoleCaptureWrite grant t (captureFd0 + i) s =
      if (t i).used = false then (-1, t)
      else ((s.length : Int), Function.update t i (captureWrite grant (t i) s)) := by
  have hsub : captureFd0 + (i : Int) - captureFd0 = i := by omega
  have hrange : ¬ ((i : Int) < 0) ∧ ¬ ((captureCount : Int) ≤ i) := by omega
  unfold consoleCaptureWrite
  simp only [hsub, Int.toNat_natCast, hrange, false_or]

theorem nativeCaptureStream_cases (t : Table) :
    (∃ i < captureCount, nativeCaptureStream t =
        (.ok i, Function.update t i { t i with used := true, data := [] })) ∨
      ∃ e, nativeCaptureStream t = (.error e, t) := by
  unfold nativeCaptureStream
  cases hfind : (List.range captureCount).find? fun i => !(t i).used with
  | none => exact Or.inr ⟨_, rfl⟩
  | some i => exact Or.inl ⟨i, List.mem_range.mp (List.mem_of_find?_eq_some hfind), rfl⟩

/-- A slot that is handed out starts a stream of its own. -/
theorem Inv.fresh {s : System} (h : Inv s) {t : Table} {i : Nat}
    (hopen : nativeCaptureStream s.table = (.ok i, t)) : Fresh (t i) := by
  rcases nativeCaptureStream_cases s.table with ⟨j, -, heq⟩ | ⟨e, heq⟩
  · cases hopen.symm.trans heq
    rw [Function.update_self]
    exact ⟨rfl, rfl, (h.slots i).wellFormed.cap⟩
  · cases hopen.symm.trans heq

theorem Inv.captureStream {s : System} (h : Inv s) : Inv (s.step .captureStream) := by
  rcases nativeCaptureStream_cases s.table with ⟨i, hi, heq⟩ | ⟨e, heq⟩
  · simp only [System.step_captureStream, heq]
    refine h.set i ?_ ?_
    · exact ⟨⟨(h.slots i).wellFormed.cap, Nat.zero_le _⟩, rfl, nofun, rfl, nofun⟩
    · intro j hj
      rcases List.mem_append.mp hj with hj | hj
      · exact h.streams j hj
      · rw [List.mem_singleton.mp hj]
        exact hi
  · simp only [System.step_captureStream, heq]
    exact h

theorem Inv.write {s : System} (h : Inv s) {g : Nat} {bs : List UInt8} {grant : Nat → Bool}
    (hreuse : NotReused s (.write g bs grant)) : Inv (s.step (.write g bs grant)) := by
  cases hg : s.streams[g]? with
  | none =>
      simp only [System.step_write, hg]
      exact h
  | some i =>
      have hi := h.streams i (List.mem_of_getElem? hg)
      have hslot := h.slots i
      simp only [System.step_write, hg, consoleCaptureWrite_slot hi]
      by_cases hused : (s.table i).used = false
      · simp only [if_pos hused, Nat.sub_self, List.replicate_zero, List.append_nil, Function.update_eq_self]
        exact h
      · have howner : s.owner i = some g := (hreuse i hg).resolve_right hused
        simp only [if_neg hused, Function.update_self]
        have hdata := captureWrite_data grant hslot.wellFormed bs
        have hsame := captureWrite_used grant hslot.wellFormed bs
        refine h.setData ⟨captureWrite_wellFormed grant hslot.wellFormed bs, ?_, ?_, ?_, ?_⟩
        · rw [hsame]
          exact hslot.used
        · intro hno
          exact absurd (hsame ▸ hno) hused
        · rw [List.length_append, List.length_replicate, hslot.length, hdata, List.length_append]
          omega
        · intro w hw
          rcases List.mem_append.mp hw with hw | hw
          · exact hslot.writer w hw
          · rw [List.eq_of_mem_replicate hw]
            exact howner

/-- A take takes the first bytes out and leaves the others. -/
theorem takeOutput_drop (c : Capture) : ∃ n, (takeOutput c).2 = { c with data := c.data.drop n } := by
  unfold Captures.takeOutput
  simp only
  split_ifs
  · exact ⟨0, rfl⟩
  · exact ⟨0, rfl⟩
  · exact ⟨_, rfl⟩

theorem Inv.takeOutput {s : System} (h : Inv s) (arg : Arg) : Inv (s.step (.takeOutput arg)) := by
  cases harg : slotArg "take-output" arg with
  | error e =>
      simp only [System.step_takeOutput, nativeTakeOutput, harg]
      exact h
  | ok i =>
      have hslot := h.slots i
      obtain ⟨n, hn⟩ := takeOutput_drop (s.table i)
      simp only [System.step_takeOutput, nativeTakeOutput, harg, Function.update_self]
      refine h.setData ⟨takeOutput_wellFormed hslot.wellFormed, ?_, ?_, ?_, ?_⟩
      · rw [hn]
        exact hslot.used
      · rw [hn]
        intro hno
        rw [hslot.empty hno, List.drop_nil]
      · rw [List.length_drop, hslot.length, hn]
        simp only [List.length_drop]
        omega
      · intro w hw
        exact hslot.writer w (List.mem_of_mem_drop hw)

theorem Inv.releaseOutput {s : System} (h : Inv s) (arg : Arg) : Inv (s.step (.releaseOutput arg)) := by
  cases harg : slotArg "release-output!" arg with
  | error e =>
      simp only [System.step_releaseOutput, nativeReleaseOutput, harg]
      exact h
  | ok i =>
      simp only [System.step_releaseOutput, nativeReleaseOutput, harg]
      have hslot : SlotOk { s.table i with used := false, data := [] } none [] :=
        ⟨⟨(h.slots i).wellFormed.cap, Nat.zero_le _⟩, rfl, fun _ => rfl, rfl, nofun⟩
      exact h.set i hslot h.streams

theorem Inv.step {s : System} (h : Inv s) {call : Call} (hreuse : NotReused s call) : Inv (s.step call) := by
  cases call with
  | captureStream => exact h.captureStream
  | write g bs grant => exact h.write hreuse
  | takeOutput arg => exact h.takeOutput arg
  | releaseOutput arg => exact h.releaseOutput arg

theorem Inv.isolated {s : System} (h : Inv s) {call : Call} (hreuse : NotReused s call) :
    Isolated s call := by
  cases call with
  | captureStream => trivial
  | write g bs grant =>
      intro i hg hother
      have hfree := (hreuse i hg).resolve_left hother
      rw [consoleCaptureWrite_slot (h.streams i (List.mem_of_getElem? hg)), if_pos hfree]
  | takeOutput arg =>
      intro i text _ _ w hw
      exact (h.slots i).writer w (List.mem_of_mem_take hw)
  | releaseOutput arg => trivial

theorem Inv.notReused {s : System} (h : Inv s) {call : Call} (hiso : Isolated s call) :
    NotReused s call := by
  cases call with
  | captureStream => trivial
  | write g bs grant =>
      intro i hg
      by_contra hne
      rw [not_or] at hne
      have hfail := hiso i hg hne.1
      rw [consoleCaptureWrite_slot (h.streams i (List.mem_of_getElem? hg)), if_neg hne.2] at hfail
      omega
  | takeOutput arg => trivial
  | releaseOutput arg => trivial

theorem Inv.isolated_iff {s : System} (h : Inv s) (calls : List Call) :
    s.Along Isolated calls ↔ s.Along NotReused calls := by
  induction calls generalizing s with
  | nil => exact Iff.rfl
  | cons call calls ih =>
      constructor
      · rintro ⟨hiso, hrest⟩
        have hreuse := h.notReused hiso
        exact ⟨hreuse, (ih (h.step hreuse)).mp hrest⟩
      · rintro ⟨hreuse, hrest⟩
        exact ⟨h.isolated hreuse, (ih (h.step hreuse)).mpr hrest⟩

/-- The streams are isolated from each other in a run exactly when none is written to after its slot was
released and handed out again. -/
theorem isolated_iff_notReused (calls : List Call) : boot.Along Isolated calls ↔ boot.Along NotReused calls :=
  inv_boot.isolated_iff calls

/-- A late write through a released stream arrives in the stream that has its slot now. -/
theorem not_isolated_late_write :
    ¬ boot.Along Isolated [.captureStream, .releaseOutput (some 0), .captureStream,
      .write 0 [0x61] allGranted, .takeOutput (some 0)] := by
  rintro ⟨-, -, -, hwrite, -⟩
  have hfail := hwrite 0 rfl (by decide)
  exact absurd hfail (by decide)

end Beeros.Captures
