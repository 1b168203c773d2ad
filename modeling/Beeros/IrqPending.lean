import Beeros.Interleave

/-! The word `irq_pending` of `kernel/mem_natives.c`: the trap handler sets bits in it, `irq-wait!` clears
one with a load, an and and a store, and a trap may land between any two steps. Tasks only switch inside
`scheduler_run_one_tick`, in the loop of `irq-wait!`; the handler itself is not interrupted. -/

namespace Beeros.IrqPending

open Interleave

/-- `MAX_IRQS`. -/
def maxIrqs : Nat := 64

/-- `1ULL << n`. -/
def bit (n : Nat) : BitVec 64 := 1#64 <<< n

/-- Where `irq_pending &= ~(1ULL << n)` is. -/
inductive Stage
  | start
  | loaded (word : BitVec 64)
  | masked (word : BitVec 64)
  deriving DecidableEq

/-- The `irq-wait!` that has left its loop. -/
structure Clearing where
  task : Nat
  n : Nat
  stage : Stage
  deriving DecidableEq

structure State where
  irqPending : BitVec 64
  /-- The tasks in the loop of `irq-wait!`, with what they wait for. -/
  waiting : Nat → Option Nat
  clearing : Option Clearing

inductive Event
  /-- `mem_trap_handler` for the interrupt that `plic_claim` gives. -/
  | trap (irq : Nat)
  | callWait (task n : Nat)
  /-- The test of the loop; a tick follows when it fails. -/
  | test (task : Nat)
  | load
  | mask
  /-- The store, with which `(irq-wait! n)` returns. -/
  | store (n : Nat)
  deriving DecidableEq

def step : Event → State → Option State
  | .trap irq, s => some (if 0 < irq ∧ irq < maxIrqs then { s with irqPending := s.irqPending ||| bit irq } else s)
  | .callWait t n, s =>
      if s.clearing = none ∧ s.waiting t = none ∧ n < maxIrqs then
        some { s with waiting := Function.update s.waiting t (some n) }
      else none
  | .test t, s =>
      match s.clearing, s.waiting t with
      | none, some n =>
          if s.irqPending &&& bit n = 0 then some s else some { s with clearing := some ⟨t, n, .start⟩ }
      | _, _ => none
  | .load, s =>
      match s.clearing with
      | some ⟨t, n, .start⟩ => some { s with clearing := some ⟨t, n, .loaded s.irqPending⟩ }
      | _ => none
  | .mask, s =>
      match s.clearing with
      | some ⟨t, n, .loaded w⟩ => some { s with clearing := some ⟨t, n, .masked (w &&& ~~~bit n)⟩ }
      | _ => none
  | .store m, s =>
      match s.clearing with
      | some ⟨t, n, .masked w⟩ =>
          if n = m then
            some { irqPending := w, waiting := Function.update s.waiting t none, clearing := none }
          else none
      | _ => none

/-- `(irq-pending? m)`. -/
def State.pending (s : State) (m : Nat) : Bool := m < maxIrqs && (s.irqPending &&& bit m != 0)

def init : State := ⟨0, fun _ => none, none⟩

/-- The word that the store will be made from. -/
def Stage.word? : Stage → Option (BitVec 64)
  | .start => none
  | .loaded w => some w
  | .masked w => some w

/-- A trap that does not land between the load and the store of an `irq-wait!` for another interrupt, unless its
bit was set already when the word was loaded. -/
def Kept (m : Nat) (s : State) : Prop :=
  ∀ c w, s.clearing = some c → c.stage.word? = some w → c.n = m ∨ w.getLsbD m = true

variable {s s' : State} {e : Event} {m n : Nat} {w : BitVec 64} {es : List Event}

/-! ### Bits -/

theorem bit_eq (n : Nat) : bit n = BitVec.twoPow 64 n := (BitVec.twoPow_eq 64 n).symm

theorem getLsbD_bit (n m : Nat) : (bit n).getLsbD m = (decide (n < maxIrqs) && decide (n = m)) := by
  rw [bit_eq, BitVec.getLsbD_twoPow]
  rfl

theorem and_bit_eq_zero (hn : n < maxIrqs) : w &&& bit n = 0 ↔ w.getLsbD n = false := by
  rw [bit_eq, BitVec.and_twoPow]
  cases hw : w.getLsbD n with
  | false => exact ⟨fun _ => rfl, fun _ => if_neg nofun⟩
  | true =>
      rw [if_pos rfl]
      refine ⟨fun h => ?_, nofun⟩
      have hbit := congrArg (fun v => BitVec.getLsbD v n) h
      change (BitVec.twoPow 64 n).getLsbD n = (0#64).getLsbD n at hbit
      rw [BitVec.getLsbD_twoPow, decide_eq_true (show n < 64 from hn), decide_eq_true rfl] at hbit
      rw [BitVec.getLsbD_zero] at hbit
      exact hbit

theorem pending_eq (hm : m < maxIrqs) : s.pending m = s.irqPending.getLsbD m := by
  unfold State.pending
  rw [decide_eq_true hm, Bool.true_and]
  cases hw : s.irqPending.getLsbD m with
  | false => rw [(and_bit_eq_zero hm).mpr hw]; rfl
  | true =>
      apply bne_iff_ne.mpr
      intro h
      rw [(and_bit_eq_zero hm).mp h] at hw
      cases hw

/-- Clearing the bit of one interrupt keeps the bit of another. -/
theorem getLsbD_clear (hne : n ≠ m) (hm : m < maxIrqs) : (w &&& ~~~bit n).getLsbD m = w.getLsbD m := by
  rw [BitVec.getLsbD_and, BitVec.getLsbD_not, getLsbD_bit, decide_eq_false hne, Bool.and_false, Bool.not_false,
    decide_eq_true (show m < 64 from hm), Bool.true_and, Bool.and_true]

/-! ### One step -/

/-- The bit is set, and the store that is under way will not clear it. -/
structure Safe (m : Nat) (s : State) : Prop where
  set : s.irqPending.getLsbD m = true
  kept : Kept m s

theorem safe_trap (h : Kept m s) (h0 : 0 < m) (hm : m < maxIrqs) (hstep : step (.trap m) s = some s') : Safe m s' := by
  cases hstep
  rw [if_pos ⟨h0, hm⟩]
  refine ⟨?_, h⟩
  show (s.irqPending ||| bit m).getLsbD m = true
  rw [BitVec.getLsbD_or, getLsbD_bit, decide_eq_true hm, decide_eq_true rfl]
  exact Bool.or_true _

theorem safe_step (h : Safe m s) (hm : m < maxIrqs) (he : e ≠ .store m) (hstep : step e s = some s') : Safe m s' := by
  cases e with
  | trap irq =>
      cases hstep
      split_ifs
      · refine ⟨?_, h.kept⟩
        show (s.irqPending ||| bit irq).getLsbD m = true
        rw [BitVec.getLsbD_or, h.set]
        rfl
      · exact h
  | callWait t n =>
      obtain ⟨-, rfl⟩ := Option.ite_some_none_eq_some.mp hstep
      exact ⟨h.set, h.kept⟩
  | test t =>
      simp only [step] at hstep
      split at hstep
      · split_ifs at hstep
        · cases hstep
          exact h
        · cases hstep
          exact ⟨h.set, fun c w hc hw => by cases hc; cases hw⟩
      · cases hstep
  | load =>
      simp only [step] at hstep
      split at hstep
      · cases hstep
        refine ⟨h.set, fun c w hc hw => ?_⟩
        cases hc
        cases hw
        exact .inr h.set
      · cases hstep
  | mask =>
      simp only [step] at hstep
      split at hstep
      · rename_i t n w hc
        cases hstep
        refine ⟨h.set, fun c w' hc' hw' => ?_⟩
        cases hc'
        cases hw'
        rcases h.kept _ w hc rfl with hn | hw
        · exact .inl hn
        · by_cases hne : n = m
          · exact .inl hne
          · exact .inr ((getLsbD_clear hne hm).trans hw)
      · cases hstep
  | store k =>
      simp only [step] at hstep
      split at hstep
      · rename_i t n w hc
        split_ifs at hstep with hk
        cases hstep
        refine ⟨?_, nofun⟩
        rcases h.kept _ w hc rfl with hn | hw
        · exact absurd (congrArg Event.store (hk.symm.trans hn)) he
        · exact hw
      · cases hstep

/-! ### Runs -/

abbrev Runs := Run step fun _ _ => True

/-- A store that is under way takes the bit with it. -/
theorem lost_of_not_kept (hm : m < maxIrqs) (h : ¬ Kept m s) :
    ∃ es s', Runs s es s' ∧ Event.store m ∉ es ∧ s'.irqPending.getLsbD m = false := by
  unfold Kept at h
  simp only [not_forall, not_or, exists_prop] at h
  obtain ⟨⟨t, n, stage⟩, w, hc, hw, hne, hbit⟩ := h
  have hbit : w.getLsbD m = false := Bool.eq_false_iff.mpr hbit
  have hstore : Event.store m ≠ .store n := fun he => hne (Event.store.inj he).symm
  cases stage with
  | start => cases hw
  | loaded w' =>
      cases hw
      let s₁ : State := { s with clearing := some ⟨t, n, .masked (w &&& ~~~bit n)⟩ }
      have hmask : step .mask s = some s₁ := by
        simp only [step, hc]
        rfl
      have hwrite : step (.store n) s₁ = some ⟨w &&& ~~~bit n, Function.update s.waiting t none, none⟩ := if_pos rfl
      refine ⟨[.mask, .store n], _, .snoc (.snoc .nil trivial hmask) trivial hwrite, ?_, ?_⟩
      · intro hmem
        rcases List.mem_cons.mp hmem with he | hmem
        · cases he
        · exact hstore (List.mem_singleton.mp hmem)
      · exact (getLsbD_clear hne hm).trans hbit
  | masked w' =>
      cases hw
      have hwrite : step (.store n) s = some ⟨w, Function.update s.waiting t none, none⟩ := by
        simp only [step, hc]
        rfl
      refine ⟨[.store n], _, .snoc .nil trivial hwrite, fun hmem => hstore (List.mem_singleton.mp hmem), hbit⟩

/-- After a trap for `m`, `(irq-pending? m)` stays true until an `(irq-wait! m)` returns, whatever else happens, if
and only if the trap does not land between the load and the store of an `irq-wait!` for another interrupt (or the
bit was set when the word was loaded). -/
theorem pending_iff_kept (s : State) (h0 : 0 < m) (hm : m < maxIrqs) :
    (∀ s₁ es s', step (.trap m) s = some s₁ → Runs s₁ es s' → Event.store m ∉ es → s'.pending m = true) ↔
      Kept m s := by
  constructor
  · intro h
    by_contra hlost
    obtain ⟨s₁, htrap, hclearing⟩ : ∃ s₁, step (.trap m) s = some s₁ ∧ s₁.clearing = s.clearing := by
      refine ⟨_, rfl, ?_⟩
      rw [if_pos ⟨h0, hm⟩]
    have hlost₁ : ¬ Kept m s₁ := by
      unfold Kept
      rw [hclearing]
      exact hlost
    obtain ⟨es, s', hrun, hmem, hbit⟩ := lost_of_not_kept hm hlost₁
    have hpending := h s₁ es s' htrap hrun hmem
    rw [pending_eq hm, hbit] at hpending
    cases hpending
  · intro hkept s₁ es s' htrap hrun hmem
    have hsafe : Safe m s' := by
      apply hrun.keeps (safe_trap hkept h0 hm htrap)
      intro e s s' he _ hstep hI
      exact safe_step hI hm (fun heq => hmem (heq ▸ he)) hstep
    rw [pending_eq hm]
    exact hsafe.set

/-- A trap for 3 while a task waits for 8. -/
theorem pending_iff_kept_waiting :
    (∀ s₁ es s', step (.trap 3) { init with waiting := Function.update init.waiting 1 (some 8) } = some s₁ →
      Runs s₁ es s' → Event.store 3 ∉ es → s'.pending 3 = true) ↔
        Kept 3 { init with waiting := Function.update init.waiting 1 (some 8) } :=
  pending_iff_kept { init with waiting := Function.update init.waiting 1 (some 8) } (by decide) (by decide)

/-- A trap for 3 between the load and the store of an `irq-wait!` for 8 is lost. -/
theorem not_pending_between :
    ¬ ∀ es s m s₁ es' s', Runs init es s → 0 < m → m < maxIrqs → step (.trap m) s = some s₁ → Runs s₁ es' s' →
      Event.store m ∉ es' → s'.pending m = true := by
  intro h
  have hbefore : Runs init [.trap 8, .callWait 1 8, .test 1, .load] _ := run_of_runEvents rfl
  have hlost := h _ _ 3 _ [.mask, .store 8] _ hbefore (by decide) (by decide) rfl (run_of_runEvents rfl) (by decide)
  cases hlost

end Beeros.IrqPending
