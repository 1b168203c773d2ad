import Beeros.Monitor
import Beeros.VirtioInit

/-! What a virtio device is told while a driver brings it up and uses it, whatever it answers: an automaton reads each
access of its registers. -/

namespace Beeros.VirtioInit

open VirtQueue

variable (mach : Machine)

/-! ### The handshake -/

/-- The selected feature words, those the driver has read and those it has written. -/
structure Negotiation where
  sel : Option Nat
  offered : Nat → Option Nat
  drvSel : Option Nat
  accepted : Nat → Option Nat

def Negotiation.start : Negotiation := ⟨none, fun _ => none, none, fun _ => none⟩

def Negotiation.selectDevice (w : Nat) (n : Negotiation) : Negotiation := { n with sel := some w }

def Negotiation.selectDriver (w : Nat) (n : Negotiation) : Negotiation := { n with drvSel := some w }

def Negotiation.offer (v : Nat) (n : Negotiation) : Negotiation :=
  { n with offered := fun w => if n.sel = some w then some v else n.offered w }

def Negotiation.accept (v : Nat) (n : Negotiation) : Negotiation :=
  { n with accepted := fun w => if n.drvSel = some w then some v else n.accepted w }

/-- Both words are written, and VERSION_1 is accepted. -/
def Negotiation.complete (n : Negotiation) : Bool := (n.accepted 0).isSome && n.accepted 1 == some fVersion1

/-- How far a driver has come with a device. -/
inductive Phase
  | idle
  | reset
  | driver (n : Negotiation)
  /-- The driver has set FEATURES_OK. -/
  | chosen
  /-- The device has kept it. The queue is ready, or not yet. -/
  | agreed (ready : Bool)
  | live
  | failed
  /-- The device reports a failure of its own. -/
  | broken

def Phase.isBroken : Phase → Bool
  | .broken => true
  | _ => false

/-- A status that is neither 0 nor a failure. -/
def Phase.raise (v : Nat) : Phase → Option Phase
  | .reset => if v = stAcknowledge ||| stDriver then some (.driver .start) else none
  | .driver n => if v = stAcknowledge ||| stDriver ||| stFeaturesOk ∧ n.complete then some .chosen else none
  | .agreed true => if v &&& stDriverOk ≠ 0 then some .live else none
  | _ => none

def Phase.setStatus (v : Nat) (p : Phase) : Option Phase :=
  if v = 0 then some .reset
  else if p.isBroken then some .broken
  else if v &&& stFailed ≠ 0 then some .failed
  else p.raise v

def Phase.selectDevice (v : Nat) : Phase → Option Phase
  | .driver n => some (.driver (n.selectDevice v))
  | .broken => some .broken
  | _ => none

def Phase.selectDriver (v : Nat) : Phase → Option Phase
  | .driver n => some (.driver (n.selectDriver v))
  | .broken => some .broken
  | _ => none

/-- Only bits that the device offers are accepted. -/
def Phase.accept (v : Nat) : Phase → Option Phase
  | .driver n =>
      if (n.drvSel.bind n.offered).map (v &&& ·) = some v then some (.driver (n.accept v)) else none
  | .broken => some .broken
  | _ => none

/-- A queue is set up once the device has agreed and before it is ready. -/
def Phase.configure : Phase → Option Phase
  | .agreed false => some (.agreed false)
  | .broken => some .broken
  | _ => none

def Phase.enable (v : Nat) : Phase → Option Phase
  | .agreed false => if v = 1 then some (.agreed true) else none
  | .broken => some .broken
  | _ => none

def Phase.serve : Phase → Option Phase
  | .live => some .live
  | .broken => some .broken
  | _ => none

def Phase.readStatus (v : Nat) : Phase → Phase
  | .idle => .idle
  | .failed => .failed
  | .chosen => if v &&& stFailed ≠ 0 then .broken else if v &&& stFeaturesOk = 0 then .chosen else .agreed false
  | p => if v &&& stFailed ≠ 0 then .broken else p

def Phase.readFeatures (v : Nat) : Phase → Phase
  | .driver n => .driver (n.offer v)
  | p => p

/-- What a device may be told. A read gives what the machine answers. -/
def next (base : Nat) (log : List Event) (p : Phase) : Event → Option Phase
  | .write a v =>
      if a = base + rStatus then p.setStatus v
      else if a = base + rDevFeaturesSel then p.selectDevice v
      else if a = base + rDrvFeaturesSel then p.selectDriver v
      else if a = base + rDrvFeatures then p.accept v
      else if a = base + rQueueReady then p.enable v
      else if a = base + rQueueSel ∨ a = base + rQueueNum ∨
          base + rQueueDesc ≤ a ∧ a ≤ base + (rQueueUsed + 4) then p.configure
      else if a = base + rQueueNotify ∨ a = base + rIntAck then p.serve
      else some p
  | .read a =>
      let v := (mach.reg log a).toNat
      some (if a = base + rStatus then p.readStatus v else if a = base + rDevFeatures then p.readFeatures v else p)
  | .load _ _ | .store _ _ _ | .fence => some p

/-- The device has agreed, unless it is broken. -/
def Phase.Agreed (p : Phase) : Prop := p = .agreed false ∨ p = .broken

def Phase.Ready (p : Phase) : Prop := p = .agreed true ∨ p = .broken

def Phase.Failed (p : Phase) : Prop := p = .failed ∨ p = .broken

def Phase.Live (p : Phase) : Prop := p = .live ∨ p = .broken

section Handshake

open Monitor

variable {mach} {base : Nat} {p p' : Phase} {R : VirtQueue.Error → Phase → Prop}

theorem triple_emit {e : Event} (h : ∀ log, next mach base log p e = some p') :
    Triple (next mach base) State.log p (emit e) (fun _ q => q = p') R := by
  intro s
  refine ⟨[e], p', rfl, (walk_singleton _ _ _).trans (h s.log), ?_, ?_⟩
  · intro a s' _
    rfl
  · intro e' s' he
    cases he

/-- A register other than those before it in `next`. -/
theorem triple_wr {off v : Nat}
    (h : ∀ log, next mach base log p (.write (base + off) (v % 2 ^ 32)) = some p') :
    Triple (next mach base) State.log p (wr base off v) (fun _ q => q = p') R := triple_emit h

theorem triple_wr_lt {off v : Nat} (hv : v < 2 ^ 32)
    (h : ∀ log, next mach base log p (.write (base + off) v) = some p') :
    Triple (next mach base) State.log p (wr base off v) (fun _ q => q = p') R := by
  refine triple_wr fun log => ?_
  rw [Nat.mod_eq_of_lt hv]
  exact h log

/-- A read gives what the machine answers at some time. -/
theorem triple_rd {off : Nat} {Q : Nat → Phase → Prop}
    (h : ∀ log, ∃ q, next mach base log p (.read (base + off)) = some q ∧ Q (mach.reg log (base + off)).toNat q) :
    Triple (next mach base) State.log p (rd mach base off) Q R := by
  intro s
  obtain ⟨q, hq, hQ⟩ := h s.log
  refine ⟨[.read (base + off)], q, rfl, (walk_singleton _ _ _).trans hq, ?_, ?_⟩
  · intro a s' ha
    cases ha
    exact hQ
  · intro e s' he
    cases he

theorem triple_rd_other {off : Nat} (hs : off ≠ rStatus) (hf : off ≠ rDevFeatures) :
    Triple (next mach base) State.log p (rd mach base off) (fun _ q => q = p) R := by
  refine triple_rd fun log => ⟨p, ?_, rfl⟩
  simp [next, hs, hf]

theorem triple_rd_status : Triple (next mach base) State.log p (rd mach base rStatus)
    (fun v q => v < 2 ^ 32 ∧ q = p.readStatus v) R := by
  refine triple_rd fun log => ⟨_, ?_, UInt32.toNat_lt _, rfl⟩
  simp [next]

theorem triple_rd_features : Triple (next mach base) State.log p (rd mach base rDevFeatures)
    (fun v q => v < 2 ^ 32 ∧ q = p.readFeatures v) R := by
  refine triple_rd fun log => ⟨_, ?_, UInt32.toNat_lt _, rfl⟩
  simp [next, rDevFeatures, rStatus]

theorem triple_wr_status {v : Nat} (h : p.setStatus (v % 2 ^ 32) = some p') :
    Triple (next mach base) State.log p (wr base rStatus v) (fun _ q => q = p') R :=
  triple_wr fun log => by simpa [next] using h

theorem triple_configure {off : Nat} (hoff : off = rQueueSel ∨ off = rQueueNum ∨
    rQueueDesc ≤ off ∧ off ≤ rQueueUsed + 4) (v : Nat) (hp : p.Agreed) :
    Triple (next mach base) State.log p (wr base off v) (fun _ q => q = p) R := by
  refine triple_wr fun log => ?_
  have hne : off ≠ rStatus ∧ off ≠ rDevFeaturesSel ∧ off ≠ rDrvFeaturesSel ∧ off ≠ rDrvFeatures ∧
      off ≠ rQueueReady := by
    unfold rQueueSel rQueueNum rQueueDesc rQueueUsed at hoff
    unfold rStatus rDevFeaturesSel rDrvFeaturesSel rDrvFeatures rQueueReady
    omega
  simp only [next, Nat.add_left_cancel_iff, Nat.add_le_add_iff_left, if_neg hne.1, if_neg hne.2.1, if_neg hne.2.2.1,
    if_neg hne.2.2.2.1, if_neg hne.2.2.2.2, if_pos hoff]
  rcases hp with rfl | rfl <;> rfl

theorem triple_enable (hp : p.Agreed) :
    Triple (next mach base) State.log p (wr base rQueueReady 1) (fun _ q => q.Ready) R := by
  have henable : ∃ q, p.enable 1 = some q ∧ q.Ready := by
    rcases hp with rfl | rfl
    · exact ⟨.agreed true, rfl, Or.inl rfl⟩
    · exact ⟨.broken, rfl, Or.inr rfl⟩
  obtain ⟨q, hq, hready⟩ := henable
  have hwr : Triple (next mach base) State.log p (wr base rQueueReady 1) (fun _ q' => q' = q) R :=
    triple_wr_lt (by decide) fun log => by
      simpa [next, rStatus, rDevFeaturesSel, rDrvFeaturesSel, rDrvFeatures, rQueueReady] using hq
  exact hwr.imp (fun _ _ h => h ▸ hready) fun _ _ => id

/-- A driver that gives up says so to the device, unless there is no memory. None gives up a live device, and none
leaves its ring buffer. -/
def Stopped (e : VirtQueue.Error) (p : Phase) : Prop :=
  p ≠ .live ∧ e ≠ .bounds ∧ ∀ base reason, e = .initFailed base reason → p.Failed

theorem or_and_right (a b : Nat) : (a ||| b) &&& b = b := by
  apply Nat.eq_of_testBit_eq
  intro i
  rw [Nat.testBit_and, Nat.testBit_or]
  cases a.testBit i <;> cases b.testBit i <;> rfl

theorem or_mod {v k : Nat} (hv : v < 2 ^ 32) (hk : k < 2 ^ 32) : (v ||| k) % 2 ^ 32 = v ||| k :=
  Nat.mod_eq_of_lt (Nat.or_lt_two_pow hv hk)

theorem setStatus_failed {v : Nat} (hv : v < 2 ^ 32) (p : Phase) :
    ∃ q, p.setStatus ((v ||| stFailed) % 2 ^ 32) = some q ∧ q.Failed := by
  have hfailed := or_and_right v stFailed
  have hne : v ||| stFailed ≠ 0 := by
    intro hzero
    rw [hzero, Nat.zero_and] at hfailed
    cases hfailed
  rw [or_mod hv (by decide), Phase.setStatus, if_neg hne, hfailed]
  cases p.isBroken with
  | true => exact ⟨.broken, rfl, Or.inr rfl⟩
  | false => exact ⟨.failed, rfl, Or.inl rfl⟩

theorem triple_initFailed (reason : String) {Q : Unit → Phase → Prop} :
    Triple (next mach base) State.log p (initFailed mach base reason) Q Stopped := by
  refine triple_rd_status.bind fun v q hv => ?_
  obtain ⟨q', hset, hq'⟩ := setStatus_failed hv.1 q
  refine (triple_wr_status hset).before fun _ => ?_
  refine triple_throw ⟨?_, VirtQueue.Error.noConfusion, fun _ _ _ => hq'⟩
  rcases hq' with rfl | rfl <;> exact Phase.noConfusion

/-- A driver goes on if a check does not fail. -/
theorem triple_check {α : Type} {c : Prop} [Decidable c] {reason : String} {k : Unit → Prog α} {k' : Prog α}
    {Q : α → Phase → Prop} (h : ¬c → Triple (next mach base) State.log p k' Q Stopped) :
    Triple (next mach base) State.log p (if c then initFailed mach base reason >>= k else k') Q Stopped :=
  Triple.ite (fun _ => (triple_initFailed reason (Q := fun _ _ => False)).bind fun _ _ hfalse => hfalse.elim) h

section Features

variable {n : Negotiation} {w v o : Nat}

theorem triple_selectDevice (hw : w < 2 ^ 32) :
    Triple (next mach base) State.log (.driver n) (wr base rDevFeaturesSel w)
      (fun _ q => q = .driver (n.selectDevice w)) R :=
  triple_wr_lt hw fun log => by simp [next, rDevFeaturesSel, rStatus, Phase.selectDevice]

theorem triple_deviceFeatures (hw : w < 2 ^ 32) :
    Triple (next mach base) State.log (.driver n) (deviceFeatures mach base w)
      (fun v q => v < 2 ^ 32 ∧ q = .driver ((n.selectDevice w).offer v)) R := by
  exact (triple_selectDevice hw).before fun _ => triple_rd_features

theorem triple_selectDriver (hw : w < 2 ^ 32) :
    Triple (next mach base) State.log (.driver n) (wr base rDrvFeaturesSel w)
      (fun _ q => q = .driver (n.selectDriver w)) R :=
  triple_wr_lt hw fun log => by simp [next, rDevFeaturesSel, rDrvFeaturesSel, rStatus, Phase.selectDriver]

/-- A driver accepts bits that it has read. -/
theorem triple_accept (hv : v < 2 ^ 32) (hw : n.drvSel = some w) (ho : n.offered w = some o) (hsub : v &&& o = v) :
    Triple (next mach base) State.log (.driver n) (wr base rDrvFeatures v)
      (fun _ q => q = .driver (n.accept v)) R :=
  triple_wr_lt hv fun log => by
    simp [next, rDevFeaturesSel, rDrvFeaturesSel, rDrvFeatures, rStatus, Phase.accept, hw, ho, hsub]

theorem triple_choose (hn : n.complete = true) :
    Triple (next mach base) State.log (.driver n) (wr base rStatus (stAcknowledge ||| stDriver ||| stFeaturesOk))
      (fun _ q => q = .chosen) R := by
  refine triple_wr_status ?_
  show (Phase.driver n).raise (stAcknowledge ||| stDriver ||| stFeaturesOk) = some .chosen
  exact if_pos ⟨rfl, hn⟩

end Features

theorem and_and_right (a b : Nat) : (a &&& b) &&& a = a &&& b := by
  apply Nat.eq_of_testBit_eq
  intro i
  rw [Nat.testBit_and, Nat.testBit_and]
  cases a.testBit i <;> cases b.testBit i <;> rfl

theorem version_sub {v : Nat} (h : ¬v &&& fVersion1 = 0) : fVersion1 &&& v = fVersion1 := by
  unfold fVersion1 at h ⊢
  rw [Nat.and_one_is_mod] at h
  rw [Nat.and_comm, Nat.and_one_is_mod]
  omega

/-- The device keeps FEATURES_OK, or it does not. -/
theorem readStatus_chosen {v : Nat} (hv : ¬v &&& stFeaturesOk = 0) : (Phase.readStatus v .chosen).Agreed := by
  show (if _ then _ else if _ then _ else _ : Phase).Agreed
  rw [if_neg hv]
  split_ifs
  · exact Or.inr rfl
  · exact Or.inl rfl

theorem triple_negotiate (want0 : Nat) :
    Triple (next mach base) State.log p (negotiate mach base want0) (fun _ q => q.Agreed) Stopped := by
  have hreset : p.setStatus (0 % 2 ^ 32) = some .reset := rfl
  refine (triple_wr_status hreset).before fun _ => ?_
  have hdriver : Phase.reset.setStatus ((stAcknowledge ||| stDriver) % 2 ^ 32) =
      some (.driver .start) := rfl
  refine (triple_wr_status hdriver).before fun _ => ?_
  refine (triple_deviceFeatures (by decide)).bind fun v1 q hv1 => ?_
  rw [hv1.2]
  refine triple_check fun hversion => ?_
  refine (triple_deviceFeatures (by decide)).bind fun v0 q hv0 => ?_
  rw [hv0.2]
  refine (triple_selectDriver (by decide)).before fun _ => ?_
  refine (triple_accept (Nat.lt_of_le_of_lt Nat.and_le_left hv0.1) rfl ?hoffered0 (and_and_right v0 want0)).before
    fun _ => ?_
  case hoffered0 => rfl
  refine (triple_selectDriver (by decide)).before fun _ => ?_
  refine (triple_accept (by decide) rfl ?hoffered (version_sub hversion)).before fun _ => ?_
  case hoffered => rfl
  refine (triple_choose rfl).before fun _ => ?_
  refine triple_rd_status.bind fun v q' hv => ?_
  rw [hv.2]
  refine triple_check fun hkept => ?_
  exact triple_pure (readStatus_chosen hkept)

theorem readStatus_ready (hp : p.Ready) (v : Nat) :
    p.readStatus v = .broken ∨ p.readStatus v = .agreed true ∧ v &&& stFailed = 0 := by
  rcases hp with rfl | rfl
  · show (if _ then _ else _ : Phase) = _ ∨ (if _ then _ else _ : Phase) = _ ∧ _
    split_ifs with hfailed
    · exact Or.inl rfl
    · exact Or.inr ⟨rfl, not_ne_iff.mp hfailed⟩
  · exact Or.inl (ite_self _)

/-- A device that agreed comes alive. -/
theorem setStatus_live {v : Nat} (hne : v &&& stDriverOk ≠ 0)
    (hp : p = .broken ∨ p = .agreed true ∧ v &&& stFailed = 0) : ∃ q, p.setStatus v = some q ∧ q.Live := by
  have hzero : v ≠ 0 := by
    rintro rfl
    exact hne (Nat.zero_and _)
  rw [Phase.setStatus, if_neg hzero]
  rcases hp with rfl | ⟨rfl, hfailed⟩
  · exact ⟨.broken, rfl, Or.inr rfl⟩
  · refine ⟨.live, ?_, Or.inl rfl⟩
    have hraise : (Phase.agreed true).raise v = some .live := if_pos hne
    have hbroken : (Phase.agreed true).isBroken = false := rfl
    rw [hbroken, if_neg Bool.false_ne_true, if_neg (not_not.mpr hfailed), hraise]

theorem triple_driverOk (hp : p.Ready) :
    Triple (next mach base) State.log p (driverOk mach base) (fun _ q => q.Live) R := by
  refine triple_rd_status.bind fun v q hv => ?_
  have hok : (v ||| stDriverOk) &&& stDriverOk ≠ 0 := by
    rw [or_and_right]
    decide
  have hstate : q = .broken ∨ q = .agreed true ∧ (v ||| stDriverOk) &&& stFailed = 0 := by
    rw [hv.2]
    refine (readStatus_ready hp v).imp_right fun hagreed => ⟨hagreed.1, ?_⟩
    rw [Nat.and_or_distrib_right, hagreed.2]
    rfl
  obtain ⟨q', hset, hlive⟩ := setStatus_live hok hstate
  rw [← or_mod hv.1 (by decide)] at hset
  refine (triple_wr_status hset).imp (fun _ q hq => ?_) fun _ _ => id
  rw [hq]
  exact hlive

/-! ### Queues -/

theorem triple_wrAddr {off : Nat} (hoff : rQueueDesc ≤ off ∧ off ≤ rQueueUsed) (addr : Nat) (hp : p.Agreed) :
    Triple (next mach base) State.log p (wrAddr base off addr) (fun _ q => q = p) R := by
  have hlow : off ≤ rQueueUsed + 4 := Nat.le_add_right_of_le hoff.2
  refine (triple_configure (Or.inr (Or.inr ⟨hoff.1, hlow⟩)) _ hp).before fun _ => ?_
  have hhigh : rQueueDesc ≤ off + 4 := Nat.le_add_right_of_le hoff.1
  exact triple_configure (Or.inr (Or.inr ⟨hhigh, Nat.add_le_add_right hoff.2 4⟩)) _ hp

theorem Stopped.outOfMemory (hp : p.Agreed) : Stopped .outOfMemory p := by
  refine ⟨?_, VirtQueue.Error.noConfusion, fun _ _ => VirtQueue.Error.noConfusion⟩
  rcases hp with rfl | rfl <;> exact Phase.noConfusion

theorem triple_allocAligned (hp : p.Agreed) (n align : Nat) :
    Triple (next mach base) State.log p (allocAligned mach n align) (fun _ q => q = p) Stopped := by
  have hbuf : Triple (next mach base) State.log p (bytesAlloc mach (n + align)) (fun _ q => q = p) Stopped := by
    refine triple_silent (fun s => ?_) (fun _ _ _ _ => rfl) fun e s s' he => ?_
    · unfold bytesAlloc
      cases mach.place (n + align) <;> rfl
    · unfold bytesAlloc at he
      cases hplace : mach.place (n + align) with
      | some addr =>
          rw [hplace] at he
          cases he
      | none =>
          rw [hplace] at he
          cases he
          exact Stopped.outOfMemory hp
  refine hbuf.before fun _ => ?_
  exact triple_pure rfl

theorem triple_setupQueue (hp : p.Agreed) (qidx qsize extra : Nat) :
    Triple (next mach base) State.log p (setupQueue mach base qidx qsize extra)
      (fun q p' => (q.base = base ∧ p'.Ready) ∧ q.LaidOut qsize extra) Stopped := by
  refine Triple.and_ok ?_ fun _ _ _ => setupQueue_laidOut
  refine (triple_configure (Or.inl rfl) _ hp).before fun _ => ?_
  refine (triple_rd_other (by decide) (by decide)).before fun numMax => ?_
  refine triple_check fun _ => ?_
  refine (triple_allocAligned hp _ _).before fun ring => ?_
  have hseen : Triple (next mach base) State.log p (modify fun s => { s with usedSeen := 0 } : Prog Unit)
      (fun _ q => q = p) Stopped := by
    refine triple_silent (fun s => rfl) (fun _ _ _ _ => rfl) fun e s s' he => ?_
    cases he
  refine hseen.before fun _ => ?_
  refine (triple_configure (Or.inr (Or.inl rfl)) _ hp).before fun _ => ?_
  refine (triple_wrAddr (by decide) _ hp).before fun _ => ?_
  refine (triple_wrAddr (by decide) _ hp).before fun _ => ?_
  refine (triple_wrAddr (by decide) _ hp).before fun _ => ?_
  refine (triple_enable hp).bind fun _ q hq => ?_
  exact triple_pure ⟨rfl, hq⟩

/-- The loop of `capacity` reads registers. -/
theorem triple_capacity (fuel : Nat) : Triple (next mach base) State.log p (capacity mach base fuel)
    (fun _ q => q = p) R := by
  induction fuel with
  | zero => exact triple_pure rfl
  | succ fuel ih =>
      refine (triple_rd_other (by decide) (by decide)).before fun gen => ?_
      refine (triple_rd_other (by decide) (by decide)).before fun lo => ?_
      refine (triple_rd_other (by decide) (by decide)).before fun hi => ?_
      refine (triple_rd_other (by decide) (by decide)).before fun gen' => ?_
      exact Triple.ite (fun _ => triple_pure rfl) fun _ => ih

/-! ### What drivers do with a queue -/

theorem triple_store (b : ByteBuffer) (width off v : Nat) :
    Triple (next mach base) State.log p (store mach b width off v) (fun _ q => q = p) fun _ _ => True := by
  intro s
  unfold store
  split_ifs with hroom
  · refine ⟨[.store off width v], p, rfl, rfl, fun _ _ _ => rfl, fun _ _ _ => trivial⟩
  · refine ⟨[], p, (List.append_nil _).symm, rfl, fun _ _ _ => rfl, fun _ _ _ => trivial⟩

theorem triple_loadBounds (b : ByteBuffer) (width off : Nat) :
    Triple (next mach base) State.log p (load mach b width off) (fun _ q => q = p) fun e q => e = .bounds ∧ q = p := by
  intro s
  unfold load
  split_ifs with hroom
  · refine ⟨[.load off width], p, rfl, rfl, fun _ _ _ => rfl, fun e s' he => ?_⟩
    cases he
  · refine ⟨[], p, (List.append_nil _).symm, rfl, fun _ _ _ => rfl, fun e s' he => ?_⟩
    cases he
    exact ⟨rfl, rfl⟩

theorem triple_load (b : ByteBuffer) (width off : Nat) :
    Triple (next mach base) State.log p (load mach b width off) (fun _ q => q = p) fun _ _ => True :=
  (triple_loadBounds b width off).imp (fun _ _ => id) fun _ _ _ => trivial

theorem triple_fence : Triple (next mach base) State.log p fence (fun _ q => q = p) R := triple_emit fun _ => rfl

/-- Notifications and acknowledgements go to a live device. -/
theorem triple_serve {off : Nat} (hoff : off = rQueueNotify ∨ off = rIntAck) (v : Nat) (hp : p.Live) :
    Triple (next mach base) State.log p (wr base off v) (fun _ q => q = p) R := by
  refine triple_wr fun log => ?_
  rcases hoff with rfl | rfl
  · rcases hp with rfl | rfl <;> simp [next, Phase.serve, rQueueNotify, rStatus, rDevFeaturesSel, rDrvFeaturesSel,
      rDrvFeatures, rQueueSel, rQueueNum, rQueueReady, rQueueDesc]
  · rcases hp with rfl | rfl <;> simp [next, Phase.serve, rIntAck, rStatus, rDevFeaturesSel, rDrvFeaturesSel,
      rDrvFeatures, rQueueSel, rQueueNum, rQueueReady, rQueueDesc]

section Queue

variable {q : Queue}

theorem triple_setDesc (i addr len flags nxt : Nat) :
    Triple (next mach base) State.log p (setDesc mach q i addr len flags nxt) (fun _ q => q = p) fun _ _ => True := by
  refine (triple_store _ _ _ _).before fun _ => ?_
  refine (triple_store _ _ _ _).before fun _ => ?_
  refine (triple_store _ _ _ _).before fun _ => ?_
  exact triple_store _ _ _ _

variable (hbase : q.base = base) (hp : p.Live)

include hbase hp

theorem triple_publish (heads : List Nat) :
    Triple (next mach base) State.log p (publish mach q heads) (fun _ q => q = p) fun _ _ => True := by
  refine (triple_load _ _ _).before fun idx => ?_
  induction heads generalizing idx with
  | nil =>
      refine triple_fence.before fun _ => ?_
      refine (triple_store _ _ _ _).before fun _ => ?_
      refine triple_fence.before fun _ => ?_
      rw [hbase]
      exact triple_serve (Or.inl rfl) _ hp
  | cons head heads ih => exact (triple_store _ _ _ _).before fun _ => ih _

theorem triple_takeUsed :
    Triple (next mach base) State.log p (takeUsed mach q) (fun _ q => q = p) fun _ _ => True := by
  have hget : Triple (next mach base) State.log p (get : Prog State) (fun _ q => q = p) fun _ _ => True :=
    triple_silent (fun _ => rfl) (fun _ _ _ _ => rfl) fun _ _ _ _ => trivial
  refine hget.before fun s => ?_
  refine (triple_load _ _ _).before fun idx => ?_
  refine Triple.ite (fun _ => ?_) fun _ => triple_pure rfl
  refine triple_fence.before fun _ => ?_
  have hseen : Triple (next mach base) State.log p
      (modify fun t => { t with usedSeen := (s.usedSeen + 1) &&& 0xffff } : Prog Unit)
      (fun _ q => q = p) fun _ _ => True :=
    triple_silent (fun _ => rfl) (fun _ _ _ _ => rfl) fun _ _ _ _ => trivial
  refine hseen.before fun _ => ?_
  rw [hbase]
  refine (triple_rd_other (by decide) (by decide)).before fun status => ?_
  refine (triple_serve (Or.inr rfl) _ hp).before fun _ => ?_
  refine (triple_load _ _ _).before fun id => ?_
  refine (triple_load _ _ _).before fun len => ?_
  exact triple_pure rfl

end Queue

theorem triple_store_fits {b : ByteBuffer} {width off : Nat} (h : off + width ≤ b.capacity) (v : Nat) :
    Triple (next mach base) State.log p (store mach b width off v) (fun _ q => q = p) R :=
  (triple_store b width off v).total fun _ => ⟨_, _, if_pos h⟩

theorem triple_load_fits {b : ByteBuffer} {width off : Nat} (h : off + width ≤ b.capacity) :
    Triple (next mach base) State.log p (load mach b width off) (fun _ q => q = p) R :=
  (triple_load b width off).total fun _ => ⟨_, _, if_pos h⟩

theorem confined_total {α : Type} {r : Region} {m : Prog α} (h : Confined r m) (s : State) :
    ∃ a s', m s = .ok a s' := by
  obtain ⟨a, s', _, hok, -⟩ := h s
  exact ⟨a, s', hok⟩

/-! ### Block requests -/

/-- A queue of the block driver, on this device. -/
structure BlkQueue (base : Nat) (q : Queue) : Prop where
  base : q.base = base
  size : q.size = 2 ^ 3
  desc : q.descTable.start + q.descTable.size ≤ q.ring.capacity
  avail : q.availRing.start + q.availRing.size ≤ q.ring.capacity
  used : q.usedRing.start + q.usedRing.size ≤ q.ring.capacity
  extra : extraOff q blkExtra ≤ q.ring.capacity

theorem blkQueue_of_laidOut {q : Queue} (hbase : q.base = base) (h : q.LaidOut blkQsize blkExtra) :
    BlkQueue base q := by
  have hinside := h.inside
  simp only [Queue.regions, List.forall_mem_cons] at hinside
  obtain ⟨hdesc, havail, hused, hextra, -⟩ := hinside
  exact ⟨hbase, h.size, hdesc, havail, hused, hextra⟩

section Requests

variable {q : Queue} (hq : BlkQueue base q)

include hq

theorem triple_blkDesc {i : Nat} (hi : i < 2 ^ 3) (addr len flags nxt : Nat) :
    Triple (next mach base) State.log p (setDesc mach q i addr len flags nxt) (fun _ q => q = p) R :=
  (triple_setDesc _ _ _ _ _).total (confined_total (setDesc_confined hq.desc (hq.size ▸ hi) _ _ _ _))

theorem triple_extraStore {width o : Nat} (ho : o + width ≤ blkExtra) (v : Nat) :
    Triple (next mach base) State.log p (store mach q.ring width (extraOff q o) v) (fun _ q => q = p) R := by
  refine triple_store_fits ?_ v
  have hextra := hq.extra
  unfold extraOff at hextra ⊢
  omega

theorem triple_setHeader (type lba : Nat) :
    Triple (next mach base) State.log p (setHeader mach q type lba) (fun _ q => q = p) R := by
  refine (triple_extraStore hq (by decide) _).before fun _ => ?_
  refine (triple_extraStore hq (o := 4) (by decide) _).before fun _ => ?_
  exact triple_extraStore hq (o := 8) (by decide) _

variable (hp : p.Live)

include hp

theorem triple_submitLoop (rounds : Nat) :
    Triple (next mach base) State.log p (submitLoop mach q rounds) (fun _ q => q = p) R := by
  induction rounds with
  | zero => exact triple_pure rfl
  | succ rounds ih =>
      have htake : Triple (next mach base) State.log p (takeUsed mach q) (fun _ q => q = p) R :=
        (triple_takeUsed hq.base hp).total (confined_total (takeUsed_confined hq.used hq.size))
      refine htake.before fun u => ?_
      refine Triple.ite (fun _ => ?_) fun _ => ih
      have hextra := hq.extra
      refine (triple_load_fits ?_).before fun _ => triple_pure rfl
      unfold extraOff blkExtra at hextra
      unfold extraOff xStatus
      omega

theorem triple_submit (rounds : Nat) :
    Triple (next mach base) State.log p (submit mach q rounds) (fun _ q => q = p) R := by
  refine (triple_extraStore hq (by decide) _).before fun _ => ?_
  have hpublish : Triple (next mach base) State.log p (publish mach q [0]) (fun _ q => q = p) R :=
    (triple_publish hq.base hp [0]).total (confined_total (publish_confined hq.avail hq.size [0]))
  exact hpublish.before fun _ => triple_submitLoop hq hp _

theorem triple_request (d : BlkDevice) (rounds : Nat) (r : Request) :
    Triple (next mach base) State.log p (r.run mach d q rounds) (fun _ q => q = p) R := by
  cases r with
  | rw write lba n buf off =>
      refine Triple.ite (fun _ => triple_pure rfl) fun _ => ?_
      refine Triple.ite (fun _ => triple_pure rfl) fun _ => ?_
      refine Triple.ite (fun _ => triple_pure rfl) fun _ => ?_
      refine (triple_setHeader hq _ _).before fun _ => ?_
      refine (triple_blkDesc hq (by decide) _ _ _ _).before fun _ => ?_
      refine (triple_blkDesc hq (by decide) _ _ _ _).before fun _ => ?_
      refine (triple_blkDesc hq (by decide) _ _ _ _).before fun _ => ?_
      exact triple_submit hq hp rounds
  | flush =>
      refine Triple.ite (fun _ => ?_) fun _ => triple_pure rfl
      refine (triple_setHeader hq _ _).before fun _ => ?_
      refine (triple_blkDesc hq (by decide) _ _ _ _).before fun _ => ?_
      refine (triple_blkDesc hq (by decide) _ _ _ _).before fun _ => ?_
      exact triple_submit hq hp rounds

end Requests

theorem triple_blkInit (fuel : Nat) : Triple (next mach base) State.log p (blkInit mach fuel base)
    (fun r q => q.Live ∧ ∀ d queue, r = some (d, queue) → BlkQueue base queue) Stopped := by
  refine (triple_negotiate _).bind fun f0 q hq => ?_
  refine (triple_setupQueue hq _ _ _).bind fun queue q' hqueue => ?_
  have hblk := blkQueue_of_laidOut hqueue.1.1 hqueue.2
  refine (triple_driverOk hqueue.1.2).bind fun _ q' hlive => ?_
  refine (triple_capacity fuel).before fun sectors => ?_
  cases sectors with
  | none =>
      refine triple_pure ⟨hlive, fun d queue h => ?_⟩
      cases h
  | some sectors =>
      refine triple_pure ⟨hlive, fun d queue h => ?_⟩
      cases h
      exact hblk

theorem triple_blkSession (fuel : Nat) (requests : List (Request × Nat)) :
    Triple (next mach base) State.log p (blkSession mach fuel base requests) (fun _ q => q.Live) Stopped := by
  refine (triple_blkInit fuel).bind fun r q hr => ?_
  cases r with
  | none => exact triple_pure hr.1
  | some r =>
      have hblk := hr.2 r.1 r.2 rfl
      refine triple_forM (fun request _ p hp => ?_) hr.1
      exact (triple_request hblk hp r.1 request.2 request.1).bind fun _ q hq => triple_pure (hq ▸ hp)

/-! ### `init_device` -/

/-- What the device has been told when `init_device` returns. -/
def Answer.Told (p : Phase) : Answer → Prop
  | .ready _ => p.Live
  | .failed => p.Failed
  | .reading => p.Ready

theorem triple_initDeviceFail {st : Nat} (hst : st < 2 ^ 32) :
    Triple (next mach base) State.log p (initDeviceFail base st) (fun r q => r.Told q) R := by
  obtain ⟨q, hset, hq⟩ := setStatus_failed hst p
  refine (triple_wr_status hset).before fun _ => ?_
  exact triple_pure hq

theorem triple_initDeviceQueue (hp : p.Agreed) (fuel : Nat) (rings : Rings) (want0 : Nat) :
    Triple (next mach base) State.log p (initDeviceQueue mach fuel base rings want0
      (stAcknowledge ||| stDriver ||| stFeaturesOk)) (fun r q => r.Told q) R := by
  refine (triple_configure (Or.inl rfl) _ hp).before fun _ => ?_
  refine (triple_rd_other (by decide) (by decide)).before fun ready => ?_
  refine Triple.ite (fun _ => triple_initDeviceFail (by decide)) fun _ => ?_
  refine (triple_rd_other (by decide) (by decide)).before fun numMax => ?_
  refine Triple.ite (fun _ => triple_initDeviceFail (by decide)) fun _ => ?_
  refine (triple_configure (Or.inr (Or.inl rfl)) _ hp).before fun _ => ?_
  refine (triple_wrAddr (by decide) _ hp).before fun _ => ?_
  refine (triple_wrAddr (by decide) _ hp).before fun _ => ?_
  refine (triple_wrAddr (by decide) _ hp).before fun _ => ?_
  refine (triple_enable hp).bind fun _ q hready => ?_
  refine (triple_capacity fuel).before fun sectors => ?_
  cases sectors with
  | none => exact triple_pure hready
  | some sectors =>
      have hstate : q = .broken ∨
          q = .agreed true ∧ (stAcknowledge ||| stDriver ||| stFeaturesOk ||| stDriverOk) &&& stFailed = 0 :=
        hready.symm.imp_right fun h => ⟨h, rfl⟩
      obtain ⟨q, hset, hlive⟩ := setStatus_live (by decide) hstate
      refine (triple_wr_status hset).before fun _ => ?_
      exact triple_pure hlive

theorem triple_initDevice (fuel : Nat) (rings : Rings) :
    Triple (next mach base) State.log p (initDevice mach fuel base rings) (fun r q => r.Told q) R := by
  have hreset : p.setStatus (0 % 2 ^ 32) = some .reset := rfl
  refine (triple_wr_status hreset).before fun _ => ?_
  have hdriver : Phase.reset.setStatus ((stAcknowledge ||| stDriver) % 2 ^ 32) =
      some (.driver .start) := rfl
  refine (triple_wr_status hdriver).before fun _ => ?_
  refine (triple_selectDevice (by decide)).before fun _ => ?_
  refine triple_rd_features.bind fun v0 q hv0 => ?_
  rw [hv0.2]
  refine (triple_selectDevice (by decide)).before fun _ => ?_
  refine triple_rd_features.bind fun v1 q hv1 => ?_
  rw [hv1.2]
  refine Triple.ite (fun _ => triple_initDeviceFail (by decide)) fun hversion => ?_
  refine (triple_selectDriver (by decide)).before fun _ => ?_
  refine (triple_accept (Nat.lt_of_le_of_lt Nat.and_le_left hv0.1) rfl ?hoffered0 (and_and_right v0 _)).before
    fun _ => ?_
  case hoffered0 => rfl
  refine (triple_selectDriver (by decide)).before fun _ => ?_
  refine (triple_accept (by decide) rfl ?hoffered1 (version_sub hversion)).before fun _ => ?_
  case hoffered1 => rfl
  refine (triple_choose rfl).before fun _ => ?_
  refine triple_rd_status.bind fun v q' hv => ?_
  rw [hv.2]
  refine Triple.ite (fun _ => triple_initDeviceFail (by decide)) fun hkept => ?_
  exact triple_initDeviceQueue (readStatus_chosen hkept) fuel rings _

/-! ### Input devices -/

theorem triple_cfg8 (off : Nat) :
    Triple (next mach base) State.log p (cfg8 mach base off) (fun _ q => q = p) R := by
  have hoff : rStatus < rConfig + off ∧ rDevFeatures < rConfig + off := by
    unfold rStatus rDevFeatures rConfig
    omega
  exact (triple_rd_other hoff.1.ne' hoff.2.ne').before fun _ => triple_pure rfl

theorem triple_cfg32 (off : Nat) :
    Triple (next mach base) State.log p (cfg32 mach base off) (fun _ q => q = p) R := by
  have hoff : rStatus < rConfig + off ∧ rDevFeatures < rConfig + off := by
    unfold rStatus rDevFeatures rConfig
    omega
  exact triple_rd_other hoff.1.ne' hoff.2.ne'

/-- Config space is the device's own. -/
theorem triple_cfg8Set (off v : Nat) :
    Triple (next mach base) State.log p (cfg8Set base off v) (fun _ q => q = p) R := by
  refine triple_emit fun log => ?_
  have hoff : rQueueUsed + 4 < rConfig + off := by
    unfold rQueueUsed rConfig
    omega
  unfold rQueueUsed at hoff
  simp only [next, Nat.add_left_cancel_iff, Nat.add_le_add_iff_left, rStatus, rDevFeaturesSel, rDrvFeaturesSel,
    rDrvFeatures, rQueueSel, rQueueNum, rQueueReady, rQueueDesc, rQueueUsed, rQueueNotify, rIntAck]
  rw [if_neg (by omega), if_neg (by omega), if_neg (by omega), if_neg (by omega), if_neg (by omega),
    if_neg (by omega), if_neg (by omega)]

theorem triple_cfgQuery (sel sub : Nat) :
    Triple (next mach base) State.log p (cfgQuery mach base sel sub) (fun _ q => q = p) R := by
  refine (triple_cfg8Set _ _).before fun _ => ?_
  refine (triple_cfg8Set _ _).before fun _ => ?_
  exact triple_cfg8 _

theorem triple_supports (evType : Nat) :
    Triple (next mach base) State.log p (supports mach base evType) (fun _ q => q = p) R :=
  (triple_cfgQuery _ _).before fun _ => triple_pure rfl

theorem triple_absMax (axis : Nat) :
    Triple (next mach base) State.log p (absMax mach base axis) (fun _ q => q = p) R := by
  refine (triple_cfgQuery _ _).before fun n => ?_
  exact Triple.ite (fun _ => triple_cfg32 _) fun _ => triple_pure rfl

theorem triple_inputKind : Triple (next mach base) State.log p (inputKind mach base) (fun _ q => q = p) R := by
  refine (triple_supports _).before fun abs => ?_
  refine Triple.ite (fun _ => triple_pure rfl) fun _ => ?_
  refine (triple_supports _).before fun rel => ?_
  exact Triple.ite (fun _ => triple_pure rfl) fun _ => triple_pure rfl

theorem triple_cfgBytes (is : List Nat) :
    Triple (next mach base) State.log p (cfgBytes mach base is) (fun _ q => q = p) R := by
  induction is with
  | nil => exact triple_pure rfl
  | cons i is ih =>
      refine (triple_cfg8 _).before fun b => ?_
      exact ih.before fun bs => triple_pure rfl

theorem triple_cfgString (hp : p.Agreed) (sel sub : Nat) :
    Triple (next mach base) State.log p (cfgString mach base sel sub) (fun _ q => q = p) Stopped := by
  refine (triple_cfgQuery _ _).before fun n => ?_
  refine Triple.ite (fun _ => ?_) fun _ => ?_
  · exact (triple_throw (Q := fun _ q => q = p) (Stopped.outOfMemory hp)).before fun _ =>
      (triple_cfgBytes _).before fun _ => triple_pure rfl
  · exact (triple_cfgBytes _).before fun _ => triple_pure rfl

/-- A queue of the input driver, on this device. -/
structure InputQueue (base : Nat) (q : Queue) : Prop where
  base : q.base = base
  size : q.size = 2 ^ 6
  desc : q.descTable.start + q.descTable.size ≤ q.ring.capacity
  avail : q.availRing.start + q.availRing.size ≤ q.ring.capacity
  used : q.usedRing.start + q.usedRing.size ≤ q.ring.capacity

theorem inputQueue_of_laidOut {q : Queue} (hbase : q.base = base)
    (h : q.LaidOut inputQsize (inputQsize * evSize)) : InputQueue base q := by
  have hinside := h.inside
  simp only [Queue.regions, List.forall_mem_cons] at hinside
  obtain ⟨hdesc, havail, hused, -⟩ := hinside
  exact ⟨hbase, h.size, hdesc, havail, hused⟩

section Polls

variable {q : Queue} (hq : InputQueue base q) (hp : p.Live)

include hq hp

theorem triple_inputPublish (heads : List Nat) :
    Triple (next mach base) State.log p (publish mach q heads) (fun _ q => q = p) R :=
  (triple_publish hq.base hp heads).total (confined_total (publish_confined hq.avail hq.size heads))

theorem triple_postAll : Triple (next mach base) State.log p (postAll mach q) (fun _ q => q = p) R := by
  have hdescs : Triple (next mach base) State.log p ((List.range inputQsize).forM fun i =>
      setDesc mach q i (qAddr q (q.extra + i * evSize)) evSize 2 0) (fun _ q => q = p) R := by
    refine triple_forM (fun i hi p' hp' => ?_) rfl
    have hsize : i < q.size := hq.size ▸ List.mem_range.mp hi
    have hdesc : Triple (next mach base) State.log p' (setDesc mach q i (qAddr q (q.extra + i * evSize)) evSize 2 0)
        (fun _ q => q = p') R :=
      (triple_setDesc _ _ _ _ _).total (confined_total (setDesc_confined hq.desc hsize _ _ _ _))
    exact hdesc.imp (fun _ _ h => h.trans hp') fun _ _ => id
  exact hdescs.before fun _ => triple_inputPublish hq hp _

/-- The device names the buffers, and may name one that is not there. -/
theorem triple_pollFrom (rounds : Nat) (done : List Nat) :
    Triple (next mach base) State.log p (pollFrom mach q rounds done) (fun _ q => q = p)
      fun e q => e = .bounds ∧ q = p := by
  induction rounds generalizing done with
  | zero => exact triple_pure rfl
  | succ rounds ih =>
      have htake : Triple (next mach base) State.log p (takeUsed mach q) (fun _ q => q = p)
          fun e q => e = .bounds ∧ q = p :=
        (triple_takeUsed hq.base hp).total (confined_total (takeUsed_confined hq.used hq.size))
      refine htake.before fun u => ?_
      cases u with
      | none =>
          refine Triple.ite (fun _ => ?_) fun _ => triple_pure rfl
          exact (triple_inputPublish hq hp done).before fun _ => triple_pure rfl
      | some u =>
          refine (triple_loadBounds _ _ _).before fun type => ?_
          refine (triple_loadBounds _ _ _).before fun code => ?_
          refine (triple_loadBounds _ _ _).before fun value => ?_
          exact (ih _).before fun rest => triple_pure rfl

end Polls

theorem triple_inputInit : Triple (next mach base) State.log p (inputInit mach base)
    (fun d q => q.Live ∧ InputQueue base d.q) Stopped := by
  refine (triple_negotiate 0).bind fun f0 q hq => ?_
  refine triple_inputKind.before fun kind => ?_
  refine (triple_cfgString hq _ _).before fun product => ?_
  have habs : Triple (next mach base) State.log q (inputAbsMax mach base kind) (fun _ q' => q' = q) Stopped := by
    refine Triple.ite (fun _ => ?_) fun _ => triple_pure rfl
    refine (triple_absMax _).before fun x => ?_
    exact (triple_absMax _).before fun y => triple_pure rfl
  refine habs.before fun abs => ?_
  refine (triple_setupQueue hq _ _ _).bind fun queue q' hqueue => ?_
  have hinput := inputQueue_of_laidOut hqueue.1.1 hqueue.2
  refine (triple_driverOk hqueue.1.2).bind fun _ q' hlive => ?_
  refine (triple_postAll hinput hlive).before fun _ => ?_
  exact triple_pure ⟨hlive, hinput⟩

/-- Only a poll leaves the ring buffer, and the device is still live then. -/
def PollStopped (e : VirtQueue.Error) (p : Phase) : Prop := Stopped e p ∨ e = .bounds ∧ p.Live

theorem triple_inputSession (polls : List Nat) :
    Triple (next mach base) State.log p (inputSession mach base polls) (fun _ q => q.Live) PollStopped := by
  refine (triple_inputInit.imp (fun _ _ => id) fun _ _ => Or.inl).bind fun d q hd => ?_
  refine triple_forM (fun rounds _ p hp => ?_) hd.1
  have hpoll : Triple (next mach base) State.log p (pollFrom mach d.q rounds []) (fun _ q => q = p)
      fun e q => e = .bounds ∧ q = p := triple_pollFrom hd.2 hp rounds []
  refine (hpoll.imp (fun _ _ => id) fun e q he => ?_).bind fun _ q hq => triple_pure (hq ▸ hp)
  exact Or.inr ⟨he.1, he.2 ▸ hp⟩

end Handshake

end Beeros.VirtioInit
