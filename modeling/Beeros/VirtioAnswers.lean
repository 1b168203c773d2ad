import Beeros.VirtioInit
import Beeros.VirtioBlkSwitch
import Beeros.Monitor

/-! A block device that answers as `Answers` says, read register by register. Both drivers make of it what
`VirtioBlk.beerInit` and `VirtioBlk.initDevice` say at once. -/

namespace Beeros.VirtioInit

open VirtQueue
open VirtioBlk (Answers Driver beerInit)
open Monitor (Leads leads_pure leads_throw)

/-! ### The device -/

/-- What a block device keeps of the registers that its driver writes. -/
structure Registers where
  deviceSel : Nat
  driverSel : Nat
  /-- Word 0 of the features that the driver accepted. -/
  accepted : Nat
  status : Nat
  /-- Queue 0 was made ready. -/
  enabled : Bool

def Registers.reset : Registers := ⟨0, 0, 0, 0, false⟩

def Registers.write (r : Registers) (off v : Nat) : Registers :=
  if off = rStatus then if v = 0 then .reset else { r with status := v }
  else if off = rDevFeaturesSel then { r with deviceSel := v }
  else if off = rDrvFeaturesSel then { r with driverSel := v }
  else if off = rDrvFeatures then if r.driverSel = 0 then { r with accepted := v } else r
  else if off = rQueueReady then { r with enabled := true }
  else r

/-- What is read of a register; `none` where it may be anything. A device that does not take the accepted features
clears `FEATURES_OK`. -/
def Registers.read (a : Answers) (r : Registers) (off : Nat) : Option Nat :=
  if off = rDevFeatures then
    if r.deviceSel = 0 then some a.features0 else if r.deviceSel = 1 then some a.features1 else none
  else if off = rStatus then
    some (if r.status &&& stFeaturesOk ≠ 0 ∧ a.featuresOk r.accepted = false then r.status ^^^ stFeaturesOk
      else r.status)
  else if off = rQueueReady then if r.enabled then none else some a.queueReady
  else if off = rQueueNumMax then some a.queueNumMax
  else if off = rConfig then some (a.sectors % 2 ^ 32)
  else if off = rConfig + 4 then some (a.sectors / 2 ^ 32)
  else none

def Registers.step (base : Nat) (r : Registers) : Event → Registers
  | .write addr v => if base ≤ addr then r.write (addr - base) (v % 2 ^ 32) else r
  | _ => r

/-- The registers after what was done on the bus. -/
def registersAfter (base : Nat) (log : List Event) : Registers := log.foldl (Registers.step base) .reset

/-- The device at `base` answers so, and its config does not change. -/
structure Follows (mach : Machine) (base : Nat) (a : Answers) : Prop where
  answers : ∀ log off v, (registersAfter base log).read a off = some v → (mach.reg log (base + off)).toNat = v
  still : ∀ log log', mach.reg log (base + rConfigGen) = mach.reg log' (base + rConfigGen)

/-- What a driver tells of a device once it serves it. -/
def described (d : Driver) : BlkDevice := ⟨d.sectors, d.readOnly, d.canFlush⟩

/-- What `init_device` returns where the driver's record is `d`. -/
def answered (d : Option Driver) : Answer := d.elim .failed fun d => .ready (described d)

/-! ### One access -/

variable {mach : Machine} {base : Nat} {a : Answers} {r : Registers}

/-- How a state looks to the device. -/
def seen (base : Nat) (s : State) : Registers := registersAfter base s.log

theorem registersAfter_concat (log : List Event) (e : Event) :
    registersAfter base (log ++ [e]) = (registersAfter base log).step base e := by
  rw [registersAfter, List.foldl_append]
  rfl

section Accesses

variable {R : VirtQueue.Error → Registers → Prop}

theorem leads_wr (off v : Nat) :
    Leads (seen base) r (wr base off v) (fun u q => u = () ∧ q = r.write off (v % 2 ^ 32)) R := by
  rintro s rfl
  refine Or.inl ⟨(), _, rfl, rfl, ?_⟩
  show registersAfter base (s.log ++ [.write (base + off) (v % 2 ^ 32)]) = _
  rw [registersAfter_concat, Registers.step, if_pos (Nat.le_add_right base off), Nat.add_sub_cancel_left, Nat.mod_mod]
  rfl

/-- A read leaves the device as it is. -/
theorem leads_rd_any (off : Nat) : Leads (seen base) r (rd mach base off) (fun _ q => q = r) R := by
  rintro s rfl
  refine Or.inl ⟨_, _, rfl, ?_⟩
  exact registersAfter_concat s.log (.read (base + off))

theorem leads_rd (h : Follows mach base a) {off v : Nat} (hv : r.read a off = some v) :
    Leads (seen base) r (rd mach base off) (fun x q => x = v ∧ q = r) R := by
  rintro s rfl
  refine Or.inl ⟨_, _, rfl, h.answers s.log off v hv, ?_⟩
  exact registersAfter_concat s.log (.read (base + off))

theorem leads_rd_gen (h : Follows mach base a) :
    Leads (seen base) r (rd mach base rConfigGen)
      (fun x q => x = (mach.reg [] (base + rConfigGen)).toNat ∧ q = r) R := by
  rintro s rfl
  refine Or.inl ⟨_, _, rfl, by rw [h.still s.log []], ?_⟩
  exact registersAfter_concat s.log (.read (base + rConfigGen))

theorem leads_deviceFeatures (h : Follows mach base a) {sel v : Nat}
    (hv : (r.write rDevFeaturesSel (sel % 2 ^ 32)).read a rDevFeatures = some v) :
    Leads (seen base) r (deviceFeatures mach base sel)
      (fun x q => x = v ∧ q = r.write rDevFeaturesSel (sel % 2 ^ 32)) R :=
  (leads_wr rDevFeaturesSel sel).before (leads_rd h hv)

theorem leads_initFailed (reason : String) {Q : Unit → Registers → Prop} (hR : ∀ q, R (.initFailed base reason) q) :
    Leads (seen base) r (initFailed mach base reason) Q R := by
  refine (leads_rd_any rStatus).bind fun v q _ => ?_
  refine (leads_wr rStatus (v ||| stFailed)).bind fun _ q' _ => ?_
  exact leads_throw (hR q')

/-- A driver goes on if a check does not fail. -/
theorem leads_check {α : Type} {c : Prop} [Decidable c] {reason : String} {k : Unit → Prog α} {k' : Prog α}
    {Q : α → Registers → Prop} (hR : c → ∀ q, R (.initFailed base reason) q) (h : ¬c → Leads (seen base) r k' Q R) :
    Leads (seen base) r (if c then initFailed mach base reason >>= k else k') Q R :=
  Leads.ite (fun hc => (leads_initFailed reason (Q := fun _ _ => False) (hR hc)).bind fun _ _ hfalse => hfalse.elim) h

theorem leads_wrAddr (off addr : Nat) :
    Leads (seen base) r (wrAddr base off addr) (fun _ q =>
      q = (r.write off ((addr &&& 0xFFFFFFFF) % 2 ^ 32)).write (off + 4) ((addr >>> 32) % 2 ^ 32)) R :=
  (leads_wr off _).before ((leads_wr (off + 4) _).bind fun _ _ hq => leads_pure hq.2)

/-- The capacity is read in one round. -/
theorem leads_capacity (h : Follows mach base a) (fuel : Nat) :
    Leads (seen base) r (capacity mach base (fuel + 1)) (fun n q => n = some a.sectors ∧ q = r) R := by
  refine (leads_rd_gen h).before ?_
  have hlo : r.read a (rConfig + 0) = some (a.sectors % 2 ^ 32) := rfl
  refine (leads_rd h hlo).before ?_
  have hhi : r.read a (rConfig + 4) = some (a.sectors / 2 ^ 32) := rfl
  refine (leads_rd h hhi).before ?_
  refine (leads_rd_gen h).before ?_
  rw [if_pos rfl, Nat.shiftLeft_eq, Nat.div_add_mod']
  exact leads_pure ⟨rfl, rfl⟩

end Accesses

/-! ### The drivers -/

theorem features0_lt (h : Follows mach base a) : a.features0 < 2 ^ 32 := by
  rw [← h.answers [] rDevFeatures a.features0 rfl]
  exact UInt32.toNat_lt _

theorem accepted_mod (h : Follows mach base a) (want0 : Nat) :
    (a.features0 &&& want0) % 2 ^ 32 = a.features0 &&& want0 :=
  Nat.mod_eq_of_lt (Nat.lt_of_le_of_lt Nat.and_le_left (features0_lt h))

/-- `FEATURES_OK` is read back when the device takes the features. -/
theorem featuresOk_read (ok : Bool) :
    (if (stAcknowledge ||| stDriver ||| stFeaturesOk) % 2 ^ 32 &&& stFeaturesOk ≠ 0 ∧ ok = false then
        (stAcknowledge ||| stDriver ||| stFeaturesOk) % 2 ^ 32 ^^^ stFeaturesOk
      else (stAcknowledge ||| stDriver ||| stFeaturesOk) % 2 ^ 32) &&& stFeaturesOk = 0 ↔ ok = false := by
  cases ok <;> decide

theorem not_rejected {ok : Bool} (h : ok = true) : ¬(!ok) = true := by
  rw [h]
  exact Bool.false_ne_true

theorem rejected {ok : Bool} (h : ok = false) : (!ok) = true := by
  rw [h]
  rfl

section Beer

variable {R : VirtQueue.Error → Registers → Prop}

theorem leads_negotiate (h : Follows mach base a) (want0 : Nat)
    (hversion : a.features1 &&& fVersion1 = 0 → ∀ q, R (.initFailed base "no-version-1") q)
    (hfeatures : ¬a.features1 &&& fVersion1 = 0 → a.featuresOk (a.features0 &&& want0) = false →
      ∀ q, R (.initFailed base "features-rejected") q) :
    Leads (seen base) r (negotiate mach base want0) (fun got _ => got = a.features0 &&& want0 ∧
      ¬a.features1 &&& fVersion1 = 0 ∧ a.featuresOk (a.features0 &&& want0) = true) R := by
  refine (leads_wr rStatus 0).before ?_
  refine (leads_wr rStatus (stAcknowledge ||| stDriver)).before ?_
  refine (leads_deviceFeatures h (v := a.features1) rfl).before ?_
  refine leads_check hversion fun hone => ?_
  refine (leads_deviceFeatures h (v := a.features0) rfl).before ?_
  refine (leads_wr rDrvFeaturesSel 0).before ?_
  refine (leads_wr rDrvFeatures (a.features0 &&& want0)).before ?_
  refine (leads_wr rDrvFeaturesSel 1).before ?_
  refine (leads_wr rDrvFeatures fVersion1).before ?_
  refine (leads_wr rStatus (stAcknowledge ||| stDriver ||| stFeaturesOk)).before ?_
  refine (leads_rd h rfl).before ?_
  have hread := featuresOk_read (a.featuresOk ((a.features0 &&& want0) % 2 ^ 32))
  rw [accepted_mod h] at hread
  refine leads_check (fun hrejected => hfeatures hone (hread.mp ?_)) fun hkept => ?_
  · rw [← accepted_mod h]
    exact hrejected
  · refine leads_pure ⟨rfl, hone, ?_⟩
    rw [← Bool.not_eq_false]
    intro hrejected
    refine hkept ?_
    rw [← accepted_mod h] at hread
    exact hread.mpr (by rw [accepted_mod h]; exact hrejected)

theorem leads_allocAligned (hmem : ∀ n, (mach.place n).isSome = true) (n align : Nat) :
    Leads (seen base) r (allocAligned mach n align) (fun _ q => q = r) R := by
  rintro s rfl
  obtain ⟨addr, haddr⟩ := Option.isSome_iff_exists.mp (hmem (n + align))
  have halloc : bytesAlloc mach (n + align) s = .ok ⟨addr, n + align⟩ { s with ring := fun _ => 0 } := by
    rw [bytesAlloc, haddr]
  exact Or.inl ⟨_, { s with ring := fun _ => 0 }, Exec.bind_apply halloc, rfl⟩

theorem leads_setupQueue (h : Follows mach base a) (hmem : ∀ n, (mach.place n).isSome = true) (qidx qsize extra : Nat)
    (hR : a.queueNumMax < qsize → ∀ q, R (.initFailed base "queue-too-small") q) :
    Leads (seen base) r (setupQueue mach base qidx qsize extra) (fun _ _ => ¬a.queueNumMax < qsize) R := by
  refine (leads_wr rQueueSel qidx).before ?_
  have hmax : (r.write rQueueSel (qidx % 2 ^ 32)).read a rQueueNumMax = some a.queueNumMax := rfl
  refine (leads_rd h hmax).before ?_
  refine leads_check hR fun hroom => ?_
  refine (leads_allocAligned hmem _ _).bind fun ring q _ => ?_
  have hseen : Leads (seen base) q (modify fun s => { s with usedSeen := 0 } : Prog Unit) (fun _ q' => q' = q) R := by
    rintro s rfl
    exact Or.inl ⟨(), _, rfl, rfl⟩
  refine hseen.bind fun _ q _ => ?_
  refine (leads_wr rQueueNum qsize).bind fun _ q _ => ?_
  refine (leads_wrAddr rQueueDesc _).bind fun _ q _ => ?_
  refine (leads_wrAddr rQueueAvail _).bind fun _ q _ => ?_
  refine (leads_wrAddr rQueueUsed _).bind fun _ q _ => ?_
  refine (leads_wr rQueueReady 1).bind fun _ q _ => ?_
  exact leads_pure hroom

theorem leads_driverOk : Leads (seen base) r (driverOk mach base) (fun _ _ => True) R := by
  refine (leads_rd_any rStatus).bind fun v q _ => ?_
  exact (leads_wr rStatus (v ||| stDriverOk)).imp fun _ _ _ => trivial

/-- The feature bits that the drivers accept. -/
def blkAccepted (a : Answers) : Nat := a.features0 &&& (fBlkRo ||| fBlkFlush)

def served (a : Answers) : BlkDevice :=
  ⟨a.sectors, blkAccepted a &&& fBlkRo ≠ 0, blkAccepted a &&& fBlkFlush ≠ 0⟩

theorem beerInit_some (hdrAddr statusAddr : Nat) (hversion : ¬a.features1 &&& fVersion1 = 0)
    (hok : a.featuresOk (blkAccepted a) = true) (hmax : ¬a.queueNumMax < blkQsize) :
    ∃ d, beerInit a hdrAddr statusAddr = some d ∧ described d = served a := by
  exact ⟨_, (if_neg hversion).trans ((if_neg (not_rejected hok)).trans (if_neg hmax)), rfl⟩

theorem leads_blkInit (h : Follows mach base a) (hmem : ∀ n, (mach.place n).isSome = true)
    (fuel hdrAddr statusAddr : Nat) :
    Leads (seen base) r (blkInit mach (fuel + 1) base)
      (fun x _ => ∃ d q, beerInit a hdrAddr statusAddr = some d ∧ x = some (described d, q))
      (fun e _ => beerInit a hdrAddr statusAddr = none ∧ ∃ reason, e = .initFailed base reason) := by
  refine (leads_negotiate h (fBlkRo ||| fBlkFlush) ?hversion ?hfeatures).bind fun got q hgot => ?_
  case hversion => exact fun hnone _ => ⟨if_pos hnone, _, rfl⟩
  case hfeatures =>
    intro hone hrejected _
    exact ⟨(if_neg hone).trans (if_pos (rejected hrejected)), _, rfl⟩
  obtain ⟨rfl, hversion, hok⟩ := hgot
  refine (leads_setupQueue h hmem 0 blkQsize blkExtra fun hsmall _ => ?_).bind fun q _ hmax => ?_
  · exact ⟨(if_neg hversion).trans ((if_neg (not_rejected hok)).trans (if_pos hsmall)), _, rfl⟩
  refine leads_driverOk.bind fun _ _ _ => ?_
  refine (leads_capacity h fuel).before (leads_pure ?_)
  obtain ⟨d, hd, hdescribed⟩ := beerInit_some hdrAddr statusAddr hversion hok hmax
  refine ⟨d, q, hd, ?_⟩
  rw [hdescribed]
  rfl

end Beer

section C

variable {R : VirtQueue.Error → Registers → Prop}

theorem leads_initDeviceFail (st : Nat) {b : Answer} (hb : b = .failed) :
    Leads (seen base) r (initDeviceFail base st) (fun x _ => x = b) R :=
  (leads_wr rStatus _).bind fun _ _ _ => leads_pure hb.symm

theorem leads_initDeviceQueue (h : Follows mach base a) (hr : r.enabled = false) (fuel : Nat) (rings : Rings) (st : Nat)
    {b : Answer} (hready : a.queueReady ≠ 0 → b = .failed)
    (hsmall : a.queueReady = 0 → a.queueNumMax < blkQsize → b = .failed)
    (hserved : a.queueReady = 0 → ¬a.queueNumMax < blkQsize → b = .ready (served a)) :
    Leads (seen base) r (initDeviceQueue mach (fuel + 1) base rings (blkAccepted a) st) (fun x _ => x = b) R := by
  refine (leads_wr rQueueSel 0).before ?_
  have hread : (r.write rQueueSel (0 % 2 ^ 32)).read a rQueueReady = some a.queueReady := by
    show (if r.enabled = true then none else some a.queueReady) = some a.queueReady
    rw [hr]
    rfl
  refine (leads_rd h hread).before ?_
  refine Leads.ite (fun hset => leads_initDeviceFail st (hready hset)) fun hclear => ?_
  rw [not_ne_iff] at hclear
  have hmax : (r.write rQueueSel (0 % 2 ^ 32)).read a rQueueNumMax = some a.queueNumMax := rfl
  refine (leads_rd h hmax).before ?_
  refine Leads.ite (fun hlt => leads_initDeviceFail st (hsmall hclear hlt)) fun hroom => ?_
  refine (leads_wr rQueueNum blkQsize).bind fun _ q _ => ?_
  refine (leads_wrAddr rQueueDesc rings.desc).bind fun _ q _ => ?_
  refine (leads_wrAddr rQueueAvail rings.avail).bind fun _ q _ => ?_
  refine (leads_wrAddr rQueueUsed rings.used).bind fun _ q _ => ?_
  refine (leads_wr rQueueReady 1).bind fun _ q _ => ?_
  refine (leads_capacity h fuel).before ?_
  refine (leads_wr rStatus (st ||| stDriverOk)).bind fun _ q _ => ?_
  exact leads_pure (hserved hclear hroom).symm

theorem leads_initDevice (h : Follows mach base a) (fuel : Nat) (rings : Rings) (d : Driver) :
    Leads (seen base) r (initDevice mach (fuel + 1) base rings)
      (fun x _ => x = answered (VirtioBlk.initDevice a d)) R := by
  refine (leads_wr rStatus 0).before ?_
  refine (leads_wr rStatus (stAcknowledge ||| stDriver)).before ?_
  refine (leads_wr rDevFeaturesSel 0).before ?_
  refine (leads_rd h (v := a.features0) rfl).before ?_
  refine (leads_wr rDevFeaturesSel 1).before ?_
  refine (leads_rd h (v := a.features1) rfl).before ?_
  refine Leads.ite (fun hnone => leads_initDeviceFail _ ?_) fun hversion => ?_
  · exact congrArg answered (if_pos hnone)
  refine (leads_wr rDrvFeaturesSel 0).before ?_
  refine (leads_wr rDrvFeatures (blkAccepted a)).before ?_
  refine (leads_wr rDrvFeaturesSel 1).before ?_
  refine (leads_wr rDrvFeatures fVersion1).before ?_
  refine (leads_wr rStatus (stAcknowledge ||| stDriver ||| stFeaturesOk)).before ?_
  refine (leads_rd h rfl).before ?_
  have hread := featuresOk_read (a.featuresOk ((a.features0 &&& (fBlkRo ||| fBlkFlush)) % 2 ^ 32))
  refine Leads.ite (fun hrejected => leads_initDeviceFail _ ?_) fun hkept => ?_
  · have hlost : (!a.featuresOk (blkAccepted a)) = true := by
      rw [Bool.not_eq_true', blkAccepted, ← accepted_mod h]
      exact hread.mp hrejected
    exact congrArg answered ((if_neg hversion).trans (if_pos hlost))
  · have hok : ¬(!a.featuresOk (blkAccepted a)) = true := by
      rw [Bool.not_eq_true', blkAccepted, ← accepted_mod h]
      exact fun hlost => hkept (hread.mpr hlost)
    refine leads_initDeviceQueue h rfl fuel rings _ ?_ ?_ ?_
    · exact fun hset => congrArg answered ((if_neg hversion).trans ((if_neg hok).trans (if_pos hset)))
    · intro hclear hsmall
      exact congrArg answered ((if_neg hversion).trans ((if_neg hok).trans
        ((if_neg (not_not.mpr hclear)).trans (if_pos hsmall))))
    · intro hclear hroom
      exact congrArg answered ((if_neg hversion).trans ((if_neg hok).trans
        ((if_neg (not_not.mpr hclear)).trans (if_neg hroom))))

end C

theorem described_agree (d : Driver) (hdrAddr statusAddr : Nat) (hready : a.queueReady = 0) :
    (VirtioBlk.initDevice a d).map described = (beerInit a hdrAddr statusAddr).map described := by
  simp only [VirtioBlk.initDevice, beerInit, hready, ne_eq, not_true_eq_false, if_false]
  split_ifs <;> rfl

/-- A device that answers so is told of as the answers say, whichever driver reads them register by register, and
whatever it was left in. Where its queue is not ready from before, both tell the same of it. -/
theorem drivers_answer {mach : Machine} {base : Nat} {a : Answers} (h : Follows mach base a)
    (hmem : ∀ n, (mach.place n).isSome = true) (d : Driver) (hdrAddr statusAddr fuel : Nat) (rings : Rings)
    (s s₁ : State) :
    (∃ s', initDevice mach (fuel + 1) base rings s = .ok (answered (VirtioBlk.initDevice a d)) s') ∧
      (∀ d', beerInit a hdrAddr statusAddr = some d' →
        ∃ q s', blkInit mach (fuel + 1) base s = .ok (some (described d', q)) s') ∧
      (beerInit a hdrAddr statusAddr = none →
        ∃ reason s', blkInit mach (fuel + 1) base s = .error (.initFailed base reason) s') ∧
      (a.queueReady = 0 → ∀ b, (∃ s', initDevice mach (fuel + 1) base rings s = .ok (.ready b) s') ↔
        ∃ q s', blkInit mach (fuel + 1) base s₁ = .ok (some (b, q)) s') := by
  have hc : ∃ s', initDevice mach (fuel + 1) base rings s = .ok (answered (VirtioBlk.initDevice a d)) s' := by
    rcases leads_initDevice (R := fun _ _ => False) h fuel rings d s rfl with ⟨x, s', hok, rfl⟩ | ⟨e, s', herror, hf⟩
    · exact ⟨s', hok⟩
    · exact hf.elim
  have hbeer (t : State) : (∀ d', beerInit a hdrAddr statusAddr = some d' →
        ∃ q s', blkInit mach (fuel + 1) base t = .ok (some (described d', q)) s') ∧
      (beerInit a hdrAddr statusAddr = none →
        ∃ reason s', blkInit mach (fuel + 1) base t = .error (.initFailed base reason) s') := by
    rcases leads_blkInit h hmem fuel hdrAddr statusAddr t rfl with
      ⟨x, s', hok, d₁, q, hd₁, rfl⟩ | ⟨e, s', herror, hnone, reason, rfl⟩
    · refine ⟨fun d' hd' => ?_, fun hnone => ?_⟩
      · rw [hd₁, Option.some.injEq] at hd'
        subst hd'
        exact ⟨q, s', hok⟩
      · rw [hd₁] at hnone
        cases hnone
    · refine ⟨fun d' hd' => ?_, fun _ => ⟨reason, s', herror⟩⟩
      rw [hnone] at hd'
      cases hd'
  refine ⟨hc, (hbeer s).1, (hbeer s).2, fun hready b => ?_⟩
  have hagree := described_agree (a := a) d hdrAddr statusAddr hready
  obtain ⟨s', hs'⟩ := hc
  cases hbi : beerInit a hdrAddr statusAddr with
  | none =>
      obtain ⟨reason, t, ht⟩ := (hbeer s₁).2 hbi
      rw [hbi, Option.map_none, Option.map_eq_none_iff] at hagree
      rw [hagree] at hs'
      constructor
      · rintro ⟨u, hu⟩
        rw [hs'] at hu
        cases hu
      · rintro ⟨q, u, hu⟩
        rw [ht] at hu
        cases hu
  | some d' =>
      obtain ⟨q, t, ht⟩ := (hbeer s₁).1 d' hbi
      obtain ⟨d₁, hd₁, hsame⟩ := Option.map_eq_some_iff.mp (hagree.trans (congrArg (Option.map described) hbi))
      rw [hd₁] at hs'
      have hready' : initDevice mach (fuel + 1) base rings s = .ok (.ready (described d')) s' := by
        rw [hs', ← hsame]
        rfl
      constructor
      · rintro ⟨u, hu⟩
        rw [hready', EStateM.Result.ok.injEq, Answer.ready.injEq] at hu
        exact ⟨q, t, hu.1 ▸ ht⟩
      · rintro ⟨q', u, hu⟩
        rw [ht, EStateM.Result.ok.injEq, Option.some.injEq, Prod.mk.injEq] at hu
        exact ⟨s', hu.1.1 ▸ hready'⟩

/-! ### A device -/

/-- The answers fit into their registers. -/
structure InRegisters (a : Answers) : Prop where
  features0 : a.features0 < 2 ^ 32
  features1 : a.features1 < 2 ^ 32
  queueReady : a.queueReady < 2 ^ 32
  queueNumMax : a.queueNumMax < 2 ^ 32
  sectors : a.sectors < 2 ^ 64

theorem status_write_lt {off v : Nat} (hr : r.status < 2 ^ 32) (hv : v < 2 ^ 32) :
    (r.write off v).status < 2 ^ 32 := by
  rw [Registers.write]
  split_ifs
  · exact Nat.two_pow_pos 32
  · exact hv
  · exact hr
  · exact hr
  · exact hr
  · exact hr
  · exact hr
  · exact hr

theorem status_lt (base : Nat) (log : List Event) : (registersAfter base log).status < 2 ^ 32 := by
  induction log using List.reverseRecOn with
  | nil => exact Nat.two_pow_pos 32
  | append_singleton log e ih =>
      rw [registersAfter_concat]
      cases e with
      | write addr v =>
          rw [Registers.step]
          split_ifs
          · exact status_write_lt ih (Nat.mod_lt v (Nat.two_pow_pos 32))
          · exact ih
      | _ => exact ih

theorem read_lt (ha : InRegisters a) (hr : r.status < 2 ^ 32) {off v : Nat} (hv : r.read a off = some v) :
    v < 2 ^ 32 := by
  rw [Registers.read] at hv
  split_ifs at hv <;> cases hv
  · exact ha.features0
  · exact ha.features1
  · exact Nat.xor_lt_two_pow hr (by decide)
  · exact hr
  · exact ha.queueReady
  · exact ha.queueNumMax
  · exact Nat.mod_lt _ (Nat.two_pow_pos 32)
  · exact Nat.div_lt_of_lt_mul ha.sectors

/-- The device that answers so and no more. -/
def answeringMachine (base : Nat) (a : Answers) : Machine where
  reg log addr := UInt32.ofNat (((registersAfter base log).read a (addr - base)).getD 0)
  dma _ ring := ring
  place _ := some 0x80200000

theorem follows_answering (base : Nat) (ha : InRegisters a) : Follows (answeringMachine base a) base a where
  answers := by
    intro log off v hv
    show (UInt32.ofNat (((registersAfter base log).read a (base + off - base)).getD 0)).toNat = v
    rw [Nat.add_sub_cancel_left, hv, Option.getD_some, UInt32.toNat_ofNat']
    exact Nat.mod_eq_of_lt (read_lt ha (status_lt base log) hv)
  still := by
    intro log log'
    show UInt32.ofNat (((registersAfter base log).read a (base + rConfigGen - base)).getD 0) =
      UInt32.ofNat (((registersAfter base log').read a (base + rConfigGen - base)).getD 0)
    rw [Nat.add_sub_cancel_left]
    rfl

theorem drivers_answer_disk : ∃ s' q s'',
    initDevice (answeringMachine 0x10001000 VirtioBlk.diskAnswers) 1 0x10001000 ⟨0x80001000, 0x80001080, 0x800010a0⟩
        ⟨fun _ => 0, 0, []⟩ = .ok (.ready ⟨8, false, true⟩) s' ∧
      blkInit (answeringMachine 0x10001000 VirtioBlk.diskAnswers) 1 0x10001000 ⟨fun _ => 0, 0, []⟩ =
        .ok (some (⟨8, false, true⟩, q)) s'' := by
  have hfit : InRegisters VirtioBlk.diskAnswers := by constructor <;> decide
  obtain ⟨⟨s', hs'⟩, -, -, hsame⟩ := drivers_answer (follows_answering 0x10001000 hfit) (fun _ => rfl)
    VirtioBlk.freshDriver 0 0 0 ⟨0x80001000, 0x80001080, 0x800010a0⟩ ⟨fun _ => 0, 0, []⟩ ⟨fun _ => 0, 0, []⟩
  obtain ⟨q, s'', hs''⟩ := (hsame rfl ⟨8, false, true⟩).mp ⟨s', hs'⟩
  exact ⟨s', q, s'', hs', hs''⟩

end Beeros.VirtioInit
