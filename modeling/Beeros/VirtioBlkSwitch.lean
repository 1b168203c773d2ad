import Beeros.VirtioBlkTimeout

/-! Switching one device between the two drivers with `beer.blk/use-native-driver!` and
`beer.virtio-blk/attach!`. Initialising resets the device, which then restarts its own counters at 0.
The C driver keeps its rings in static memory, which nothing clears; the beerlang driver allocates
zeroed rings each time. A request is published, served by the device at a later step and seen by the
driver at a still later one; there are no timeouts. -/

namespace Beeros.VirtioBlk

/-- `F_BLK_RO`, `f-blk-ro`. -/
def featureRo : Nat := 1 <<< 5
/-- `F_BLK_FLUSH`, `f-blk-flush`. -/
def featureFlush : Nat := 1 <<< 9
/-- `F_VERSION_1_HI`, `f-version-1`: feature bit 32, in word 1. -/
def featureVersion1 : Nat := 1

/-- What the device answers while a driver initialises it. -/
structure Answers where
  features0 : Nat
  features1 : Nat
  /-- Whether `FEATURES_OK` stays set with the features in word 0 accepted by the driver. -/
  featuresOk : Nat → Bool
  queueReady : Nat
  queueNumMax : Nat
  sectors : Nat

/-- `init_device`: the driver's record when `DRIVER_OK` gets set, `none` when it fails. The rings,
the header, the status byte and `used_seen` are left as they are. -/
def initDevice (a : Answers) (d : Driver) : Option Driver :=
  let want0 := a.features0 &&& (featureRo ||| featureFlush)
  if a.features1 &&& featureVersion1 = 0 then none
  else if !a.featuresOk want0 then none
  else if a.queueReady ≠ 0 then none
  else if a.queueNumMax < qsize then none
  else some { d with
    sectors := a.sectors
    readOnly := want0 &&& featureRo ≠ 0
    canFlush := want0 &&& featureFlush ≠ 0 }

/-- `beer.virtio-blk/init` over `negotiate!` and `setup-queue!`, with the addresses of the header and
the status byte in the newly allocated, zeroed queue memory. -/
def beerInit (a : Answers) (hdrAddr statusAddr : Nat) : Option Driver :=
  let got0 := a.features0 &&& (featureRo ||| featureFlush)
  if a.features1 &&& featureVersion1 = 0 then none
  else if !a.featuresOk got0 then none
  else if a.queueNumMax < qsize then none
  else some {
    desc := fun _ => ⟨0, 0, 0, 0⟩
    availIdx := 0
    availRing := fun _ => 0
    usedIdx := 0
    hdr := ⟨0, 0, 0⟩
    status := 0
    hdrAddr := hdrAddr
    statusAddr := statusAddr
    sectors := a.sectors
    readOnly := got0 &&& featureRo ≠ 0
    canFlush := got0 &&& featureFlush ≠ 0
    usedSeen := 0 }

/-- Which driver has set `DRIVER_OK` on its rings. -/
inductive Owner
  | native
  | beer
  deriving DecidableEq

structure Switched where
  /-- The static `VBlk` of the C driver. -/
  native : Driver
  /-- The state map of the last `attach!`. -/
  beer : Driver
  owner : Option Owner
  /-- The device's position in the avail ring. -/
  devAvail : UInt16
  /-- The device's count of used entries. -/
  devUsed : UInt16
  /-- Whether a request has been published and not returned. -/
  pending : Bool
  /-- The chain heads the device has taken since the last request was published. -/
  served : List Nat

def Switched.driver (s : Switched) : Owner → Driver
  | .native => s.native
  | .beer => s.beer

def Switched.setDriver (s : Switched) (o : Owner) (d : Driver) : Switched :=
  match o with
  | .native => { s with native := d }
  | .beer => { s with beer := d }

/-- The device reset at the start of either initialisation. -/
def Switched.reset (s : Switched) : Switched :=
  { s with owner := none, devAvail := 0, devUsed := 0, served := [] }

/-- `beer.blk/use-native-driver!`, that is `virtio_blk_probe`. -/
def Switched.useNativeDriver (s : Switched) (a : Answers) : Switched :=
  match initDevice a s.native with
  | some d => { s.reset with native := d, owner := some .native }
  | none => s.reset

/-- `beer.virtio-blk/attach!`. -/
def Switched.attach (s : Switched) (a : Answers) (hdrAddr statusAddr : Nat) : Switched :=
  match beerInit a hdrAddr statusAddr with
  | some d => { s.reset with beer := d, owner := some .beer }
  | none => s.reset

/-- A request as its driver gets it, up to `submit`. -/
inductive SwitchedRequest
  | native (req : Request)
  | beerRw (write : Bool) (lba n : Fixnum) (buf : Buffer) (off : Fixnum)
  | beerFlush

def SwitchedRequest.owner : SwitchedRequest → Owner
  | .native _ => .native
  | .beerRw .. | .beerFlush => .beer

def SwitchedRequest.prepare (d : Driver) : SwitchedRequest → Except Error Driver
  | .native req => VirtioBlk.prepare d req
  | .beerRw write lba n buf off => VirtioBlk.beerRw d write lba n buf off
  | .beerFlush => VirtioBlk.beerFlush d

inductive SwitchedEvent
  | useNativeDriver
  | attach
  | request
  | serve
  | ret (result : Except Error Unit)

inductive SwitchedStep : Switched → SwitchedEvent → Switched → Prop
  | useNativeDriver {s : Switched} (a : Answers) : s.pending = false →
      SwitchedStep s .useNativeDriver (s.useNativeDriver a)
  | attach {s : Switched} (a : Answers) (hdrAddr statusAddr : Nat) : s.pending = false →
      SwitchedStep s .attach (s.attach a hdrAddr statusAddr)
  | request {s : Switched} {req : SwitchedRequest} {d : Driver} : s.pending = false →
      s.owner = some req.owner → req.prepare (s.driver req.owner) = .ok d →
      SwitchedStep s .request
        (Switched.setDriver { s with pending := true, served := [] } req.owner (publish d))
  -- the device takes the next entry of the avail ring and completes its chain
  | serve {s : Switched} {o : Owner} (status : UInt8) : s.owner = some o →
      (s.driver o).availIdx ≠ s.devAvail →
      SwitchedStep s .serve
        (Switched.setDriver { s with
          devAvail := s.devAvail + 1
          devUsed := s.devUsed + 1
          served := (s.driver o).availRing (s.devAvail.toNat % qsize) :: s.served }
          o { s.driver o with status := status, usedIdx := s.devUsed + 1 })
  | ret {s : Switched} {o : Owner} : s.pending = true → s.owner = some o →
      (s.driver o).usedIdx ≠ (s.driver o).usedSeen →
      SwitchedStep s (.ret (statusResult (s.driver o).status))
        (Switched.setDriver { s with pending := false }
          o { s.driver o with usedSeen := (s.driver o).usedSeen + 1 })

/-- The three ring indices of a driver are 0. -/
def IndicesZero (d : Driver) : Prop := d.availIdx = 0 ∧ d.usedIdx = 0 ∧ d.usedSeen = 0

/-- Before any driver has touched the device: the C driver's statics are zero. -/
structure SwitchedBoot (s : Switched) : Prop where
  owner : s.owner = none
  pending : s.pending = false
  native : IndicesZero s.native

/-- The states of runs in which `use-native-driver!` is called only in states with `P`. -/
inductive SwitchedReachable (P : Switched → Prop) : Switched → Prop
  | boot {s : Switched} : SwitchedBoot s → SwitchedReachable P s
  | step {s s' : Switched} {e : SwitchedEvent} : SwitchedReachable P s → SwitchedStep s e s' →
      (e = .useNativeDriver → P s) → SwitchedReachable P s'

/-- The owning driver's three indices are the device's counters. -/
def IndicesAgree (s : Switched) : Prop :=
  ∀ o, s.owner = some o → (s.driver o).availIdx = s.devAvail ∧
    (s.driver o).usedIdx = s.devUsed ∧ (s.driver o).usedSeen = s.devUsed

/-- Between requests the indices agree and the device has nothing to serve; a request under way can
be served or returned from, and when it returns the device has served exactly the chain it
published. -/
structure RingsSound (s : Switched) : Prop where
  agree : s.pending = false → IndicesAgree s
  quiet : s.pending = false → ∀ s', ¬SwitchedStep s .serve s'
  live : s.pending = true → (∃ s', SwitchedStep s .serve s') ∨ ∃ r s', SwitchedStep s (.ret r) s'
  once : ∀ r s', SwitchedStep s (.ret r) s' → s.served = [0]

section Accessors

variable (s : Switched) (o : Owner) (d : Driver)

@[simp] theorem setDriver_driver : (s.setDriver o d).driver o = d := by cases o <;> rfl

@[simp] theorem setDriver_owner : (s.setDriver o d).owner = s.owner := by cases o <;> rfl

@[simp] theorem setDriver_devAvail : (s.setDriver o d).devAvail = s.devAvail := by cases o <;> rfl

@[simp] theorem setDriver_devUsed : (s.setDriver o d).devUsed = s.devUsed := by cases o <;> rfl

@[simp] theorem setDriver_pending : (s.setDriver o d).pending = s.pending := by cases o <;> rfl

@[simp] theorem setDriver_served : (s.setDriver o d).served = s.served := by cases o <;> rfl

end Accessors

/-- The same three ring indices. -/
def SameIndices (d d' : Driver) : Prop :=
  d'.availIdx = d.availIdx ∧ d'.usedIdx = d.usedIdx ∧ d'.usedSeen = d.usedSeen

/-- Preparing a request leaves the ring indices alone. -/
theorem prepare_sameIndices {req : SwitchedRequest} {d d' : Driver} (h : req.prepare d = .ok d') :
    SameIndices d d' := by
  rcases req with ⟨_ | _⟩ | _ | _ <;>
    simp only [SwitchedRequest.prepare, prepare, prepareRw, prepareFlush, beerRw, beerFlush] at h <;>
    split_ifs at h <;> cases h <;> exact ⟨rfl, rfl, rfl⟩

theorem initDevice_sameIndices {a : Answers} {d d' : Driver} (h : initDevice a d = some d') :
    SameIndices d d' := by
  unfold initDevice at h
  simp only at h
  split_ifs at h
  cases h
  exact ⟨rfl, rfl, rfl⟩

theorem beerInit_indicesZero {a : Answers} {x y : Nat} {d : Driver}
    (h : beerInit a x y = some d) : IndicesZero d := by
  unfold beerInit at h
  simp only at h
  split_ifs at h
  cases h
  exact ⟨rfl, rfl, rfl⟩

/-- Where the owning driver and the device stand: in step between requests; one entry ahead of the
device once a request is published; one completion behind it once the request is served. -/
inductive RingPhase (s : Switched) : Prop
  | unowned : s.owner = none → s.pending = false → RingPhase s
  | idle (o : Owner) : s.owner = some o → s.pending = false →
      (s.driver o).availIdx = s.devAvail → (s.driver o).usedIdx = s.devUsed →
      (s.driver o).usedSeen = s.devUsed → RingPhase s
  | published (o : Owner) : s.owner = some o → s.pending = true → s.served = [] →
      (s.driver o).availIdx = s.devAvail + 1 → (s.driver o).usedIdx = s.devUsed →
      (s.driver o).usedSeen = s.devUsed →
      (s.driver o).availRing (s.devAvail.toNat % qsize) = 0 → RingPhase s
  | served (o : Owner) : s.owner = some o → s.pending = true → s.served = [0] →
      (s.driver o).availIdx = s.devAvail → (s.driver o).usedIdx = s.devUsed →
      s.devUsed = (s.driver o).usedSeen + 1 → RingPhase s

theorem uint16_ne_succ (x : UInt16) : x ≠ x + 1 := by
  intro h
  have h1 : (1 : UInt16) = 0 := left_eq_add.mp h
  exact absurd h1 (by decide)

/-- An initialisation that leaves the new owner's indices at 0 puts driver and device in step. -/
theorem ringPhase_of_init {s : Switched} {o : Owner} (ho : s.owner = some o)
    (hp : s.pending = false) (ha : s.devAvail = 0) (hu : s.devUsed = 0)
    (hd : IndicesZero (s.driver o)) : RingPhase s :=
  .idle o ho hp (hd.1.trans ha.symm) (hd.2.1.trans hu.symm) (hd.2.2.trans hu.symm)

theorem ringPhase_useNativeDriver {s : Switched} (a : Answers) (hp : s.pending = false)
    (hz : IndicesZero s.native) : RingPhase (s.useNativeDriver a) := by
  unfold Switched.useNativeDriver
  cases hd : initDevice a s.native with
  | none => exact .unowned rfl hp
  | some d =>
      have hidx := initDevice_sameIndices hd
      exact ringPhase_of_init (o := .native) rfl hp rfl rfl
        ⟨hidx.1.trans hz.1, hidx.2.1.trans hz.2.1, hidx.2.2.trans hz.2.2⟩

theorem ringPhase_attach {s : Switched} (a : Answers) (x y : Nat) (hp : s.pending = false) :
    RingPhase (s.attach a x y) := by
  unfold Switched.attach
  cases hd : beerInit a x y with
  | none => exact .unowned rfl hp
  | some d => exact ringPhase_of_init (o := .beer) rfl hp rfl rfl (beerInit_indicesZero hd)

theorem RingPhase.agree {s : Switched} (h : RingPhase s) (hp : s.pending = false) :
    IndicesAgree s := by
  intro o ho
  cases h with
  | unowned hnone _ => simp [hnone] at ho
  | idle o' ho' _ h1 h2 h3 =>
      obtain rfl : o' = o := Option.some.inj (ho'.symm.trans ho)
      exact ⟨h1, h2, h3⟩
  | published _ _ hp' | served _ _ hp' => simp [hp] at hp'

/-- **One step** keeps the phases when `use-native-driver!` finds the C driver's indices at 0. -/
theorem RingPhase.step {s s' : Switched} {e : SwitchedEvent} (h : RingPhase s)
    (hs : SwitchedStep s e s') (hz : e = .useNativeDriver → IndicesZero s.native) :
    RingPhase s' := by
  cases hs with
  | useNativeDriver a hp => exact ringPhase_useNativeDriver a hp (hz rfl)
  | attach a x y hp => exact ringPhase_attach a x y hp
  | request hp ho hd =>
      obtain ⟨h1, h2, h3⟩ := h.agree hp _ ho
      obtain ⟨g1, g2, g3⟩ := prepare_sameIndices hd
      refine .published _ (by simpa using ho) (by simp) (by simp) ?_ ?_ ?_ ?_
      · simp [publish, g1, h1]
      · simp [publish, g2, h2]
      · simp [publish, g3, h3]
      · simp [publish, g1, h1]
  | serve status ho hne =>
      cases h with
      | unowned hnone _ => simp [hnone] at ho
      | idle o ho' _ h1 _ _ | served o ho' _ _ h1 _ _ =>
          obtain rfl := Option.some.inj (ho'.symm.trans ho)
          exact absurd h1 hne
      | published o ho' hp hserved h1 h2 h3 hring =>
          obtain rfl := Option.some.inj (ho'.symm.trans ho)
          refine .served o (by simpa using ho) (by simpa using hp) ?_ ?_ ?_ ?_
          · simp [hserved, hring]
          · simp [h1]
          · simp
          · simp [h3]
  | ret hp ho hne =>
      cases h with
      | unowned hnone _ => simp [hnone] at ho
      | idle _ _ hp' => simp [hp] at hp'
      | published o ho' _ _ _ h2 h3 _ =>
          obtain rfl := Option.some.inj (ho'.symm.trans ho)
          exact absurd (h2.trans h3.symm) hne
      | served o ho' _ _ h1 h2 h3 =>
          obtain rfl := Option.some.inj (ho'.symm.trans ho)
          refine .idle o (by simpa using ho) (by simp) ?_ ?_ ?_
          · simpa using h1
          · simpa using h2
          · simp [h3]

/-- What the phases say about the next step. -/
theorem RingPhase.sound {s : Switched} (h : RingPhase s) : RingsSound s where
  agree := h.agree
  quiet := by
    intro hp s' hs
    cases hs with
    | serve status ho hne => exact hne (h.agree hp _ ho).1
  live := by
    intro hp
    cases h with
    | unowned _ hp' | idle _ _ hp' => simp [hp] at hp'
    | published o ho _ _ h1 _ _ _ =>
        refine Or.inl ⟨_, .serve 0 ho ?_⟩
        rw [h1]
        exact (uint16_ne_succ _).symm
    | served o ho _ _ _ h2 h3 =>
        refine Or.inr ⟨_, _, .ret hp ho ?_⟩
        rw [h2, h3]
        exact (uint16_ne_succ _).symm
  once := by
    intro r s' hs
    cases hs with
    | ret hp ho hne =>
        cases h with
        | unowned _ hp' | idle _ _ hp' => simp [hp] at hp'
        | published o ho' _ _ _ h2 h3 _ =>
            obtain rfl := Option.some.inj (ho'.symm.trans ho)
            exact absurd (h2.trans h3.symm) hne
        | served _ _ _ hserved => exact hserved

/-- **Runs.** When `use-native-driver!` is called only while the C driver's static indices are 0, the
owning driver and the device stay in step: every request is served exactly once before it
returns. -/
theorem rings_sound {s : Switched} (h : SwitchedReachable (fun s => IndicesZero s.native) s) :
    RingsSound s := by
  suffices hphase : RingPhase s from hphase.sound
  induction h with
  | boot hb => exact .unowned hb.owner hb.pending
  | step _ hs hz ih => exact ih.step hs hz

/-- The reset forgets the device's counters and nothing sets the C driver's back: unless these are 0
the two disagree as soon as `DRIVER_OK` is set. -/
theorem not_indicesAgree_useNativeDriver {s : Switched} {a : Answers} {d : Driver}
    (hd : initDevice a s.native = some d) (hz : ¬IndicesZero s.native) :
    ¬IndicesAgree (s.useNativeDriver a) := by
  intro hagree
  unfold Switched.useNativeDriver at hagree
  rw [hd] at hagree
  obtain ⟨h1, h2, h3⟩ := hagree .native rfl
  obtain ⟨g1, g2, g3⟩ := initDevice_sameIndices hd
  exact hz ⟨g1.symm.trans h1, g2.symm.trans h2, g3.symm.trans h3⟩

/-- An eight-sector device that offers flushing. -/
def diskAnswers : Answers := ⟨featureFlush, featureVersion1, fun _ => true, 0, 1024, 8⟩

def bootSwitched : Switched := ⟨freshDriver, freshDriver, none, 0, 0, false, []⟩

theorem bootSwitched_boot : SwitchedBoot bootSwitched := ⟨rfl, rfl, rfl, rfl, rfl⟩

/-- The C driver's first request after boot: published, served, about to return. -/
theorem rings_sound_first_read :
    ∃ s, SwitchedReachable (fun s => IndicesZero s.native) s ∧ s.owner = some .native ∧
      s.pending = true ∧ s.served = [0] ∧ RingsSound s := by
  have hboot : SwitchedReachable (fun s => IndicesZero s.native) bootSwitched :=
    .boot bootSwitched_boot
  have huse := hboot.step (.useNativeDriver diskAnswers rfl) (fun _ => ⟨rfl, rfl, rfl⟩)
  have hreq := huse.step (@SwitchedStep.request _ (.native (.rw false 7 1 0x80400000)) _ rfl rfl rfl)
    nofun
  have hserve := hreq.step (.serve 0 rfl (by decide)) nofun
  exact ⟨_, hserve, rfl, rfl, rfl, rings_sound hserve⟩

/-- A read through the C driver, `attach!`, and back with `use-native-driver!`: the C driver's avail
index is 1 on a device that has just restarted at 0. -/
theorem not_rings_sound_second_probe :
    ¬∀ s, SwitchedReachable (fun _ => True) s → RingsSound s := by
  intro hall
  have hboot : SwitchedReachable (fun _ => True) bootSwitched := .boot bootSwitched_boot
  have huse := hboot.step (.useNativeDriver diskAnswers rfl) (fun _ => trivial)
  have hreq := huse.step (@SwitchedStep.request _ (.native (.rw false 7 1 0x80400000)) _ rfl rfl rfl)
    nofun
  have hserve := hreq.step (.serve 0 rfl (by decide)) nofun
  have hret := hserve.step (.ret rfl rfl (by decide)) nofun
  have hattach := hret.step (.attach diskAnswers 0x80500000 0x80500010 rfl) nofun
  have hagain := hattach.step (.useNativeDriver diskAnswers rfl) (fun _ => trivial)
  have hagree := (hall _ hagain).agree rfl .native rfl
  exact absurd hagree.1 (by decide)

end Beeros.VirtioBlk
