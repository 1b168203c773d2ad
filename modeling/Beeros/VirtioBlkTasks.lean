import Beeros.VirtioBlkTimeout

/-! Several tasks in `beer.virtio-blk/rw!` on one device. Header, descriptors, status byte and counters
are the device's and so shared by all calls; the scheduler may switch between any two of `set-header!`,
the `set-desc!` calls, the status store, `publish!`, a poll and the status read. The device reads a chain
when it is notified and carries it out at any later time. -/

namespace Beeros.VirtioBlk.Tasks

/-- What the device reads when it is notified. -/
structure Chain where
  hdr : Header
  desc0 : Desc
  desc1 : Desc
  desc2 : Desc
  deriving DecidableEq

def chainOf (d : Driver) : Chain := ⟨d.hdr, d.desc 0, d.desc 1, d.desc 2⟩

/-- The last step of `rw!` that a call has made; `checked` is behind the argument checks. -/
inductive Stage
  | checked | header | desc0 | desc1 | desc2 | cleared | polling | acked
  deriving DecidableEq

structure Call where
  /-- The call's own header and descriptors. -/
  chain : Chain
  stage : Stage
  /-- How many chains the device had carried out when the call began. -/
  since : Nat

structure System where
  driver : Driver
  calls : Nat → Option Call
  /-- The chains the device has read and not carried out. -/
  queue : List Chain
  /-- The chains the device has carried out, with the status it wrote. -/
  log : List (Chain × UInt8)

def System.setCall (s : System) (task : Nat) (c : Option Call) : System :=
  { s with calls := Function.update s.calls task c }

/-- The stores of `rw!` and `submit!` before `publish!`. -/
def store (c : Chain) (d : Driver) : Stage → Option (Driver × Stage)
  | .checked => some ({ d with hdr := c.hdr }, .header)
  | .header => some ({ d with desc := Function.update d.desc 0 c.desc0 }, .desc0)
  | .desc0 => some ({ d with desc := Function.update d.desc 1 c.desc1 }, .desc1)
  | .desc1 => some ({ d with desc := Function.update d.desc 2 c.desc2 }, .desc2)
  | .desc2 => some ({ d with status := 0xff }, .cleared)
  | _ => none

/-- `publish!` of chain 0. -/
def offer (d : Driver) : Driver :=
  { d with
    availRing := Function.update d.availRing (d.availIdx.toNat % qsize) 0
    availIdx := d.availIdx + 1 }

inductive Event
  | call (task : Nat)
  | internal
  | ret (task : Nat) (c : Call) (result : Except Error Unit)

inductive Step : System → Event → System → Prop
  | call {s : System} {task : Nat} {write : Bool} {lba n off : Fixnum} {buf : Buffer} {d : Driver} :
      s.calls task = none → beerRw s.driver write lba n buf off = .ok d →
      Step s (.call task) (s.setCall task (some ⟨chainOf d, .checked, s.log.length⟩))
  | store {s : System} {task : Nat} {c : Call} {d : Driver} {g : Stage} :
      s.calls task = some c → store c.chain s.driver c.stage = some (d, g) →
      Step s .internal ({ s with driver := d }.setCall task (some { c with stage := g }))
  | offer {s : System} {task : Nat} {c : Call} : s.calls task = some c → c.stage = .cleared →
      Step s .internal ({ s with
        driver := offer s.driver
        queue := s.queue ++ [chainOf s.driver] }.setCall task (some { c with stage := .polling }))
  | complete {s : System} {c : Chain} {rest : List Chain} (status : UInt8) : s.queue = c :: rest →
      Step s .internal { s with
        driver := { s.driver with status := status, usedIdx := s.driver.usedIdx + 1 }
        queue := rest
        log := s.log ++ [(c, status)] }
  | timeout {s : System} {task : Nat} {c : Call} : s.calls task = some c → c.stage = .polling →
      s.driver.usedIdx = s.driver.usedSeen →
      Step s (.ret task c (.error .timeout)) (s.setCall task none)
  | take {s : System} {task : Nat} {c : Call} : s.calls task = some c → c.stage = .polling →
      s.driver.usedIdx ≠ s.driver.usedSeen →
      Step s .internal ({ s with
        driver := { s.driver with usedSeen := s.driver.usedSeen + 1 } }.setCall task
          (some { c with stage := .acked }))
  | finish {s : System} {task : Nat} {c : Call} : s.calls task = some c → c.stage = .acked →
      Step s (.ret task c (statusResult s.driver.status)) (s.setCall task none)

structure Booted (s : System) : Prop where
  calls : ∀ task, s.calls task = none
  queue : s.queue = []
  log : s.log = []

/-- The states of runs in which every call begins in a state with `P`. -/
inductive Reachable (P : System → Prop) : System → Prop
  | boot {s : System} : Booted s → Reachable P s
  | step {s s' : System} {e : Event} : Reachable P s → Step s e s' →
      (∀ task, e = .call task → P s) → Reachable P s'

/-- The data ranges of the two chains meet. -/
def Chain.Touches (a b : Chain) : Prop :=
  a.desc1.addr < b.desc1.addr + b.desc1.len ∧ b.desc1.addr < a.desc1.addr + a.desc1.len

instance (a b : Chain) : Decidable (a.Touches b) := inferInstanceAs (Decidable (_ ∧ _))

/-- What the device did to the call's buffer since the call began is the call's own transfer, once. -/
def OwnTransfer (s : System) (c : Call) : Prop :=
  (s.log.drop c.since).filter (fun t => c.chain.Touches t.1) = [(c.chain, 0)]

/-- Whatever call returns `nil` next has transferred its own sectors. -/
def NilMeansOwn (s : System) : Prop :=
  ∀ task c s', Step s (.ret task c (.ok ())) s' → OwnTransfer s c

/-- No call is under way, and the device has nothing left to do. -/
def Quiet (s : System) : Prop := (∀ task, s.calls task = none) ∧ s.queue = []

/-- The stores that a call has made are still there. -/
def Stored (d : Driver) (c : Chain) : Stage → Prop
  | .checked => True
  | .header => d.hdr = c.hdr
  | .desc0 => d.hdr = c.hdr ∧ d.desc 0 = c.desc0
  | .desc1 => d.hdr = c.hdr ∧ d.desc 0 = c.desc0 ∧ d.desc 1 = c.desc1
  | .desc2 => chainOf d = c
  | .cleared => chainOf d = c ∧ d.status = 0xff
  | .polling | .acked => True

/-- How far a call that runs alone has come: until it publishes the device is idle, and then it has its
chain to do or has done it. -/
def Progress (s : System) (c : Call) : Prop :=
  c.chain.Touches c.chain ∧ Stored s.driver c.chain c.stage ∧
    match c.stage with
    | .polling | .acked =>
        s.queue = [c.chain] ∧ s.driver.status = 0xff ∧ s.log.length = c.since ∨
          s.queue = [] ∧ ∃ l, l.length = c.since ∧ s.log = l ++ [(c.chain, s.driver.status)]
    | _ => s.queue = [] ∧ s.log.length = c.since

/-- At most one call is under way. -/
def OneCall (s : System) : Prop :=
  (∀ task, s.calls task = none) ∨
    ∃ task c, s.calls task = some c ∧ (∀ t, t ≠ task → s.calls t = none) ∧ Progress s c

theorem OneCall.progress {s : System} {task : Nat} {c : Call} (h : OneCall s)
    (hc : s.calls task = some c) : (∀ t, t ≠ task → s.calls t = none) ∧ Progress s c := by
  rcases h with h | ⟨t, c', ht, hrest, hp⟩
  · rw [h task] at hc
    cases hc
  · by_cases htt : task = t
    · subst htt
      rw [ht] at hc
      cases hc
      exact ⟨hrest, hp⟩
    · rw [hrest task htt] at hc
      cases hc

theorem calls_setCall_of_ne {s : System} {task t : Nat} {c : Option Call} (h : t ≠ task) :
    (s.setCall task c).calls t = s.calls t := Function.update_of_ne h _ _

theorem calls_setCall {s : System} {task : Nat} {c : Option Call} :
    (s.setCall task c).calls task = c := Function.update_self _ _ _

/-- The one call under way has moved on. -/
theorem oneCall_of_progress {s : System} {task : Nat} {c : Call}
    (hrest : ∀ t, t ≠ task → s.calls t = none) (h : Progress (s.setCall task (some c)) c) :
    OneCall (s.setCall task (some c)) :=
  .inr ⟨task, c, calls_setCall, fun t ht => by rw [calls_setCall_of_ne ht, hrest t ht], h⟩

theorem oneCall_of_none {s : System} {task : Nat} (hrest : ∀ t, t ≠ task → s.calls t = none) :
    OneCall (s.setCall task none) := by
  left
  intro t
  by_cases ht : t = task
  · rw [ht, calls_setCall]
  · rw [calls_setCall_of_ne ht, hrest t ht]

theorem touches_self {d d' : Driver} {write : Bool} {lba n off : Fixnum} {buf : Buffer}
    (h : beerRw d write lba n buf off = .ok d') : (chainOf d').Touches (chainOf d') := by
  unfold beerRw at h
  by_cases h₁ : n.val < 1 ∨ lba.val < 0 ∨ lba.val + n.val > d.sectors
  · rw [if_pos h₁] at h
    cases h
  rw [if_neg h₁] at h
  by_cases h₂ : write ∧ d.readOnly
  · rw [if_pos h₂] at h
    cases h
  rw [if_neg h₂] at h
  by_cases h₃ : off.val + n.val * sector > buf.capacity
  · rw [if_pos h₃] at h
    cases h
  rw [if_neg h₃] at h
  injection h with h
  subst h
  have hlen : (buf.addr + off.val : Int) < buf.addr + off.val + n.val * sector := by
    simp only [sector, Nat.cast_ofNat]
    omega
  exact ⟨hlen, hlen⟩

theorem Stored.store {d d' : Driver} {c : Chain} {g g' : Stage} (h : Stored d c g)
    (hs : store c d g = some (d', g')) : Stored d' c g' := by
  cases g with
  | checked =>
      cases hs
      exact rfl
  | header =>
      cases hs
      exact ⟨h, rfl⟩
  | desc0 =>
      cases hs
      exact ⟨h.1, h.2, rfl⟩
  | desc1 =>
      cases hs
      obtain ⟨hh, h0, h1⟩ := h
      show Chain.mk d.hdr (d.desc 0) (d.desc 1) c.desc2 = c
      rw [hh, h0, h1]
  | desc2 =>
      cases hs
      exact ⟨h, rfl⟩
  | cleared => cases hs
  | polling => cases hs
  | acked => cases hs

theorem Progress.store {s : System} {task : Nat} {c : Call} {d : Driver} {g : Stage}
    (h : Progress s c) (hs : store c.chain s.driver c.stage = some (d, g)) :
    Progress ({ s with driver := d }.setCall task (some { c with stage := g }))
      { c with stage := g } := by
  obtain ⟨chain, stage, since⟩ := c
  obtain ⟨hself, hst, hq⟩ := h
  refine ⟨hself, hst.store hs, ?_⟩
  cases stage with
  | checked | header | desc0 | desc1 | desc2 =>
      cases hs
      exact hq
  | cleared | polling | acked => cases hs

theorem Progress.complete {s : System} {c : Call} (h : Progress s c) {e : Chain} {rest : List Chain}
    (status : UInt8) (hq : s.queue = e :: rest) :
    Progress { s with
      driver := { s.driver with status := status, usedIdx := s.driver.usedIdx + 1 }
      queue := rest
      log := s.log ++ [(e, status)] } c := by
  obtain ⟨chain, stage, since⟩ := c
  obtain ⟨hself, -, h⟩ := h
  refine ⟨hself, ?_⟩
  cases stage with
  | polling | acked =>
      rcases h with ⟨hqueue, -, hlog⟩ | ⟨hqueue, -⟩
      · rw [hq] at hqueue
        injection hqueue with he hrest
        subst he
        exact ⟨trivial, .inr ⟨hrest, s.log, hlog, rfl⟩⟩
      · rw [hq] at hqueue
        cases hqueue
  | checked | header | desc0 | desc1 | desc2 | cleared =>
      rw [hq] at h
      cases h.1

/-- **One step** keeps `OneCall` when calls begin in quiet states. -/
theorem OneCall.step {s s' : System} {e : Event} (h : OneCall s) (hs : Step s e s')
    (hcall : ∀ task, e = .call task → Quiet s) : OneCall s' := by
  cases hs with
  | call _ hrw =>
      obtain ⟨hnone, hqueue⟩ := hcall _ rfl
      exact oneCall_of_progress (fun t _ => hnone t) ⟨touches_self hrw, trivial, hqueue, rfl⟩
  | store hc hst =>
      obtain ⟨hrest, hp⟩ := h.progress hc
      exact oneCall_of_progress hrest (hp.store hst)
  | @offer task c hc hstage =>
      obtain ⟨hrest, hself, hst, hp⟩ := h.progress hc
      rw [hstage] at hst hp
      refine oneCall_of_progress hrest ⟨hself, trivial, .inl ⟨?_, hst.2, hp.2⟩⟩
      show s.queue ++ [chainOf s.driver] = [c.chain]
      rw [hp.1, hst.1]
      rfl
  | complete status hq =>
      rcases h with h | ⟨task, c, hc, hrest, hp⟩
      · exact .inl h
      · exact .inr ⟨task, c, hc, hrest, hp.complete status hq⟩
  | timeout hc _ _ => exact oneCall_of_none (h.progress hc).1
  | @take task c hc hstage _ =>
      obtain ⟨hrest, hself, -, hp⟩ := h.progress hc
      rw [hstage] at hp
      exact oneCall_of_progress hrest ⟨hself, trivial, hp⟩
  | finish hc _ => exact oneCall_of_none (h.progress hc).1

/-- The only step that returns `nil` is the status read, on status 0. -/
theorem step_ret_nil {s s' : System} {task : Nat} {c : Call} (h : Step s (.ret task c (.ok ())) s') :
    s.calls task = some c ∧ c.stage = .acked ∧ s.driver.status = 0 := by
  generalize he : Event.ret task c (.ok ()) = e at h
  cases h with
  | finish hc hstage =>
      injection he with h₁ h₂ h₃
      subst h₁ h₂
      exact ⟨hc, hstage, statusResult_ok h₃.symm⟩
  | timeout _ _ _ =>
      injection he with _ _ h₃
      cases h₃
  | _ => cases he

theorem OneCall.nilMeansOwn {s : System} (h : OneCall s) : NilMeansOwn s := by
  intro task c s' hs
  obtain ⟨hc, hstage, hstatus⟩ := step_ret_nil hs
  obtain ⟨-, hself, -, hp⟩ := h.progress hc
  rw [hstage, hstatus] at hp
  rcases hp with ⟨-, hff, -⟩ | ⟨-, l, hl, hlog⟩
  · exact absurd hff (by decide)
  · unfold OwnTransfer
    rw [hlog, List.drop_left' hl, List.filter_singleton, decide_eq_true hself]
    rfl

/-- **Runs.** -/
theorem Reachable.oneCall {s : System} (h : Reachable Quiet s) : OneCall s := by
  induction h with
  | boot hb => exact .inl hb.calls
  | step _ hs hcall ih => exact ih.step hs hcall

/-- In every run whose calls all begin when no other call is under way and the device has nothing left
to do, a call that returns `nil` has transferred its own sectors, once, and nothing else has touched its
buffer. -/
theorem nil_means_own {s : System} (h : Reachable Quiet s) : NilMeansOwn s := h.oneCall.nilMeansOwn

def freshSystem : System := ⟨freshDriver, fun _ => none, [], []⟩

theorem freshSystem_booted : Booted freshSystem := ⟨fun _ => rfl, rfl, rfl⟩

/-- What a read of one sector publishes, whatever the tasks have stored before. -/
theorem exists_beerRw {d : Driver} (hsec : d.sectors = 8) (lba : Fixnum) (buf : Buffer)
    (hlba : 0 ≤ lba.val ∧ lba.val < 8) (hbuf : buf.capacity = 512) :
    ∃ d', beerRw d false lba ⟨1, by decide⟩ buf ⟨0, by decide⟩ = .ok d' ∧ d'.hdr = ⟨0, 0, lba.val⟩ := by
  unfold beerRw
  rw [if_neg (by rw [hsec]; simp only [Nat.cast_ofNat]; omega), if_neg (by simp),
    if_neg (by rw [hbuf]; simp [sector])]
  exact ⟨_, rfl, rfl⟩

/-- One read of sector 7 that the device carries out: the system right before `nil`. -/
theorem nil_means_own_one_read : ∃ s c, Reachable Quiet s ∧ s.calls 0 = some c ∧ c.stage = .acked ∧
    NilMeansOwn s := by
  have hboot : Reachable Quiet freshSystem := .boot freshSystem_booted
  obtain ⟨d, hrw, -⟩ := exists_beerRw (d := freshDriver) rfl ⟨7, by decide⟩ sectorBuffer (by decide) rfl
  have hfree : freshSystem.calls 0 = none := rfl
  have hcall := hboot.step (.call hfree hrw) (fun _ _ => ⟨fun _ => rfl, rfl⟩)
  have hhdr := hcall.step (.store calls_setCall rfl) nofun
  have hdesc0 := hhdr.step (.store calls_setCall rfl) nofun
  have hdesc1 := hdesc0.step (.store calls_setCall rfl) nofun
  have hdesc2 := hdesc1.step (.store calls_setCall rfl) nofun
  have hclear := hdesc2.step (.store calls_setCall rfl) nofun
  have hoffer := hclear.step (.offer calls_setCall rfl) nofun
  have hdone := hoffer.step (.complete 0 rfl) nofun
  have hidx : freshDriver.usedIdx + 1 ≠ freshDriver.usedSeen := by decide
  have htake := hdone.step (.take calls_setCall rfl hidx) nofun
  exact ⟨_, _, htake, calls_setCall, rfl, nil_means_own htake⟩

theorem ne_ownTransfer {l : List (Chain × UInt8)} {c : Call} {e : Chain × UInt8}
    {p : Chain × UInt8 → Bool} (hl : l.length = c.since) (he : e.1.hdr ≠ c.chain.hdr) :
    ((l ++ [e]).drop c.since).filter p ≠ [(c.chain, 0)] := by
  rw [List.drop_left' hl, List.filter_singleton]
  cases p e with
  | false => nofun
  | true =>
      intro h
      injection h with h _
      exact he (by rw [h])

/-- A call that begins while another one is between its stores and its `publish!` overtakes the
header: the other call then returns `nil` for a transfer that is not its own. -/
theorem exists_mixed {s : System} (h : Reachable (fun _ => True) s) {t t' : Nat} (htt : t ≠ t')
    {c : Call} (hc : s.calls t = some c) (hstage : c.stage = .desc2) (hfree : s.calls t' = none)
    (hlog : s.log.length = c.since) (hqueue : s.queue = [])
    (hidx : s.driver.usedIdx + 1 ≠ s.driver.usedSeen) {d : Driver} {write : Bool}
    {lba n off : Fixnum} {buf : Buffer} (hrw : beerRw s.driver write lba n buf off = .ok d)
    (hhdr : d.hdr ≠ c.chain.hdr) : ∃ s', Reachable (fun _ => True) s' ∧ ¬NilMeansOwn s' := by
  obtain ⟨chain, stage, since⟩ := c
  subst hstage
  have hcall := h.step (.call hfree hrw) (fun _ _ => trivial)
  have hover := hcall.step (.store calls_setCall rfl) nofun
  have hc' := (calls_setCall_of_ne (c := some ⟨chainOf d, .header, s.log.length⟩) htt).trans
    ((calls_setCall_of_ne (c := some ⟨chainOf d, .checked, s.log.length⟩) htt).trans hc)
  have hclear := hover.step (.store hc' rfl) nofun
  have hoffer := hclear.step (.offer calls_setCall rfl) nofun
  have hq : ∀ e, s.queue ++ [e] = [e] := by
    intro e
    rw [hqueue]
    rfl
  have hdone := hoffer.step (.complete 0 (hq _)) nofun
  have htake := hdone.step (.take calls_setCall rfl hidx) nofun
  refine ⟨_, htake, fun hnil => ?_⟩
  have hown := hnil t ⟨chain, .acked, since⟩ _ (.finish calls_setCall rfl)
  exact ne_ownTransfer (e := (_, 0)) (c := ⟨chain, .acked, since⟩) hlog hhdr hown

/-- A buffer of another task. -/
def otherBuffer : Buffer := ⟨0x80500000, 512, sectorBuffer.capacity_lt, by decide⟩

/-- Task 1 begins a read of sector 1 between the stores and the `publish!` of a read of sector 0: that
read returns `nil` with sector 1 in its buffer. -/
theorem not_nilMeansOwn_two_tasks : ¬∀ s, Reachable (fun _ => True) s → NilMeansOwn s := by
  intro hall
  have hboot : Reachable (fun _ => True) freshSystem := .boot freshSystem_booted
  obtain ⟨d, hrw, hsec⟩ :=
    exists_beerRw (d := freshDriver) rfl ⟨0, by decide⟩ sectorBuffer (by decide) rfl
  have hfree : freshSystem.calls 0 = none := rfl
  have hcall := hboot.step (.call hfree hrw) (fun _ _ => trivial)
  have hhdr := hcall.step (.store calls_setCall rfl) nofun
  have hdesc0 := hhdr.step (.store calls_setCall rfl) nofun
  have hdesc1 := hdesc0.step (.store calls_setCall rfl) nofun
  have hdesc2 := hdesc1.step (.store calls_setCall rfl) nofun
  obtain ⟨d', hrw', hsec'⟩ := exists_beerRw (d := { freshDriver with
    hdr := d.hdr, desc := setDescs freshDriver.desc (d.desc 0) (d.desc 1) (d.desc 2) }) rfl
    ⟨1, by decide⟩ otherBuffer (by decide) rfl
  have hidx : freshDriver.usedIdx + 1 ≠ freshDriver.usedSeen := by decide
  have hne : d'.hdr ≠ d.hdr := by
    rw [hsec, hsec']
    decide
  obtain ⟨s, hs, hbad⟩ := exists_mixed hdesc2 (show 0 ≠ 1 by decide) calls_setCall rfl rfl rfl rfl
    hidx hrw' hne
  exact hbad (hall s hs)

end Beeros.VirtioBlk.Tasks
