import Beeros.VirtioBlk

/-! Runs of `virtio_blk_rw` and `virtio_blk_flush` on one device that may answer late. The driver's
record is memory shared with the device. The device takes published chains in order and completes
each at any later time, writing the status byte and advancing `used.idx`; the driver's steps are
those of a call up to and in `submit`, and the device may act between any two of them. Chains are
numbered in the order of their publication. -/

namespace Beeros.VirtioBlk

/-- A request as the C driver gets it. -/
inductive Request
  | rw (write : Bool) (lba n buf : Nat)
  | flush

def prepare (d : Driver) : Request → Except Error Driver
  | .rw write lba n buf => prepareRw d write lba n buf
  | .flush => prepareFlush d

/-- Where the driver is: outside a call, behind the descriptor stores, behind `status = 0xff`, in
the polling loop for chain `id`, behind `used_seen++`. -/
inductive Phase
  | idle
  | prepared
  | cleared
  | polling (id : Nat)
  | acked (id : Nat)

structure System where
  driver : Driver
  phase : Phase
  /-- How many chains have been published; the number of the next one. -/
  published : Nat
  /-- The chains the device has not completed yet, oldest first. -/
  inFlight : List Nat
  /-- The completed chains with the status the device wrote. -/
  completed : List (Nat × UInt8)

/-- The end of `submit`: the status byte as a result. -/
def statusResult (s : UInt8) : Except Error Unit :=
  if s = 0 then .ok () else if s = 2 then .error .unsupported else .error .ioError

inductive Event
  | call (req : Request)
  | refuse (e : Error)
  | internal
  | complete (id : Nat) (status : UInt8)
  | ret (id : Nat) (result : Except Error Unit)

inductive Step : System → Event → System → Prop
  | call {s : System} {req : Request} {d : Driver} : s.phase = .idle →
      prepare s.driver req = .ok d →
      Step s (.call req) { s with driver := d, phase := .prepared }
  | refuse {s : System} {req : Request} {e : Error} : s.phase = .idle →
      prepare s.driver req = .error e → Step s (.refuse e) s
  | clear {s : System} : s.phase = .prepared →
      Step s .internal { s with driver := { s.driver with status := 0xff }, phase := .cleared }
  | offer {s : System} : s.phase = .cleared →
      Step s .internal { s with
        driver := publish s.driver
        phase := .polling s.published
        published := s.published + 1
        inFlight := s.inFlight ++ [s.published] }
  | complete {s : System} {id : Nat} {rest : List Nat} (status : UInt8) :
      s.inFlight = id :: rest →
      Step s (.complete id status) { s with
        driver := { s.driver with status := status, usedIdx := s.driver.usedIdx + 1 }
        inFlight := rest
        completed := (id, status) :: s.completed }
  | timeout {s : System} {id : Nat} : s.phase = .polling id →
      s.driver.usedIdx = s.driver.usedSeen →
      Step s (.ret id (.error .timeout)) { s with phase := .idle }
  | see {s : System} {id : Nat} : s.phase = .polling id →
      s.driver.usedIdx ≠ s.driver.usedSeen →
      Step s .internal { s with
        driver := { s.driver with usedSeen := s.driver.usedSeen + 1 }
        phase := .acked id }
  | finish {s : System} {id : Nat} : s.phase = .acked id →
      Step s (.ret id (statusResult s.driver.status)) { s with phase := .idle }

/-- An initialised device with nothing published. -/
structure Booted (s : System) : Prop where
  phase : s.phase = .idle
  published : s.published = 0
  inFlight : s.inFlight = []
  completed : s.completed = []

/-- The states of runs in which every call that reaches the device starts in a state with `P`. -/
inductive Reachable (P : System → Prop) : System → Prop
  | boot {s : System} : Booted s → Reachable P s
  | step {s s' : System} {e : Event} : Reachable P s → Step s e s' →
      (∀ req, e = .call req → P s) → Reachable P s'

/-- Whatever returns `VBLK_OK` next has had its own chain completed with status 0. -/
def OkMeansDone (s : System) : Prop :=
  ∀ id s', Step s (.ret id (.ok ())) s' → (id, 0) ∈ s.completed

theorem statusResult_ok {s : UInt8} (h : statusResult s = .ok ()) : s = 0 := by
  unfold statusResult at h
  split_ifs at h with h0
  exact h0

/-- The only step that returns `VBLK_OK` is the last one of `submit`, on status 0. -/
theorem step_ret_ok {s s' : System} {id : Nat} (h : Step s (.ret id (.ok ())) s') :
    s.phase = .acked id ∧ s.driver.status = 0 := by
  generalize he : Event.ret id (.ok ()) = e at h
  cases h with
  | finish hp =>
      injection he with h1 h2
      rw [h1]
      exact ⟨hp, statusResult_ok h2.symm⟩
  | _ => injection he <;> simp_all

/-- While a call is under way, nothing but its own chain is in flight, and the status byte is the
driver's `0xff` until that chain is completed. -/
def OwnChainOnly (s : System) : Prop :=
  match s.phase with
  | .idle => True
  | .prepared => s.inFlight = []
  | .cleared => s.inFlight = [] ∧ s.driver.status = 0xff
  | .polling id | .acked id =>
      s.inFlight = [id] ∧ s.driver.status = 0xff ∨
        s.inFlight = [] ∧ (id, s.driver.status) ∈ s.completed

/-- A completion during a call is the completion of the call's own chain. -/
theorem OwnChainOnly.complete {s : System} (h : OwnChainOnly s) {id : Nat} {rest : List Nat}
    (status : UInt8) (hf : s.inFlight = id :: rest) :
    OwnChainOnly { s with
      driver := { s.driver with status := status, usedIdx := s.driver.usedIdx + 1 }
      inFlight := rest
      completed := (id, status) :: s.completed } := by
  unfold OwnChainOnly at h ⊢
  simp only
  cases hp : s.phase with
  | idle => trivial
  | prepared => simp [hp, hf] at h
  | cleared => simp [hp, hf] at h
  | polling k | acked k =>
      simp only [hp, hf] at h
      rcases h with ⟨h1, -⟩ | ⟨h1, -⟩
      · injection h1 with hid hrest
        exact Or.inr ⟨hrest, by rw [hid]; exact List.mem_cons_self⟩
      · cases h1

/-- **One step** keeps `OwnChainOnly` when a call starts with nothing in flight. -/
theorem OwnChainOnly.step {s s' : System} {e : Event} (h : OwnChainOnly s) (hs : Step s e s')
    (hcall : ∀ req, e = .call req → s.inFlight = []) : OwnChainOnly s' := by
  cases hs with
  | call _ _ => exact hcall _ rfl
  | refuse _ _ => exact h
  | clear hp =>
      simp only [OwnChainOnly, hp] at h
      exact ⟨h, rfl⟩
  | offer hp =>
      simp only [OwnChainOnly, hp] at h
      exact Or.inl ⟨by rw [h.1]; rfl, rfl⟩
  | complete status hf => exact h.complete status hf
  | timeout _ _ => trivial
  | see hp _ =>
      simp only [OwnChainOnly, hp] at h
      exact h
  | finish _ => trivial

theorem OwnChainOnly.okMeansDone {s : System} (h : OwnChainOnly s) : OkMeansDone s := by
  intro id s' hs
  obtain ⟨hp, hstatus⟩ := step_ret_ok hs
  simp only [OwnChainOnly, hp, hstatus] at h
  rcases h with ⟨-, h⟩ | ⟨-, h⟩
  · exact absurd h (by decide)
  · exact h

/-- **Runs.** -/
theorem Reachable.ownChainOnly {s : System} (h : Reachable (fun s => s.inFlight = []) s) :
    OwnChainOnly s := by
  induction h with
  | boot hb =>
      unfold OwnChainOnly
      rw [hb.phase]
      trivial
  | step _ hs hcall ih => exact ih.step hs hcall

/-- In every run whose calls all start with no chain in flight, `VBLK_OK` is reported only for a
chain the device has completed with status 0. -/
theorem ok_means_done {s : System} (h : Reachable (fun s => s.inFlight = []) s) : OkMeansDone s :=
  h.ownChainOnly.okMeansDone

def freshSystem : System := ⟨freshDriver, .idle, 0, [], []⟩

theorem freshSystem_booted : Booted freshSystem := ⟨rfl, rfl, rfl, rfl⟩

/-- One read of sector 7 that the device completes: the system right before `VBLK_OK`. -/
theorem ok_means_done_one_read :
    ∃ s, Reachable (fun s => s.inFlight = []) s ∧ s.phase = .acked 0 ∧ OkMeansDone s := by
  have hboot : Reachable (fun s => s.inFlight = []) freshSystem := .boot freshSystem_booted
  have hreq : prepare freshSystem.driver (.rw false 7 1 0x80400000) = .ok _ := rfl
  have hcall := hboot.step (.call rfl hreq) (fun _ _ => rfl)
  have hclear := hcall.step (.clear rfl) nofun
  have hoffer := hclear.step (.offer rfl) nofun
  have hdone := hoffer.step (.complete 0 rfl) nofun
  have hsee := hdone.step (.see rfl (by decide)) nofun
  exact ⟨_, hsee, rfl, ok_means_done hsee⟩

/-- Completed and in-flight chains have been published before. -/
theorem Reachable.numbered {P : System → Prop} {s : System} (h : Reachable P s) :
    (∀ k ∈ s.inFlight, k < s.published) ∧ ∀ x ∈ s.completed, x.1 < s.published := by
  induction h with
  | boot hb => simp [hb.inFlight, hb.completed]
  | step _ hs _ ih =>
      obtain ⟨h1, h2⟩ := ih
      cases hs with
      | offer _ =>
          refine ⟨?_, fun x hx => (h2 x hx).trans (Nat.lt_succ_self _)⟩
          intro k hk
          rcases List.mem_append.mp hk with hk | hk
          · exact (h1 k hk).trans (Nat.lt_succ_self _)
          · rw [List.mem_singleton.mp hk]
            exact Nat.lt_succ_self _
      | complete status hf =>
          rw [hf] at h1
          refine ⟨fun k hk => h1 k (List.mem_cons_of_mem _ hk), ?_⟩
          intro x hx
          rcases List.mem_cons.mp hx with rfl | hx
          · exact h1 _ List.mem_cons_self
          · exact h2 x hx
      | call _ _ | refuse _ _ | clear _ | timeout _ _ | see _ _ | finish _ => exact ⟨h1, h2⟩

/-- A stale completion looks like a fresh one: a call that starts while an older chain is in flight
can return `VBLK_OK` on that chain's completion. -/
theorem exists_ok_before_done {s : System} (h : Reachable (fun _ => True) s) {req : Request}
    {d : Driver} (hp : s.phase = .idle) (hreq : prepare s.driver req = .ok d) {k : Nat}
    {rest : List Nat} (hf : s.inFlight = k :: rest)
    (hidx : d.usedIdx + 1 ≠ d.usedSeen) :
    ∃ s', Reachable (fun _ => True) s' ∧ ¬OkMeansDone s' := by
  have hcall := h.step (.call hp hreq) (fun _ _ => trivial)
  have hclear := hcall.step (.clear rfl) (fun _ _ => trivial)
  have hoffer := hclear.step (.offer rfl) (fun _ _ => trivial)
  have hrest : s.inFlight ++ [s.published] = k :: (rest ++ [s.published]) := by
    rw [hf, List.cons_append]
  have hdone := hoffer.step (.complete 0 hrest) (fun _ _ => trivial)
  have hsee := hdone.step (.see rfl hidx) (fun _ _ => trivial)
  refine ⟨_, hsee, fun hok => ?_⟩
  have hmem := hok _ _ (.finish rfl)
  have hnum := h.numbered
  rcases List.mem_cons.mp hmem with heq | hmem
  · injection heq with heq _
    have := hnum.1 k (by rw [hf]; exact List.mem_cons_self)
    simp only at heq
    omega
  · exact lt_irrefl _ (hnum.2 _ hmem)

/-- A read of sector 7 times out, and the next read, of sector 6, is told `VBLK_OK` by the completion
of the first. -/
theorem not_okMeansDone_after_timeout :
    ¬∀ s, Reachable (fun _ => True) s → OkMeansDone s := by
  intro hall
  have hboot : Reachable (fun _ => True) freshSystem := .boot freshSystem_booted
  have hreq : prepare freshSystem.driver (.rw false 7 1 0x80400000) = .ok _ := rfl
  have hcall := hboot.step (.call rfl hreq) (fun _ _ => trivial)
  have hclear := hcall.step (.clear rfl) (fun _ _ => trivial)
  have hoffer := hclear.step (.offer rfl) (fun _ _ => trivial)
  have hout := hoffer.step (.timeout rfl rfl) (fun _ _ => trivial)
  obtain ⟨s, hs, hbad⟩ := exists_ok_before_done hout rfl
    (show prepare _ (.rw false 6 1 0x80400000) = .ok _ from rfl) rfl (by decide)
  exact hbad (hall s hs)

end Beeros.VirtioBlk
