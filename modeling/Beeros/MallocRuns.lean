import Beeros.MallocHeap

/-! Runs of the allocator: every call of a valid run keeps the heap invariant, `realloc` carries the
old bytes over and a failing call changes nothing a caller can see. -/

namespace Beeros.Malloc

open Memory

variable (heap : Heap)

/-- The invariant of a world: some blocks, free lists and owners explain its state. -/
def WorldInv (w : World) : Prop :=
  ∃ blocks free' owners, HeapInv heap w.st blocks free' owners ∧ w.live = owners.map Prod.fst

/-- The contents a caller sees behind its live pointers are those of the old world. -/
def SameContents (w w' : World) : Prop :=
  ∀ l ∈ w.live, ∀ i < l.size, w'.st.mem (l.ptr + i) = w.st.mem (l.ptr + i)

/-- The calls that ask for memory; `NULL` is their failure. -/
def Call.Allocates : Call → Prop
  | .free _ => False
  | .store _ _ _ => False
  | _ => True

/-- The contract of one call: a failing call leaves the free lists, the live pointers and their
contents alone, and a `realloc` that returns a block has kept the bytes. -/
structure StepOk (w : World) (call : Call) : Prop where
  failed : call.Allocates → (step heap w call).1 = 0 →
    (step heap w call).2.st.freeLists = w.st.freeLists ∧ (step heap w call).2.live = w.live ∧
      SameContents w (step heap w call).2
  kept : ∀ p n, call = .realloc p n → p ≠ 0 → (step heap w call).1 ≠ 0 →
    ∀ i < min (usable w.st p) n,
      (step heap w call).2.st.mem ((step heap w call).1 + i) = w.st.mem (p + i)

variable {heap}

theorem Untouched.sameContents {w : World} {s' : State} {live' : List Live}
    (h : Untouched w.st s') : SameContents w ⟨s', live'⟩ := by
  intro l _ i _
  exact congrFun h.1 _

theorem worldInv_of_initial {w : World} (h : Initial w) : WorldInv heap w := by
  obtain ⟨hlive, hbrk, hfree⟩ := h
  have htop : w.st.top heap = heap.start := by rw [State.top, if_pos hbrk]
  refine ⟨[], fun _ => [], [], ?_, by simpa using hlive⟩
  exact
    { tiles := htop, top_le := htop ▸ heap.start_le_stop, cls_lt := by simp, cls_word := by simp
      chain := fun c _ => by rw [hfree c]; exact .nil
      free_mem := by simp, free_nodup := by simp, owner_mem := by simp, owner_not_free := by simp
      livesIn := by simp, owner_nodup := by simp }

section Steps

variable {w : World} {blocks : List Block} {free' : Nat → List Nat} {owners : List (Live × Block)}

theorem exists_owner (hlive : w.live = owners.map Prod.fst) {p : Nat} (hp : IsLive w p) :
    ∃ x ∈ owners, x.1.ptr = p := by
  obtain ⟨l, hl, rfl⟩ := hp
  rw [hlive] at hl
  obtain ⟨x, hx, rfl⟩ := List.mem_map.mp hl
  exact ⟨x, hx, rfl⟩

theorem dropLive_map (p : Nat) :
    dropLive (owners.map Prod.fst) p = (owners.filter fun y => y.1.ptr ≠ p).map Prod.fst := by
  rw [dropLive, List.filter_map]
  rfl

theorem payload_ne_zero (b : Block) : b.payload ≠ 0 := by
  simp [Block.payload]

theorem addLive_payload (live : List Live) (b : Block) (n align : Nat) :
    addLive live b.payload n align = ⟨b.payload, n, align⟩ :: live :=
  if_neg (payload_ne_zero b)

/-- `NULL` is never live, so dropping it drops nothing. -/
theorem dropLive_zero (hi : HeapInv heap w.st blocks free' owners)
    (hlive : w.live = owners.map Prod.fst) : dropLive w.live 0 = w.live := by
  rw [dropLive, List.filter_eq_self]
  intro l hl
  rw [hlive] at hl
  obtain ⟨x, hx, rfl⟩ := List.mem_map.mp hl
  have := (hi.livesIn x hx).payload_le
  simp only [Block.payload] at this
  simp only [ne_eq, decide_eq_true_eq]
  omega

/-- A call that fails without touching memory or lists. -/
theorem refused {call : Call} {s' : State} (hstep : step heap w call = (0, ⟨s', w.live⟩))
    (hsame : Untouched w.st s') (hinv : HeapInv heap s' blocks free' owners)
    (hlive : w.live = owners.map Prod.fst) :
    WorldInv heap (step heap w call).2 ∧ StepOk heap w call := by
  rw [hstep]
  refine ⟨⟨blocks, free', owners, hinv, hlive⟩, ⟨fun _ _ => ?_, ?_⟩⟩
  · rw [hstep]
    exact ⟨hsame.2, rfl, hsame.sameContents⟩
  · intro p n _ _ hne
    rw [hstep] at hne
    exact absurd rfl hne

/-- A call other than `realloc` that hands out the pointer of a new owner. -/
theorem granted {call : Call} {s' : State} {l : Live} {b : Block} {blocks' : List Block}
    {free'' : Nat → List Nat} (hstep : step heap w call = (l.ptr, ⟨s', l :: w.live⟩))
    (hcall : ∀ p n, call ≠ .realloc p n) (hinv : HeapInv heap s' blocks' free'' ((l, b) :: owners))
    (hlive : w.live = owners.map Prod.fst) :
    WorldInv heap (step heap w call).2 ∧ StepOk heap w call := by
  have hpay := (hinv.livesIn _ List.mem_cons_self).payload_le
  simp only [Block.payload] at hpay
  refine ⟨⟨blocks', free'', (l, b) :: owners, ?_, ?_⟩, ⟨fun _ h => ?_, ?_⟩⟩
  · rw [hstep]
    exact hinv
  · rw [hstep, List.map_cons, hlive]
  · rw [hstep] at h
    simp only at h
    omega
  · intro p n h
    exact absurd h (hcall p n)

theorem step_malloc (hi : HeapInv heap w.st blocks free' owners)
    (hlive : w.live = owners.map Prod.fst) (n : Nat) :
    WorldInv heap (step heap w (.malloc n)).2 ∧ StepOk heap w (.malloc n) := by
  rcases hi.malloc n with ⟨h0, hsame, hinv⟩ | ⟨b, blocks', free'', hp, -, -, hinv⟩
  · exact refused (by simp [step, addLive, h0]) hsame hinv hlive
  · exact granted (by simp only [step, hp, addLive_payload]) (by rintro p m ⟨⟩) hinv hlive

theorem step_calloc (hi : HeapInv heap w.st blocks free' owners)
    (hlive : w.live = owners.map Prod.fst) (count size : Nat) :
    WorldInv heap (step heap w (.calloc count size)).2 ∧ StepOk heap w (.calloc count size) := by
  by_cases hover : count * size ≥ 2 ^ 64
  · have hcalloc : calloc heap w.st count size = (0, { w.st with errno := enomem }) := by
      simp only [calloc, if_pos hover]
    have hstep : step heap w (.calloc count size) = (0, ⟨{ w.st with errno := enomem }, w.live⟩) := by
      simp [step, hcalloc, addLive]
    exact refused hstep ⟨rfl, rfl⟩ { hi with } hlive
  rcases hi.malloc (count * size) with ⟨h0, hsame, hinv⟩ | ⟨b, blocks', free'', hp, -, -, hinv⟩
  · have hcalloc : calloc heap w.st count size = (0, (malloc heap w.st (count * size)).2) := by
      simp only [calloc, if_neg hover, h0, if_true]
    exact refused (by simp [step, hcalloc, addLive]) hsame hinv hlive
  · set s' := (malloc heap w.st (count * size)).2 with hs'
    have hcalloc : calloc heap w.st count size =
        (b.payload, { s' with mem := fill s'.mem b.payload (count * size) 0 }) := by
      simp only [calloc, if_neg hover, hp, if_neg (payload_ne_zero b), ← hs']
    have hstop := (hinv.livesIn _ List.mem_cons_self).le_stop
    have hstore := hinv.store List.mem_cons_self
      (agreeOutside_fill (m := s'.mem) (x := 0) (n := count * size) le_rfl hstop)
    exact granted (by simp only [step, hcalloc, addLive_payload]) (by rintro p m ⟨⟩) hstore hlive

theorem step_free (hi : HeapInv heap w.st blocks free' owners)
    (hlive : w.live = owners.map Prod.fst) {p : Nat} (hp : p = 0 ∨ IsLive w p) :
    WorldInv heap (step heap w (.free p)).2 ∧ StepOk heap w (.free p) := by
  refine ⟨?_, ⟨fun h => h.elim, by rintro q m ⟨⟩⟩⟩
  by_cases h0 : p = 0
  · subst h0
    refine ⟨blocks, free', owners, ?_, ?_⟩
    · simpa [step, free] using hi
    · rw [← hlive]
      exact dropLive_zero hi hlive
  · obtain ⟨x, hx, rfl⟩ := exists_owner hlive (hp.resolve_left h0)
    obtain ⟨free'', hinv, -⟩ := hi.free hx
    exact ⟨blocks, free'', _, hinv, by simp only [step, hlive, dropLive_map]⟩

theorem step_store (hi : HeapInv heap w.st blocks free' owners)
    (hlive : w.live = owners.map Prod.fst) {p i : Nat} (b : UInt8) (hp : IsLive w p)
    (hlt : i < usable w.st p) :
    WorldInv heap (step heap w (.store p i b)).2 ∧ StepOk heap w (.store p i b) := by
  obtain ⟨x, hx, rfl⟩ := exists_owner hlive hp
  rw [(hi.livesIn x hx).usable_eq (hi.cls_word _ (hi.owner_mem x hx))] at hlt
  have hagree : AgreeOutside w.st.mem (Function.update w.st.mem (x.1.ptr + i) b) x.1.ptr x.2.stop :=
    fun j hj => Function.update_of_ne (by omega) _ _
  exact ⟨⟨blocks, free', owners, hi.store hx hagree, hlive⟩,
    ⟨fun h => h.elim, by rintro q m ⟨⟩⟩⟩

/-- The owners that remain when `x` is dropped sit in other blocks. -/
theorem owner_ne_of_mem_filter (hi : HeapInv heap w.st blocks free' owners) {x : Live × Block}
    (hx : x ∈ owners) : ∀ y ∈ owners.filter (fun y => y.1.ptr ≠ x.1.ptr), y.2 ≠ x.2 := by
  intro y hy heq
  obtain ⟨hy1, hy2⟩ := List.mem_filter.mp hy
  rw [hi.owner_of_live hy1 hx heq] at hy2
  simp at hy2

theorem step_realloc (hi : HeapInv heap w.st blocks free' owners)
    (hlive : w.live = owners.map Prod.fst) {p : Nat} (n : Nat) (hp : p = 0 ∨ IsLive w p) :
    WorldInv heap (step heap w (.realloc p n)).2 ∧ StepOk heap w (.realloc p n) := by
  by_cases h0 : p = 0
  · subst h0
    have hstep : step heap w (.realloc 0 n) = step heap w (.malloc n) := by
      simp only [step, realloc, if_true, dropLive_zero hi hlive]
      by_cases hq : (malloc heap w.st n).1 = 0
      · simp [hq, addLive]
      · simp [hq]
    obtain ⟨hinv, hok⟩ := step_malloc hi hlive n
    refine ⟨hstep ▸ hinv, ⟨fun _ => by rw [hstep]; exact hok.failed trivial, ?_⟩⟩
    rintro q m ⟨⟩ hq
    exact absurd rfl hq
  obtain ⟨x, hx, rfl⟩ := exists_owner hlive (hp.resolve_left h0)
  have hin := hi.livesIn x hx
  have husable := hin.usable_eq (hi.cls_word _ (hi.owner_mem x hx))
  have hpay := hin.payload_le
  have hstop := hin.le_stop
  simp only [Block.payload] at hpay
  by_cases hfits : n ≤ usable w.st x.1.ptr
  · have hrealloc : realloc heap w.st x.1.ptr n = (x.1.ptr, w.st) := by
      simp only [realloc, if_neg h0, if_pos hfits]
    have hrest := hi.forget (List.filter_sublist (p := fun y => y.1.ptr ≠ x.1.ptr))
    have hlives : LivesIn w.st.mem x.2 ⟨x.1.ptr, n, 16⟩ :=
      ⟨hin.payload_le, by simp only; omega, hin.dvd_ptr, hin.dvd_ptr, hin.tag⟩
    have hadopt := hrest.adopt (hi.owner_mem x hx) (hi.owner_not_free x hx)
      (owner_ne_of_mem_filter hi hx) hlives
    refine ⟨⟨blocks, free', (⟨x.1.ptr, n, 16⟩, x.2) :: owners.filter fun y => y.1.ptr ≠ x.1.ptr,
      ?_, ?_⟩, ⟨?_, ?_⟩⟩
    · simpa only [step, hrealloc] using hadopt
    · simp only [step, hrealloc, if_neg h0, addLive, hlive, dropLive_map, List.map_cons]
    · intro _ h
      simp only [step, hrealloc] at h
      exact absurd h h0
    · rintro q m ⟨⟩ - - i -
      simp only [step, hrealloc]
  rcases hi.malloc n with ⟨hq, hsame, hinv⟩ | ⟨b, blocks', free'', hq, hnew, hkeeps, hinv⟩
  · have hrealloc : realloc heap w.st x.1.ptr n = (0, (malloc heap w.st n).2) := by
      simp only [realloc, if_neg h0, if_neg hfits, hq, if_true]
    exact refused (by simp [step, hrealloc]) hsame hinv hlive
  · -- the block moves: the new block is filled from the old one, then the old one is freed
    set s' := (malloc heap w.st n).2 with hs'
    set m' := copy s'.mem b.payload s'.mem x.1.ptr (usable w.st x.1.ptr) with hm'
    have hrealloc : realloc heap w.st x.1.ptr n = (b.payload, free { s' with mem := m' } x.1.ptr) := by
      simp only [realloc, if_neg h0, if_neg hfits, hq, if_neg (payload_ne_zero b), ← hs', ← hm']
    have hroom := (hinv.livesIn _ List.mem_cons_self).le_stop
    simp only at hroom
    have hagree : AgreeOutside s'.mem m' b.payload b.stop :=
      agreeOutside_copy le_rfl (by omega)
    have hcopy := hinv.store List.mem_cons_self hagree
    have hx' : x ∈ (⟨b.payload, n, 16⟩, b) :: owners := List.mem_cons_of_mem _ hx
    have hne : b.payload ≠ x.1.ptr := by
      intro heq
      have := hcopy.ptr_inj (x := (⟨b.payload, n, 16⟩, b)) (y := x) List.mem_cons_self hx' heq
      exact hnew x hx (by rw [← this])
    obtain ⟨free3, hfree, hkept⟩ := hcopy.free hx'
    rw [List.filter_cons_of_pos (by simpa using hne)] at hfree hkept
    refine ⟨⟨blocks', free3, (⟨b.payload, n, 16⟩, b) :: owners.filter fun y => y.1.ptr ≠ x.1.ptr,
      ?_, ?_⟩, ⟨?_, ?_⟩⟩
    · simpa only [step, hrealloc] using hfree
    · simp only [step, hrealloc, if_neg (payload_ne_zero b), addLive_payload, hlive, dropLive_map,
        List.map_cons]
    · intro _ h
      simp only [step, hrealloc] at h
      exact absurd h (payload_ne_zero b)
    · rintro q m ⟨⟩ - - i hi'
      have hi1 : i < usable w.st x.1.ptr := lt_of_lt_of_le hi' (min_le_left _ _)
      simp only [step, hrealloc]
      have hpb : b.payload = b.hdr + 16 := rfl
      rw [hkept _ List.mem_cons_self (b.payload + i) (by simp only; omega) (by simp only; omega)]
      simp only [hm', copy_apply hi1]
      exact hkeeps x hx _ (by omega) (by omega)

theorem step_alignedAlloc (hi : HeapInv heap w.st blocks free' owners)
    (hlive : w.live = owners.map Prod.fst) {k : Nat} (n : Nat) (hlt : n + 2 ^ k < 2 ^ 64) :
    WorldInv heap (step heap w (.alignedAlloc (2 ^ k) n)).2 ∧
      StepOk heap w (.alignedAlloc (2 ^ k) n) := by
  by_cases hsmall : 2 ^ k ≤ alignment
  · have halloc : alignedAlloc heap w.st (2 ^ k) n = malloc heap w.st n := by
      simp only [alignedAlloc, if_pos hsmall]
    have hdvd : 2 ^ k ∣ 16 := by
      have hk : k ≤ 4 := (Nat.pow_le_pow_iff_right (by decide)).mp (hsmall.trans (by decide))
      exact Nat.pow_dvd_pow 2 hk
    rcases hi.malloc n with ⟨h0, hsame, hinv⟩ | ⟨b, blocks', free'', hp, hnew, -, hinv⟩
    · exact refused (by simp [step, halloc, addLive, h0]) hsame hinv hlive
    · have hin := hinv.livesIn _ List.mem_cons_self
      have hlives : LivesIn (malloc heap w.st n).2.mem b ⟨b.payload, n, 2 ^ k⟩ :=
        { hin with align_dvd := hdvd.trans hin.dvd_ptr }
      have hadopt := (hinv.forget (List.sublist_cons_self _ _)).adopt
        (hinv.owner_mem _ List.mem_cons_self) (hinv.owner_not_free _ List.mem_cons_self) hnew hlives
      exact granted (by simp only [step, halloc, hp, addLive_payload]) (by rintro p m ⟨⟩) hadopt hlive
  have hlarge : 16 < 2 ^ k := not_le.mp hsmall
  have hmod : (n + 2 ^ k) % 2 ^ 64 = n + 2 ^ k := Nat.mod_eq_of_lt hlt
  rcases hi.malloc (n + 2 ^ k) with ⟨h0, hsame, hinv⟩ | ⟨b, blocks', free'', hp, hnew, -, hinv⟩
  · have halloc : alignedAlloc heap w.st (2 ^ k) n = (0, (malloc heap w.st (n + 2 ^ k)).2) := by
      simp only [alignedAlloc, if_neg hsmall, hmod, h0, if_true]
    exact refused (by simp [step, halloc, addLive]) hsame hinv hlive
  set s' := (malloc heap w.st (n + 2 ^ k)).2 with hs'
  have hin := hinv.livesIn _ List.mem_cons_self
  have hroom := hin.le_stop
  have hbase := hin.dvd_ptr
  simp only at hroom hbase
  have hb := hinv.owner_mem _ List.mem_cons_self
  have hnot := hinv.owner_not_free _ List.mem_cons_self
  have hpb : b.payload = b.hdr + 16 := rfl
  have hk : k ≤ 64 := by
    by_contra hk
    have : 2 ^ 64 ≤ 2 ^ k := Nat.pow_le_pow_right (by decide) (by omega)
    omega
  have hstoplt := hinv.stop_lt hb
  simp only at hstoplt
  have hno : b.payload + 2 ^ k - 1 < 2 ^ 64 := by omega
  obtain ⟨hup1, hup2, hup3⟩ := alignUp_spec hk hno
  set p := alignUp b.payload (2 ^ k) with hpdef
  have hp16 : 16 ∣ p := by
    have hk4 : 4 ≤ k := ((Nat.pow_lt_pow_iff_right (by decide)).mp (show 2 ^ 4 < 2 ^ k from hlarge)).le
    exact (show 2 ^ 4 ∣ 2 ^ k from Nat.pow_dvd_pow 2 hk4).trans hup1
  have hrest := hinv.forget (List.sublist_cons_self _ _)
  have hpne : p ≠ 0 := by omega
  by_cases heq : p = b.payload
  · have halloc : alignedAlloc heap w.st (2 ^ k) n = (p, s') := by
      simp only [alignedAlloc, if_neg hsmall, hmod, hp, if_neg (payload_ne_zero b), ← hs', ← hpdef]
      rw [if_neg (not_not.mpr heq)]
    have hlives : LivesIn s'.mem b ⟨p, n, 2 ^ k⟩ := by
      refine ⟨hup2, by simp only; omega, hp16, hup1, Or.inl ⟨heq, ?_⟩⟩
      rcases hin.tag with ⟨-, hoff⟩ | ⟨hle, -⟩
      · exact hoff
      · simp only at hle
        omega
    exact granted (by simp only [step, halloc, addLive, if_neg hpne]) (by rintro p m ⟨⟩)
      (hrest.adopt hb hnot hnew hlives) hlive
  · set m' := setOffset s'.mem (p - 16) (p - b.payload) with hm'
    have halloc : alignedAlloc heap w.st (2 ^ k) n = (p, { s' with mem := m' }) := by
      have hoffset : p - headerSize - (b.payload - headerSize) = p - b.payload := by
        simp only [headerSize]
        omega
      simp only [alignedAlloc, if_neg hsmall, hmod, hp, if_neg (payload_ne_zero b), ← hs', ← hpdef,
        if_pos (show p ≠ b.payload from heq), hoffset]
      rfl
    have hagree : AgreeOutside s'.mem m' b.payload b.stop :=
      agreeOutside_storeLE (by omega) (by omega)
    have hframe := hrest.frame hb hnot (a := b.payload) (show b.hdr + 8 ≤ b.payload by omega)
      (fun y hy heq' => absurd heq' (hnew y hy)) hagree
    have hlives : LivesIn m' b ⟨p, n, 2 ^ k⟩ := by
      refine ⟨hup2, by simp only; omega, hp16, hup1, Or.inr ⟨by simp only; omega, ?_⟩⟩
      have h64 : p - b.payload < 256 ^ 8 := by
        have : (2 : Nat) ^ 32 ≤ 256 ^ 8 := by decide
        omega
      rw [hm', headerOffset, setOffset, loadLE_storeLE_of_lt h64]
    exact granted (by simp only [step, halloc, addLive, if_neg hpne]) (by rintro p m ⟨⟩)
      (hframe.adopt hb hnot hnew hlives) hlive

/-- **One step.** Every valid call keeps the invariant and meets its contract. -/
theorem WorldInv.step (hw : WorldInv heap w) {call : Call} (hv : Valid w call) :
    WorldInv heap (Malloc.step heap w call).2 ∧ StepOk heap w call := by
  obtain ⟨blocks, free', owners, hi, hlive⟩ := hw
  cases call with
  | malloc n => exact step_malloc hi hlive n
  | calloc count size => exact step_calloc hi hlive count size
  | realloc p n => exact step_realloc hi hlive n hv.2
  | alignedAlloc align n =>
      obtain ⟨⟨k, rfl⟩, hlt⟩ := hv
      exact step_alignedAlloc hi hlive n hlt
  | free p => exact step_free hi hlive hv
  | store p i b => exact step_store hi hlive b hv.1 hv.2

end Steps

/-- **Runs.** -/
theorem Reachable.worldInv {w : World} (h : Reachable heap w) : WorldInv heap w := by
  induction h with
  | init hinit => exact worldInv_of_initial hinit
  | step call _ hv ih => exact (ih.step hv).1

/-- The blocks of the heap and the free blocks of every class in list order. -/
structure Layout where
  blocks : List Block
  free : Nat → List Nat

variable (heap) in
/-- A sound heap. The blocks tile what `_sbrk` handed out, each with its class in its header; every
free list is a `NULL`-terminated list without repetition of blocks of its class, no block is on two
lists; every live pointer's bytes are payload bytes of exactly one block, that block is on no list,
`header_of` finds it and no other live pointer shares it. -/
structure HeapOk (w : World) (L : Layout) : Prop where
  tiled : Tiles heap.start (w.st.top heap) L.blocks
  in_heap : w.st.top heap ≤ heap.stop
  disjoint : ∀ b ∈ L.blocks, ∀ b' ∈ L.blocks, b ≠ b' → b.stop ≤ b'.hdr ∨ b'.stop ≤ b.hdr
  header : ∀ b ∈ L.blocks, b.cls < classes ∧ headerCls w.st.mem b.hdr = b.cls
  list : ∀ c < classes, Chain w.st.mem (w.st.freeLists c) (L.free c)
  acyclic : ∀ c < classes, (L.free c).Nodup
  listed : ∀ c < classes, ∀ h ∈ L.free c, ⟨h, c⟩ ∈ L.blocks
  one_list : ∀ c < classes, ∀ c' < classes, ∀ h, h ∈ L.free c → h ∈ L.free c' → c = c'
  in_one_block : ∀ l ∈ w.live,
    ∃! b, b ∈ L.blocks ∧ b.payload ≤ l.ptr ∧ l.ptr + l.size ≤ b.stop
  aligned : ∀ l ∈ w.live, 16 ∣ l.ptr ∧ l.align ∣ l.ptr
  header_found : ∀ l ∈ w.live, ∃ b ∈ L.blocks, headerOf w.st.mem l.ptr = b.hdr ∧
    b.payload ≤ l.ptr ∧ l.ptr + l.size ≤ b.stop ∧ ∀ c < classes, b.hdr ∉ L.free c
  live_apart : w.live.Pairwise fun l l' => headerOf w.st.mem l.ptr ≠ headerOf w.st.mem l'.ptr

/-- A live range is payload of one block only: between two payloads lies a header. -/
theorem block_unique {start top : Nat} {blocks : List Block} (ht : Tiles start top blocks)
    {b b' : Block} (hb : b ∈ blocks) (hb' : b' ∈ blocks) {p n : Nat} (h1 : b.payload ≤ p)
    (h2 : p + n ≤ b.stop) (h1' : b'.payload ≤ p) (h2' : p + n ≤ b'.stop) : b' = b := by
  by_contra hne
  simp only [Block.payload] at h1 h1'
  rcases ht.apart hb' hb hne with h | h <;> omega

theorem WorldInv.heapOk {w : World} (hw : WorldInv heap w) : ∃ L, HeapOk heap w L := by
  obtain ⟨blocks, free', owners, hi, hlive⟩ := hw
  have howner : ∀ l ∈ w.live, ∃ x ∈ owners, x.1 = l := by
    intro l hl
    rw [hlive] at hl
    exact List.mem_map.mp hl
  refine ⟨⟨blocks, free'⟩,
    { tiled := hi.tiles, in_heap := hi.top_le, disjoint := fun b hb b' hb' => hi.tiles.apart hb hb'
      header := fun b hb => ⟨hi.cls_lt b hb, hi.cls_word b hb⟩, list := hi.chain
      acyclic := hi.free_nodup, listed := hi.free_mem, one_list := ?_, in_one_block := ?_
      aligned := ?_, header_found := ?_, live_apart := ?_ }⟩
  · intro c hc c' hc' h hmem hmem'
    have := hi.tiles.eq_of_hdr (hi.free_mem c hc h hmem) (hi.free_mem c' hc' h hmem') rfl
    exact congrArg Block.cls this
  · intro l hl
    obtain ⟨x, hx, rfl⟩ := howner l hl
    have hin := hi.livesIn x hx
    refine ⟨x.2, ⟨hi.owner_mem x hx, hin.payload_le, hin.le_stop⟩, ?_⟩
    rintro b ⟨hb, h1, h2⟩
    exact block_unique hi.tiles (hi.owner_mem x hx) hb hin.payload_le hin.le_stop h1 h2
  · intro l hl
    obtain ⟨x, hx, rfl⟩ := howner l hl
    exact ⟨(hi.livesIn x hx).dvd_ptr, (hi.livesIn x hx).align_dvd⟩
  · intro l hl
    obtain ⟨x, hx, rfl⟩ := howner l hl
    have hin := hi.livesIn x hx
    exact ⟨x.2, hi.owner_mem x hx, hin.headerOf_eq, hin.payload_le, hin.le_stop,
      fun c hc => hi.not_mem_free (hi.owner_mem x hx) (hi.owner_not_free x hx) hc⟩
  · rw [hlive, List.pairwise_map]
    have hnd := List.pairwise_map.mp hi.owner_nodup
    refine hnd.imp_of_mem fun {x y} hx hy hne => ?_
    rwa [(hi.livesIn x hx).headerOf_eq, (hi.livesIn y hy).headerOf_eq]

/-- **The heap invariant.** In every world a run of valid calls can reach the heap is sound, and the
next valid call meets its contract. -/
theorem heap_sound {w : World} (h : Reachable heap w) :
    (∃ L, HeapOk heap w L) ∧ ∀ call, Valid w call → StepOk heap w call :=
  ⟨h.worldInv.heapOk, fun _ hv => (h.worldInv.step hv).2⟩

/-- A heap of 64 KiB in the RAM of the virt boards. -/
def smallHeap : Heap where
  start := 0x80200000
  stop := 0x80210000
  start_pos := by decide
  start_aligned := by decide
  start_le_stop := by decide
  stop_lt := by decide

/-- The world before the first call, with memory full of stale bytes. -/
def bootWorld : World := ⟨⟨fun _ => 0xAA, 0, fun _ => 0, 0⟩, []⟩

/-- After `malloc(8)` at `0x80200010`, `aligned_alloc(64, 40)`, which needs an offset header, and
`free` of the first pointer. -/
def sampleWorld : World :=
  (step smallHeap (step smallHeap (step smallHeap bootWorld (.malloc 8)).2 (.alignedAlloc 64 40)).2
    (.free 0x80200010)).2

theorem heap_sound_sampleWorld :
    sampleWorld.live.map Live.ptr = [0x80200040] ∧
      (∃ L, HeapOk smallHeap sampleWorld L) ∧
        ∀ call, Valid sampleWorld call → StepOk smallHeap sampleWorld call := by
  refine ⟨by decide, ?_⟩
  apply heap_sound
  refine .step _ (.step _ (.step _ (.init ⟨rfl, rfl, fun _ => rfl⟩) ?_) ?_) ?_
  · show 8 < 2 ^ 64
    decide
  · exact ⟨⟨6, by decide⟩, by decide⟩
  · exact Or.inr ⟨⟨0x80200010, 8, 16⟩, by decide, rfl⟩


end Beeros.Malloc
