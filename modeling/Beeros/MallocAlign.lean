import Beeros.MallocRuns

/-! `aligned_alloc` and its two other names. The request `n + align` is formed in `size_t` arithmetic: where it wraps
around, a short block is taken and the pointer is rounded up past what it holds. -/

namespace Beeros.Malloc

open Memory

variable (heap : Heap)

/-- `malloc` finds no block of `m` bytes: the request is above the largest class, or its free list is empty and the
heap has no room. -/
def Refused (s : State) (m : Nat) : Prop :=
  2 ^ 31 < m ∨ s.freeLists (classOf m) = 0 ∧ heap.stop < s.top heap + (16 + classSize (classOf m))

/-- The header right before `p` lies between the header that `header_of` finds and the end of its block. -/
def InOwnBlock (m : Bytes) (p : Nat) : Prop :=
  headerOf m p + headerSize ≤ p ∧ p ≤ headerOf m p + headerSize + classSize (headerCls m (headerOf m p))

/-- `NULL`, or an aligned pointer to at least `n` usable bytes with its header in its own block. -/
def Served (align n p : Nat) (s : State) : Prop :=
  p = 0 ∨ align ∣ p ∧ n ≤ mallocUsableSize s p ∧ InOwnBlock s.mem p

instance (m : Bytes) (p : Nat) : Decidable (InOwnBlock m p) := inferInstanceAs (Decidable (_ ∧ _))

instance (align n p : Nat) (s : State) : Decidable (Served align n p s) := inferInstanceAs (Decidable (_ ∨ _))

variable {heap}

theorem malloc_eq_zero_iff (s : State) (m : Nat) : (malloc heap s m).1 = 0 ↔ Refused heap s m := by
  have htop : 0 < s.top heap := by
    have := heap.start_pos
    unfold State.top
    split_ifs <;> omega
  unfold Refused
  by_cases hc : 2 ^ 31 < m
  · rw [malloc_of_too_large (classOf_eq_classes hc).ge]
    exact iff_of_true rfl (.inl hc)
  · have hlt := classOf_lt (not_lt.mp hc)
    by_cases h0 : s.freeLists (classOf m) = 0
    · rcases lt_or_ge heap.stop (s.top heap + (16 + classSize (classOf m))) with hfull | hroom
      · rw [malloc_of_full hlt h0 hfull]
        exact iff_of_true rfl (.inr ⟨h0, hfull⟩)
      · rw [malloc_of_sbrk hlt h0 hroom]
        exact iff_of_false (Nat.succ_ne_zero _) fun h => h.elim hc fun h => absurd h.2 (not_lt.mpr hroom)
    · rw [malloc_of_free_list hlt h0]
      exact iff_of_false (Nat.succ_ne_zero _) fun h => h.elim hc fun h => h0 h.1

/-- A live pointer is served. -/
theorem WorldInv.served {w : World} (hw : WorldInv heap w) {l : Live} (hl : l ∈ w.live) :
    Served l.align l.size l.ptr w.st := by
  obtain ⟨blocks, free', owners, hi, hlive⟩ := hw
  rw [hlive] at hl
  obtain ⟨x, hx, rfl⟩ := List.mem_map.mp hl
  have hin := hi.livesIn x hx
  have hcls := hi.cls_word _ (hi.owner_mem x hx)
  have hpay := hin.payload_le
  have hstop := hin.le_stop
  unfold Block.payload at hpay
  refine .inr ⟨hin.align_dvd, ?_, ?_⟩
  · rw [mallocUsableSize, if_neg (by omega), hin.usable_eq hcls]
    omega
  · unfold InOwnBlock headerSize
    rw [hin.headerOf_eq, hcls]
    unfold Block.stop at hstop
    omega

/-- A request that does not wrap around is served. -/
theorem alignedAlloc_served {w : World} (hw : WorldInv heap w) {k n : Nat} (hlt : n + 2 ^ k < 2 ^ 64) :
    Served (2 ^ k) n (alignedAlloc heap w.st (2 ^ k) n).1 (alignedAlloc heap w.st (2 ^ k) n).2 := by
  have hvalid : Valid w (.alignedAlloc (2 ^ k) n) := ⟨⟨k, rfl⟩, hlt⟩
  have hnext := (hw.step hvalid).1
  by_cases h0 : (alignedAlloc heap w.st (2 ^ k) n).1 = 0
  · exact .inl h0
  · refine hnext.served (l := ⟨(alignedAlloc heap w.st (2 ^ k) n).1, n, 2 ^ k⟩) ?_
    show _ ∈ addLive w.live (alignedAlloc heap w.st (2 ^ k) n).1 n (2 ^ k)
    rw [addLive, if_neg h0]
    exact List.mem_cons_self

theorem alignedAlloc_of_block {s s' : State} {align n base : Nat} (hlarge : alignment < align)
    (hm : malloc heap s ((n + align) % 2 ^ 64) = (base, s')) (h0 : base ≠ 0) :
    alignedAlloc heap s align n = if alignUp base align ≠ base then
        (alignUp base align, { s' with
          mem := setOffset s'.mem (alignUp base align - headerSize)
            (alignUp base align - headerSize - (base - headerSize)) })
      else (alignUp base align, s') := by
  unfold alignedAlloc
  rw [if_neg (not_le.mpr hlarge), hm]
  dsimp only
  rw [if_neg h0]

/-- A request that wraps around gets a block, and is not served: the block is short, or the header of the pointer lies
behind it. -/
theorem alignedAlloc_wrapped {w : World} (hw : WorldInv heap w) {k n : Nat} (hk : k < 64) (hn : n < 2 ^ 64)
    (hlarge : alignment < 2 ^ k) (hwrap : 2 ^ 64 ≤ n + 2 ^ k) (hgot : ¬Refused heap w.st ((n + 2 ^ k) % 2 ^ 64)) :
    ¬Served (2 ^ k) n (alignedAlloc heap w.st (2 ^ k) n).1 (alignedAlloc heap w.st (2 ^ k) n).2 := by
  obtain ⟨blocks, free', owners, hi, -⟩ := hw
  rw [← malloc_eq_zero_iff] at hgot
  obtain ⟨h0, -⟩ | ⟨b, blocks', free'', hp, -, -, hinv⟩ := hi.malloc ((n + 2 ^ k) % 2 ^ 64)
  · exact absurd h0 hgot
  have hm : malloc heap w.st ((n + 2 ^ k) % 2 ^ 64) = (b.payload, (malloc heap w.st ((n + 2 ^ k) % 2 ^ 64)).2) :=
    Prod.ext hp rfl
  rw [alignedAlloc_of_block hlarge hm (payload_ne_zero b)]
  generalize (malloc heap w.st ((n + 2 ^ k) % 2 ^ 64)).2 = s' at hinv ⊢
  have hpay : b.payload = b.hdr + 16 := rfl
  have hb := hinv.owner_mem _ List.mem_cons_self
  have hpos := hinv.hdr_pos hb
  have hstop := hinv.stop_lt hb
  have hsize := b.hdr_le_stop
  have hin := hinv.livesIn _ List.mem_cons_self
  have h63 : 2 ^ k ≤ 2 ^ 63 := Nat.pow_le_pow_right (by decide) (by omega)
  dsimp only at hb hpos hstop hin
  obtain ⟨hup, hle, hnear⟩ := alignUp_spec (show k ≤ 64 by omega) (show b.payload + 2 ^ k - 1 < 2 ^ 64 by omega)
  generalize alignUp b.payload (2 ^ k) = p at hup hle hnear ⊢
  by_cases heq : p = b.payload
  · -- no offset: the block ends below 2 ^ 32
    rw [if_neg (not_not.mpr heq)]
    rintro (h0 | ⟨-, hshort, -⟩)
    · dsimp only at h0
      omega
    · dsimp only at hshort
      rw [mallocUsableSize, if_neg (by omega), heq, hin.usable_eq (hinv.cls_word b hb)] at hshort
      dsimp only at hshort
      omega
  · -- the header before `p` leads back to the block, which ends before `p`
    rw [if_pos heq]
    have hk4 : 4 ≤ k := ((Nat.pow_lt_pow_iff_right (by decide)).mp (show 2 ^ 4 < 2 ^ k from hlarge)).le
    have hdvd : 16 ∣ p := (show 2 ^ 4 ∣ 2 ^ k from Nat.pow_dvd_pow 2 hk4).trans hup
    have hdvd' := hinv.hdr_aligned hb
    have hback : p - headerSize - (b.payload - headerSize) = p - b.payload := by
      unfold headerSize
      omega
    rw [hback]
    set m' := setOffset s'.mem (p - headerSize) (p - b.payload) with hm'
    have hoffset : headerOffset m' (p - headerSize) = p - b.payload :=
      loadLE_storeLE_of_lt (show p - b.payload < 2 ^ 64 by omega)
    have hcls : headerCls m' b.hdr = b.cls :=
      (loadLE_storeLE_of_disjoint (by unfold headerSize; omega)).trans (hinv.cls_word b hb)
    have hheader : headerOf m' p = b.hdr := by
      rw [headerOf, hoffset]
      unfold headerSize
      rw [if_pos (by omega)]
      omega
    rintro (h0 | ⟨-, hshort, hown⟩)
    · dsimp only at h0
      omega
    · dsimp only at hshort hown
      unfold InOwnBlock at hown
      rw [hheader, hcls] at hown
      rw [mallocUsableSize, if_neg (by omega), usable, hheader, hcls, sizeSub_of_le hown.1,
        sizeSub_of_le (by omega)] at hshort
      unfold Block.stop at hstop
      omega

/-- The request is small enough, or nothing is found for what it wraps around to. -/
def Serves (heap : Heap) (s : State) (align n : Nat) : Prop :=
  align ≤ alignment ∨ n + align < 2 ^ 64 ∨ Refused heap s ((n + align) % 2 ^ 64)

theorem served_iff_serves {w : World} (hw : WorldInv heap w) {k n : Nat} (hk : k < 64) (hn : n < 2 ^ 64) :
    Served (2 ^ k) n (alignedAlloc heap w.st (2 ^ k) n).1 (alignedAlloc heap w.st (2 ^ k) n).2 ↔
      Serves heap w.st (2 ^ k) n := by
  by_cases hlt : n + 2 ^ k < 2 ^ 64
  · exact iff_of_true (alignedAlloc_served hw hlt) (.inr (.inl hlt))
  have hwrap := not_lt.mp hlt
  by_cases hsmall : 2 ^ k ≤ alignment
  · have hlarge : 2 ^ 31 < n := by
      unfold alignment at hsmall
      omega
    refine iff_of_true (.inl ?_) (.inl hsmall)
    rw [alignedAlloc, if_pos hsmall, malloc_eq_zero_iff]
    exact .inl hlarge
  · have hlarge := not_le.mp hsmall
    by_cases hrefused : Refused heap w.st ((n + 2 ^ k) % 2 ^ 64)
    · refine iff_of_true (.inl ?_) (.inr (.inr hrefused))
      unfold alignedAlloc
      rw [if_neg hsmall]
      dsimp only
      rw [if_pos ((malloc_eq_zero_iff _ _).mpr hrefused)]
    · exact iff_of_false (alignedAlloc_wrapped hw hk hn hlarge hwrap hrefused)
        fun h => h.elim hsmall fun h => h.elim hlt hrefused

theorem posixMemalign_out (s : State) (align n : Nat) :
    (posixMemalign heap s align n).1.2.getD 0 = (alignedAlloc heap s align n).1 ∧
      (posixMemalign heap s align n).2 = (alignedAlloc heap s align n).2 := by
  unfold posixMemalign
  dsimp only
  split_ifs with h
  · exact ⟨h.symm, rfl⟩
  · exact ⟨rfl, rfl⟩

/-- `aligned_alloc`, `memalign` and `posix_memalign` return `NULL` or what was asked for exactly when the request does
not wrap around to one that `malloc` finds a block for. -/
theorem alignedAlloc_served_iff {w : World} (hw : Reachable heap w) {align n : Nat} (halign : ∃ k, align = 2 ^ k)
    (hlt : align < 2 ^ 64) (hn : n < 2 ^ 64) :
    (Served align n (alignedAlloc heap w.st align n).1 (alignedAlloc heap w.st align n).2 ↔
        Serves heap w.st align n) ∧
      (Served align n (memalign heap w.st align n).1 (memalign heap w.st align n).2 ↔ Serves heap w.st align n) ∧
      (Served align n ((posixMemalign heap w.st align n).1.2.getD 0) (posixMemalign heap w.st align n).2 ↔
        Serves heap w.st align n) := by
  obtain ⟨k, rfl⟩ := halign
  have hiff := served_iff_serves hw.worldInv ((Nat.pow_lt_pow_iff_right (by decide)).mp hlt) hn
  refine ⟨hiff, hiff, ?_⟩
  rw [(posixMemalign_out _ _ _).1, (posixMemalign_out _ _ _).2]
  exact hiff

theorem alignedAlloc_served_iff_boot :
    let s := bootWorld.st
    (Served 64 40 (alignedAlloc smallHeap s 64 40).1 (alignedAlloc smallHeap s 64 40).2 ↔ Serves smallHeap s 64 40) ∧
      (Served 64 40 (memalign smallHeap s 64 40).1 (memalign smallHeap s 64 40).2 ↔ Serves smallHeap s 64 40) ∧
      (Served 64 40 ((posixMemalign smallHeap s 64 40).1.2.getD 0) (posixMemalign smallHeap s 64 40).2 ↔
        Serves smallHeap s 64 40) :=
  alignedAlloc_served_iff (.init ⟨rfl, rfl, fun _ => rfl⟩) ⟨6, rfl⟩ (by decide) (by decide)

/-- 15 bytes less than the largest request, on a boundary of 32 bytes: a block of 16 bytes, none of which is left. -/
theorem not_served_wrapped : ¬∀ (heap : Heap) (w : World) (align n : Nat), Reachable heap w → (∃ k, align = 2 ^ k) →
    align < 2 ^ 64 → n < 2 ^ 64 →
      Served align n (alignedAlloc heap w.st align n).1 (alignedAlloc heap w.st align n).2 := by
  intro h
  have hserved := h smallHeap bootWorld 32 (2 ^ 64 - 16) (.init ⟨rfl, rfl, fun _ => rfl⟩) ⟨5, rfl⟩ (by decide)
    (by decide)
  exact absurd hserved (by decide)

end Beeros.Malloc
