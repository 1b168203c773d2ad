import Beeros.MallocAlign
import Mathlib.Algebra.BigOperators.Group.Finset.Basic
import Mathlib.Algebra.BigOperators.Group.Finset.Piecewise

/-! How far the heap grows over a run: `_sbrk` is never called for a class that has a free block, so the heap holds, of
each class, as many blocks as were live at one time. -/

namespace Beeros.Malloc

open Memory

/-- The class in the header that a live pointer leads back to. -/
def liveClass (s : State) (p : Nat) : Nat := headerCls s.mem (headerOf s.mem p)

def liveCount (w : World) (c : Nat) : Nat := w.live.countP fun l => liveClass w.st l.ptr = c

variable (heap : Heap)

/-- The worlds a call goes through. A `realloc` that moves a block has the new one before it frees the old one. -/
def passes (w : World) : Call → List World
  | .realloc p n =>
      if p ≠ 0 ∧ usable w.st p < n then [(step heap w (.malloc n)).2, (step heap w (.realloc p n)).2]
      else [(step heap w (.realloc p n)).2]
  | call => [(step heap w call).2]

def peakOver (peak : Nat → Nat) (ws : List World) : Nat → Nat :=
  ws.foldl (fun peak w c => max (peak c) (liveCount w c)) peak

/-- A run of valid calls to a world, and the most live blocks of each class on the way. -/
inductive Peaked : World → (Nat → Nat) → Prop
  | init {w : World} : Initial w → Peaked w fun _ => 0
  | step {w : World} {peak : Nat → Nat} (call : Call) : Peaked w peak → Valid w call →
      Peaked (step heap w call).2 (peakOver peak (passes heap w call))

/-- The end of a heap that holds so many blocks of each class. -/
def extent (count : Nat → Nat) : Nat :=
  heap.start + ∑ c ∈ Finset.range classes, (headerSize + classSize c) * count c

def owned (owners : List (Live × Block)) (c : Nat) : Nat := owners.countP fun x => x.2.cls = c

/-- The heap invariant, with every block free or owned: as many of each class as the heap has ever needed. -/
def Books (s : State) (owners : List (Live × Block)) (peak : Nat → Nat) : Prop :=
  ∃ blocks free', HeapInv heap s blocks free' owners ∧
    (∀ c < classes, (free' c).length + owned owners c = peak c) ∧ s.top heap = extent heap peak

variable {heap} {s : State} {owners : List (Live × Block)} {peak : Nat → Nat}

/-! ### Counting -/

theorem owned_cons (x : Live × Block) (owners : List (Live × Block)) (c : Nat) :
    owned (x :: owners) c = owned owners c + if x.2.cls = c then 1 else 0 := by
  unfold owned
  rw [List.countP_cons]
  simp only [decide_eq_true_eq]

theorem extent_congr {count count' : Nat → Nat} (h : ∀ c < classes, count c = count' c) :
    extent heap count = extent heap count' := by
  have hsum : ∀ c ∈ Finset.range classes,
      (headerSize + classSize c) * count c = (headerSize + classSize c) * count' c :=
    fun c hc => congrArg _ (h c (Finset.mem_range.mp hc))
  unfold extent
  rw [Finset.sum_congr rfl hsum]

/-- One more block of a class. -/
theorem extent_succ {count count' : Nat → Nat} {c : Nat} (hc : c < classes)
    (h : ∀ d < classes, count' d = count d + if c = d then 1 else 0) :
    extent heap count' = extent heap count + (headerSize + classSize c) := by
  unfold extent
  have hsum : ∀ d ∈ Finset.range classes, (headerSize + classSize d) * count' d =
      (headerSize + classSize d) * count d + if c = d then headerSize + classSize d else 0 := by
    intro d hd
    rw [h d (Finset.mem_range.mp hd), Nat.mul_add]
    split_ifs <;> simp
  rw [Finset.sum_congr rfl hsum, Finset.sum_add_distrib, Finset.sum_ite_eq, if_pos (Finset.mem_range.mpr hc),
    Nat.add_assoc]

theorem Books.congr {peak' : Nat → Nat} (h : Books heap s owners peak) (heq : ∀ c < classes, peak' c = peak c) :
    Books heap s owners peak' := by
  obtain ⟨blocks, free', hi, hcount, htop⟩ := h
  refine ⟨blocks, free', hi, fun c hc => ?_, ?_⟩
  · rw [hcount c hc, heq c hc]
  · rw [htop, extent_congr heq]

theorem Books.owned_le (h : Books heap s owners peak) {c : Nat} (hc : c < classes) : owned owners c ≤ peak c := by
  obtain ⟨blocks, free', hi, hcount, htop⟩ := h
  rw [← hcount c hc]
  exact Nat.le_add_left _ _

/-- A world with no more live blocks than before. -/
theorem Books.same (h : Books heap s owners peak) : Books heap s owners fun c => max (peak c) (owned owners c) :=
  h.congr fun _ hc => max_eq_left (h.owned_le hc)

/-! ### Lists -/

theorem Chain.unique {m : Bytes} {h : Nat} {l l' : List Nat} (hl : Chain m h l) (hl' : Chain m h l') : l = l' := by
  induction hl generalizing l' with
  | nil =>
      cases hl' with
      | nil => rfl
      | cons h0 _ => exact absurd rfl h0
  | cons h0 _ ih =>
      cases hl' with
      | nil => exact absurd rfl h0
      | cons _ hrest => rw [ih hrest]

theorem Tiles.top_unique {start top top' : Nat} {bs : List Block} (h : Tiles start top bs)
    (h' : Tiles start top' bs) : top = top' := by
  cases bs with
  | nil => exact h.trans h'.symm
  | cons b bs => exact h.1.symm.trans h'.1

/-! ### `malloc` -/

section Malloc

variable {blocks : List Block} {free' : Nat → List Nat} {n : Nat}

/-- A block is taken off its list. -/
theorem HeapInv.malloc_reuse (hi : HeapInv heap s blocks free' owners) (hc : classOf n < classes)
    (h0 : s.freeLists (classOf n) ≠ 0) :
    ∃ l, free' (classOf n) = s.freeLists (classOf n) :: l ∧
      HeapInv heap (Malloc.malloc heap s n).2 blocks (Function.update free' (classOf n) l) owners := by
  obtain ⟨l, hlist, hunlink⟩ := hi.unlink hc rfl h0
  refine ⟨l, hlist, ?_⟩
  set h := s.freeLists (classOf n) with hh
  have hfree : h ∈ free' (classOf n) := by
    rw [hlist]
    exact List.mem_cons_self
  have hb := hi.free_mem _ hc _ hfree
  have hnd := hi.free_nodup _ hc
  rw [hlist, List.nodup_cons] at hnd
  have hnotfree : h ∉ Function.update free' (classOf n) l (classOf n) := by
    rw [Function.update_self]
    exact hnd.1
  have hnew : ∀ x ∈ owners, x.2 ≠ ⟨h, classOf n⟩ := by
    rintro x hx heq
    have hnot := hi.owner_not_free x hx
    rw [heq] at hnot
    exact hnot hfree
  have hsize := Block.hdr_le_stop ⟨h, classOf n⟩
  dsimp only at hsize
  have hagree : AgreeOutside s.mem (setOffset s.mem h 0) (h + 8) (⟨h, classOf n⟩ : Block).stop :=
    agreeOutside_storeLE le_rfl (by omega)
  rw [malloc_of_free_list hc h0]
  exact hunlink.frame hb hnotfree (a := h + 8) le_rfl (fun x hx heq => absurd heq (hnew x hx)) hagree

/-- A block is carved out of the heap, and no list changes. -/
theorem HeapInv.malloc_carve (hi : HeapInv heap s blocks free' owners) (hc : classOf n < classes)
    (h0 : s.freeLists (classOf n) = 0) (hroom : s.top heap + (16 + classSize (classOf n)) ≤ heap.stop) :
    ∀ d < classes, Chain (Malloc.malloc heap s n).2.mem ((Malloc.malloc heap s n).2.freeLists d) (free' d) := by
  intro d hd
  rw [malloc_of_sbrk hc h0 hroom]
  refine (hi.chain d hd).frame fun h hh => ?_
  have hbound := (hi.tiles.bounds (hi.free_mem d hd h hh)).2
  have hsize := Block.hdr_le_stop ⟨h, d⟩
  dsimp only at hsize
  unfold link setOffset setCls headerSize
  rw [loadLE_storeLE_of_disjoint (by omega), loadLE_storeLE_of_disjoint (by omega)]

/-- The class word of what `malloc` returns. -/
theorem headerCls_malloc (hi : HeapInv heap s blocks free' owners) (hgot : (Malloc.malloc heap s n).1 ≠ 0) :
    headerCls (Malloc.malloc heap s n).2.mem ((Malloc.malloc heap s n).1 - 16) = classOf n := by
  have hc : classOf n < classes := by
    by_contra hc
    rw [malloc_of_too_large (not_lt.mp hc)] at hgot
    exact hgot rfl
  by_cases h0 : s.freeLists (classOf n) = 0
  · rcases lt_or_ge heap.stop (s.top heap + (16 + classSize (classOf n))) with hfull | hroom
    · rw [malloc_of_full hc h0 hfull] at hgot
      exact absurd rfl hgot
    · have hword : classOf n < 256 ^ 8 := hc.trans (by decide)
      rw [malloc_of_sbrk hc h0 hroom]
      dsimp only
      rw [Nat.add_sub_cancel, headerCls, setOffset, loadLE_storeLE_of_disjoint (by omega), setCls,
        loadLE_storeLE_of_lt hword]
  · obtain ⟨l, hlist, -⟩ := hi.malloc_reuse hc h0
    have hmem : s.freeLists (classOf n) ∈ free' (classOf n) := by
      rw [hlist]
      exact List.mem_cons_self
    rw [malloc_of_free_list hc h0]
    dsimp only
    rw [Nat.add_sub_cancel, headerCls, setOffset, loadLE_storeLE_of_disjoint (by omega)]
    exact hi.cls_word _ (hi.free_mem _ hc _ hmem)

end Malloc

/-- `malloc` fails, or hands out a free block, or the class has more live blocks than ever. -/
theorem Books.malloc (h : Books heap s owners peak) (n : Nat) :
    ((malloc heap s n).1 = 0 ∧ Books heap (malloc heap s n).2 owners peak) ∨
      ∃ b, (malloc heap s n).1 = b.payload ∧ (∀ x ∈ owners, x.2 ≠ b) ∧
        Books heap (malloc heap s n).2 ((⟨b.payload, n, 16⟩, b) :: owners)
          fun c => max (peak c) (owned ((⟨b.payload, n, 16⟩, b) :: owners) c) := by
  have hle : ∀ c < classes, owned owners c ≤ peak c := fun _ hc => h.owned_le hc
  obtain ⟨blocks, free', hi, hcount, htop⟩ := h
  rcases hi.malloc n with ⟨hnull, -, hinv⟩ | ⟨b, blocks', free'', hp, hnew, -, hinv⟩
  · refine Or.inl ⟨hnull, blocks, free', hinv, hcount, ?_⟩
    rw [← htop]
    exact hinv.tiles.top_unique hi.tiles
  refine Or.inr ⟨b, hp, hnew, blocks', free'', hinv, ?_⟩
  have hgot : (Malloc.malloc heap s n).1 ≠ 0 := hp ▸ payload_ne_zero b
  have hcls : b.cls = classOf n := by
    rw [← headerCls_malloc hi hgot, hp]
    exact (hinv.cls_word b (hinv.owner_mem _ List.mem_cons_self)).symm
  have hc : classOf n < classes := hcls ▸ hinv.cls_lt b (hinv.owner_mem _ List.mem_cons_self)
  by_cases h0 : s.freeLists (classOf n) = 0
  · rcases lt_or_ge heap.stop (s.top heap + (16 + classSize (classOf n))) with hfull | hroom
    · rw [malloc_of_full hc h0 hfull] at hgot
      exact absurd rfl hgot
    have hlists : ∀ d < classes, free'' d = free' d := fun d hd =>
      (hinv.chain d hd).unique (hi.malloc_carve hc h0 hroom d hd)
    have hempty : free' (classOf n) = [] := by
      have hchain := hi.chain _ hc
      rw [h0] at hchain
      exact hchain.unique .nil
    have hpeak : ∀ d < classes, max (peak d) (owned ((⟨b.payload, n, 16⟩, b) :: owners) d) =
        peak d + if classOf n = d then 1 else 0 := by
      intro d hd
      have hbooks := hcount d hd
      rw [owned_cons, hcls]
      split_ifs with heq
      · rw [← heq, hempty, List.length_nil] at hbooks
        rw [← heq]
        omega
      · exact max_eq_left (hle d hd)
    refine ⟨fun d hd => ?_, ?_⟩
    · dsimp only
      rw [hpeak d hd, hlists d hd, owned_cons, hcls, ← hcount d hd, Nat.add_assoc]
    · have hend : (Malloc.malloc heap s n).2.top heap = s.top heap + (16 + classSize (classOf n)) := by
        have hne : s.top heap + (16 + classSize (classOf n)) ≠ 0 := by omega
        rw [malloc_of_sbrk hc h0 hroom]
        exact if_neg hne
      rw [extent_succ hc hpeak, ← htop, hend, headerSize]
  · obtain ⟨l, hlist, hreuse⟩ := hi.malloc_reuse hc h0
    have hlists : ∀ d < classes, free'' d = Function.update free' (classOf n) l d := fun d hd =>
      (hinv.chain d hd).unique (hreuse.chain d hd)
    have hcount' : ∀ d < classes, (free'' d).length + owned ((⟨b.payload, n, 16⟩, b) :: owners) d = peak d := by
      intro d hd
      have hbooks := hcount d hd
      rw [hlists d hd, owned_cons, hcls]
      by_cases heq : classOf n = d
      · rw [← heq, hlist, List.length_cons] at hbooks
        rw [← heq, Function.update_self, if_pos rfl]
        omega
      · rw [Function.update_of_ne (Ne.symm heq), if_neg heq]
        exact hbooks
    have hpeak : ∀ d < classes, max (peak d) (owned ((⟨b.payload, n, 16⟩, b) :: owners) d) = peak d := by
      intro d hd
      have hbooks := hcount' d hd
      omega
    refine ⟨fun d hd => (hcount' d hd).trans (hpeak d hd).symm, ?_⟩
    rw [extent_congr hpeak, ← htop]
    exact hreuse.tiles.top_unique hi.tiles

/-! ### What is written to a block, and `free` -/

/-- A caller's store behind its own pointer. -/
theorem Books.store (h : Books heap s owners peak) {x : Live × Block} (hx : x ∈ owners) {m' : Bytes}
    (hm : AgreeOutside s.mem m' x.1.ptr x.2.stop) : Books heap { s with mem := m' } owners peak := by
  obtain ⟨blocks, free', hi, hcount, htop⟩ := h
  exact ⟨blocks, free', hi.store hx hm, hcount, htop⟩

/-- The block of the newest pointer gets another pointer into it. -/
theorem Books.readdress {l l' : Live} {b : Block} {m' : Bytes} (h : Books heap s ((l, b) :: owners) peak)
    (hm : AgreeOutside s.mem m' b.payload b.stop) (hl : LivesIn m' b l') :
    Books heap { s with mem := m' } ((l', b) :: owners) peak := by
  obtain ⟨blocks, free', hi, hcount, htop⟩ := h
  have hb := hi.owner_mem _ List.mem_cons_self
  have hnot := hi.owner_not_free _ List.mem_cons_self
  have hnew : ∀ x ∈ owners, x.2 ≠ b := by
    intro x hx heq
    have hnd := hi.owner_nodup
    rw [List.map_cons, List.nodup_cons] at hnd
    refine hnd.1 (List.mem_map.mpr ⟨x, hx, ?_⟩)
    rw [heq]
  have hbehind : b.hdr + 8 ≤ b.payload := Nat.add_le_add_left (by decide) _
  have hframe := (hi.forget (List.sublist_cons_self _ _)).frame hb hnot hbehind
    (fun x hx heq => absurd heq (hnew x hx)) hm
  refine ⟨blocks, free', hframe.adopt hb hnot hnew hl, fun c hc => ?_, htop⟩
  rw [← hcount c hc, owned_cons, owned_cons]

/-- The owners but one. -/
theorem owned_filter {blocks : List Block} {free' : Nat → List Nat}
    (hi : HeapInv heap s blocks free' owners) {x : Live × Block} (hx : x ∈ owners) (c : Nat) :
    owned (owners.filter fun y => y.1.ptr ≠ x.1.ptr) c + (if x.2.cls = c then 1 else 0) = owned owners c := by
  have hnd : owners.Nodup := List.Nodup.of_map _ hi.owner_nodup
  have herase : owners.filter (fun y => y.1.ptr ≠ x.1.ptr) = owners.erase x := by
    rw [hnd.erase_eq_filter]
    refine List.filter_congr fun y hy => ?_
    have hiff : y.1.ptr = x.1.ptr ↔ y = x := ⟨hi.ptr_inj hy hx, fun heq => by rw [heq]⟩
    rw [Bool.eq_iff_iff, decide_eq_true_iff, bne_iff_ne, ne_eq, ne_eq, hiff]
  have hperm := (List.perm_cons_erase hx).countP_eq fun y => decide (y.2.cls = c)
  rw [herase]
  exact (owned_cons x _ c).symm.trans hperm.symm

/-- A pointer is replaced by one into the same block. -/
theorem Books.reown (h : Books heap s owners peak) {x : Live × Block} (hx : x ∈ owners) {l : Live}
    (hl : LivesIn s.mem x.2 l) :
    Books heap s ((l, x.2) :: owners.filter fun y => y.1.ptr ≠ x.1.ptr) peak := by
  obtain ⟨blocks, free', hi, hcount, htop⟩ := h
  have hrest := hi.forget (List.filter_sublist (p := fun y => y.1.ptr ≠ x.1.ptr))
  have hnew := owner_ne_of_mem_filter (w := ⟨s, []⟩) hi hx
  have hadopt := hrest.adopt (hi.owner_mem x hx) (hi.owner_not_free x hx) hnew hl
  refine ⟨blocks, free', hadopt, fun c hc => ?_, htop⟩
  rw [← hcount c hc, owned_cons, owned_filter hi hx]

theorem Books.free (h : Books heap s owners peak) {x : Live × Block} (hx : x ∈ owners) :
    Books heap (free s x.1.ptr) (owners.filter fun y => y.1.ptr ≠ x.1.ptr) peak := by
  obtain ⟨blocks, free', hi, hcount, htop⟩ := h
  obtain ⟨free'', hinv, -⟩ := hi.free hx
  have hb := hi.owner_mem x hx
  have hnot := hi.owner_not_free x hx
  have hsize := x.2.hdr_le_stop
  have hpay := (hi.livesIn x hx).payload_le
  unfold Block.payload at hpay
  set m1 := setOffset s.mem x.2.hdr 0 with hm1
  set m2 := setLink m1 x.2.hdr (s.freeLists x.2.cls) with hm2
  have hcls : headerCls m1 x.2.hdr = x.2.cls := by
    rw [hm1, headerCls, setOffset, loadLE_storeLE_of_disjoint (by omega)]
    exact hi.cls_word x.2 hb
  have hfree : Malloc.free s x.1.ptr =
      { s with mem := m2, freeLists := Function.update s.freeLists x.2.cls x.2.hdr } := by
    have hne : x.1.ptr ≠ 0 := by omega
    simp only [Malloc.free, if_neg hne, (hi.livesIn x hx).headerOf_eq, ← hm1, hcls, ← hm2]
  have hlink : link m2 x.2.hdr = s.freeLists x.2.cls := by
    rw [hm2, link, setLink, loadLE_storeLE_of_lt (hi.head_lt (hi.cls_lt _ hb))]
  have hagree : AgreeOutside s.mem m2 (x.2.hdr + 8) x.2.stop :=
    (agreeOutside_storeLE (by omega) (by omega)).trans
      (agreeOutside_storeLE (by unfold headerSize; omega) (by unfold headerSize; omega))
  have hframe := (hi.forget (List.nil_sublist owners)).frame hb hnot (a := x.2.hdr + 8) le_rfl
    (fun y hy => absurd hy (List.not_mem_nil)) hagree
  have hlists : ∀ d < classes, free'' d = Function.update free' x.2.cls (x.2.hdr :: free' x.2.cls) d := by
    intro d hd
    have hnext := hinv.chain d hd
    have hold := hframe.chain d hd
    rw [hfree] at hnext
    dsimp only at hnext hold
    refine hnext.unique ?_
    by_cases heq : d = x.2.cls
    · rw [heq, Function.update_self, Function.update_self]
      refine .cons (hi.hdr_pos hb).ne' ?_
      rw [hlink, ← heq]
      exact hold
    · rw [Function.update_of_ne heq, Function.update_of_ne heq]
      exact hold
  refine ⟨blocks, free'', hinv, fun c hc => ?_, ?_⟩
  · rw [hlists c hc, ← hcount c hc, ← owned_filter hi hx c]
    by_cases heq : x.2.cls = c
    · rw [← heq, Function.update_self, if_pos rfl, List.length_cons]
      omega
    · rw [Function.update_of_ne (Ne.symm heq), if_neg heq]
      omega
  · rw [← htop]
    exact hinv.tiles.top_unique hi.tiles

/-! ### Runs -/

variable (heap) in
def WorldBooks (w : World) (peak : Nat → Nat) : Prop :=
  ∃ owners, Books heap w.st owners peak ∧ w.live = owners.map Prod.fst

theorem Books.liveCount_eq (h : Books heap s owners peak) (c : Nat) :
    liveCount ⟨s, owners.map Prod.fst⟩ c = owned owners c := by
  obtain ⟨blocks, free', hi, -, -⟩ := h
  unfold liveCount owned
  rw [List.countP_map]
  refine List.countP_congr fun x hx => ?_
  have hclass : liveClass s x.1.ptr = x.2.cls := by
    rw [liveClass, (hi.livesIn x hx).headerOf_eq, hi.cls_word _ (hi.owner_mem x hx)]
  simp only [Function.comp_apply, hclass]

/-- A world that the heap has grown for. -/
theorem Books.grown (h : Books heap s owners fun c => max (peak c) (owned owners c)) :
    WorldBooks heap ⟨s, owners.map Prod.fst⟩ (peakOver peak [⟨s, owners.map Prod.fst⟩]) := by
  refine ⟨owners, h.congr fun c _ => ?_, rfl⟩
  show max (peak c) (liveCount ⟨s, owners.map Prod.fst⟩ c) = _
  rw [h.liveCount_eq]

theorem Books.kept (h : Books heap s owners peak) :
    WorldBooks heap ⟨s, owners.map Prod.fst⟩ (peakOver peak [⟨s, owners.map Prod.fst⟩]) := h.same.grown

theorem Books.errno (h : Books heap s owners peak) (e : Nat) : Books heap { s with errno := e } owners peak := by
  obtain ⟨blocks, free', hi, hcount, htop⟩ := h
  exact ⟨blocks, free', { hi with }, hcount, htop⟩

/-- The pointer of `aligned_alloc` lies in its block, with the way back to the header in place. -/
theorem livesIn_alignUp {m : Bytes} {b : Block} {n k : Nat} (hlarge : alignment < 2 ^ k) (hstop : b.stop < 2 ^ 32)
    (hin : LivesIn m b ⟨b.payload, n + 2 ^ k, 16⟩) :
    (alignUp b.payload (2 ^ k) = b.payload → LivesIn m b ⟨b.payload, n, 2 ^ k⟩) ∧
      (alignUp b.payload (2 ^ k) ≠ b.payload →
        LivesIn (setOffset m (alignUp b.payload (2 ^ k) - headerSize)
          (alignUp b.payload (2 ^ k) - headerSize - (b.payload - headerSize))) b
            ⟨alignUp b.payload (2 ^ k), n, 2 ^ k⟩ ∧
          AgreeOutside m (setOffset m (alignUp b.payload (2 ^ k) - headerSize)
            (alignUp b.payload (2 ^ k) - headerSize - (b.payload - headerSize))) b.payload b.stop) := by
  have hroom := hin.le_stop
  have hbase := hin.dvd_ptr
  dsimp only at hroom hbase
  have hpay : b.payload = b.hdr + 16 := rfl
  have hk : k ≤ 64 := by
    by_contra hk
    have : 2 ^ 64 ≤ 2 ^ k := Nat.pow_le_pow_right (by decide) (by omega)
    omega
  obtain ⟨hup, hle, hnear⟩ := alignUp_spec hk (show b.payload + 2 ^ k - 1 < 2 ^ 64 by omega)
  generalize alignUp b.payload (2 ^ k) = p at hup hle hnear ⊢
  have hk4 : 4 ≤ k := ((Nat.pow_lt_pow_iff_right (by decide)).mp (show 2 ^ 4 < 2 ^ k from hlarge)).le
  have hdvd : 16 ∣ p := (show 2 ^ 4 ∣ 2 ^ k from Nat.pow_dvd_pow 2 hk4).trans hup
  constructor
  · rintro rfl
    refine ⟨le_rfl, by dsimp only; omega, hdvd, hup, Or.inl ⟨rfl, ?_⟩⟩
    rcases hin.tag with ⟨-, hoff⟩ | ⟨hbehind, -⟩
    · exact hoff
    · dsimp only at hbehind
      omega
  · intro hne
    have hback : p - headerSize - (b.payload - headerSize) = p - b.payload := by
      unfold headerSize
      omega
    rw [hback]
    have hword : p - b.payload < 256 ^ 8 := by
      have : (2 : Nat) ^ 32 ≤ 256 ^ 8 := by decide
      omega
    refine ⟨⟨hle, by dsimp only; omega, hdvd, hup, Or.inr ⟨by dsimp only; omega, ?_⟩⟩, ?_⟩
    · exact loadLE_storeLE_of_lt hword
    · exact agreeOutside_storeLE (by unfold headerSize; omega) (by unfold headerSize; omega)

section Calls

variable {w : World} (h : Books heap w.st owners peak) (hlive : w.live = owners.map Prod.fst)

include h hlive

theorem books_malloc (n : Nat) :
    WorldBooks heap (step heap w (.malloc n)).2 (peakOver peak [(step heap w (.malloc n)).2]) := by
  rcases h.malloc n with ⟨hnull, hb⟩ | ⟨b, hp, -, hb⟩
  · have hstep : (step heap w (.malloc n)).2 = ⟨(malloc heap w.st n).2, owners.map Prod.fst⟩ := by
      simp [step, addLive, hnull, hlive]
    rw [hstep]
    exact hb.kept
  · have hstep : (step heap w (.malloc n)).2 =
        ⟨(malloc heap w.st n).2, ((⟨b.payload, n, 16⟩, b) :: owners).map Prod.fst⟩ := by
      simp only [step, hp, addLive_payload, hlive, List.map_cons]
    rw [hstep]
    exact hb.grown

theorem books_calloc (count size : Nat) :
    WorldBooks heap (step heap w (.calloc count size)).2 (peakOver peak [(step heap w (.calloc count size)).2]) := by
  by_cases hover : count * size ≥ 2 ^ 64
  · have hstep : (step heap w (.calloc count size)).2 = ⟨{ w.st with errno := enomem }, owners.map Prod.fst⟩ := by
      simp only [step, calloc, if_pos hover, addLive, if_true, hlive]
    rw [hstep]
    exact (h.errno enomem).kept
  rcases h.malloc (count * size) with ⟨hnull, hb⟩ | ⟨b, hp, -, hb⟩
  · have hstep : (step heap w (.calloc count size)).2 =
        ⟨(malloc heap w.st (count * size)).2, owners.map Prod.fst⟩ := by
      simp only [step, calloc, if_neg hover, hnull, if_true, addLive, hlive]
    rw [hstep]
    exact hb.kept
  · have hstep : (step heap w (.calloc count size)).2 =
        ⟨{ (malloc heap w.st (count * size)).2 with
            mem := fill (malloc heap w.st (count * size)).2.mem b.payload (count * size) 0 },
          ((⟨b.payload, count * size, 16⟩, b) :: owners).map Prod.fst⟩ := by
      simp only [step, calloc, if_neg hover, hp, if_neg (payload_ne_zero b), addLive_payload, hlive, List.map_cons]
    have hstop : b.payload + count * size ≤ b.stop := by
      obtain ⟨blocks, free', hi, -, -⟩ := hb
      exact (hi.livesIn _ List.mem_cons_self).le_stop
    rw [hstep]
    exact (hb.store List.mem_cons_self (agreeOutside_fill le_rfl hstop)).grown

theorem books_free {p : Nat} (hp : p = 0 ∨ IsLive w p) :
    WorldBooks heap (step heap w (.free p)).2 (peakOver peak [(step heap w (.free p)).2]) := by
  rcases hp with rfl | hp
  · have hdrop : dropLive w.live 0 = owners.map Prod.fst := by
      obtain ⟨blocks, free', hi, -, -⟩ := h
      rw [dropLive_zero hi hlive, hlive]
    have hstep : (step heap w (.free 0)).2 = ⟨w.st, owners.map Prod.fst⟩ := by
      simp only [step, free, if_true, hdrop]
    rw [hstep]
    exact h.kept
  · obtain ⟨x, hx, rfl⟩ := exists_owner hlive hp
    have hstep : (step heap w (.free x.1.ptr)).2 =
        ⟨free w.st x.1.ptr, (owners.filter fun y => y.1.ptr ≠ x.1.ptr).map Prod.fst⟩ := by
      simp only [step, hlive, dropLive_map]
    rw [hstep]
    exact (h.free hx).kept

theorem books_store {p i : Nat} (b : UInt8) (hp : IsLive w p) (hlt : i < usable w.st p) :
    WorldBooks heap (step heap w (.store p i b)).2 (peakOver peak [(step heap w (.store p i b)).2]) := by
  obtain ⟨x, hx, rfl⟩ := exists_owner hlive hp
  have hstop : x.1.ptr + i < x.2.stop := by
    obtain ⟨blocks, free', hi, -, -⟩ := h
    rw [(hi.livesIn x hx).usable_eq (hi.cls_word _ (hi.owner_mem x hx))] at hlt
    omega
  have hagree : AgreeOutside w.st.mem (Function.update w.st.mem (x.1.ptr + i) b) x.1.ptr x.2.stop :=
    fun j hj => Function.update_of_ne (by omega) _ _
  have hstep : (step heap w (.store x.1.ptr i b)).2 =
      ⟨{ w.st with mem := Function.update w.st.mem (x.1.ptr + i) b }, owners.map Prod.fst⟩ := by
    simp only [step, hlive]
  rw [hstep]
  exact (h.store hx hagree).kept

/-- A `realloc` that moves a block needs both for a moment. -/
theorem books_realloc_move {x : Live × Block} (hx : x ∈ owners) {n : Nat} (h0 : x.1.ptr ≠ 0)
    (hmove : usable w.st x.1.ptr < n) :
    WorldBooks heap (step heap w (.realloc x.1.ptr n)).2
      (peakOver peak [(step heap w (.malloc n)).2, (step heap w (.realloc x.1.ptr n)).2]) := by
  show WorldBooks heap _ (peakOver (peakOver peak [(step heap w (.malloc n)).2]) [_])
  have hfits : ¬n ≤ usable w.st x.1.ptr := not_le.mpr hmove
  rcases h.malloc n with ⟨hnull, hb⟩ | ⟨b, hp, hnew, hb⟩
  · have hmid : (step heap w (.malloc n)).2 = ⟨(malloc heap w.st n).2, owners.map Prod.fst⟩ := by
      simp [step, addLive, hnull, hlive]
    have hstep : (step heap w (.realloc x.1.ptr n)).2 = ⟨(malloc heap w.st n).2, owners.map Prod.fst⟩ := by
      simp only [step, realloc, if_neg h0, if_neg hfits, hnull, if_true, hlive]
    rw [hmid, hstep]
    refine Books.kept (hb.congr fun c hc => ?_)
    show max (peak c) (liveCount ⟨(malloc heap w.st n).2, owners.map Prod.fst⟩ c) = _
    rw [hb.liveCount_eq]
    exact max_eq_left (hb.owned_le hc)
  · have hmid : (step heap w (.malloc n)).2 =
        ⟨(malloc heap w.st n).2, ((⟨b.payload, n, 16⟩, b) :: owners).map Prod.fst⟩ := by
      simp only [step, hp, addLive_payload, hlive, List.map_cons]
    have hpeak : peakOver peak [(step heap w (.malloc n)).2] =
        fun c => max (peak c) (owned ((⟨b.payload, n, 16⟩, b) :: owners) c) := by
      rw [hmid]
      ext c
      show max (peak c) (liveCount ⟨(malloc heap w.st n).2, _⟩ c) = _
      rw [hb.liveCount_eq]
    have hsize : x.1.ptr + usable w.st x.1.ptr = x.2.stop := by
      obtain ⟨blocks, free', hi, -, -⟩ := h
      have hstop := (hi.livesIn x hx).le_stop
      rw [(hi.livesIn x hx).usable_eq (hi.cls_word _ (hi.owner_mem x hx))]
      omega
    have hroom : b.payload + n ≤ b.stop := by
      obtain ⟨blocks, free', hi, -, -⟩ := hb
      exact (hi.livesIn _ List.mem_cons_self).le_stop
    have hx' : x ∈ (⟨b.payload, n, 16⟩, b) :: owners := List.mem_cons_of_mem _ hx
    have hne : b.payload ≠ x.1.ptr := by
      intro heq
      obtain ⟨blocks, free', hi, -, -⟩ := hb
      have hsame := hi.ptr_inj (x := (⟨b.payload, n, 16⟩, b)) (y := x) List.mem_cons_self hx' heq
      exact hnew x hx (by rw [← hsame])
    set m' := copy (malloc heap w.st n).2.mem b.payload (malloc heap w.st n).2.mem x.1.ptr (usable w.st x.1.ptr)
      with hm'
    have hagree : AgreeOutside (malloc heap w.st n).2.mem m' b.payload b.stop :=
      agreeOutside_copy le_rfl (by omega)
    have hfree := (hb.store List.mem_cons_self hagree).free hx'
    rw [List.filter_cons_of_pos (by simpa using hne)] at hfree
    have hstep : (step heap w (.realloc x.1.ptr n)).2 =
        ⟨free { (malloc heap w.st n).2 with mem := m' } x.1.ptr,
          ((⟨b.payload, n, 16⟩, b) :: owners.filter fun y => y.1.ptr ≠ x.1.ptr).map Prod.fst⟩ := by
      simp only [step, realloc, if_neg h0, if_neg hfits, hp, if_neg (payload_ne_zero b), ← hm', addLive_payload, hlive,
        dropLive_map, List.map_cons]
    rw [hpeak, hstep]
    exact hfree.kept

theorem books_realloc {p n : Nat} (hp : p = 0 ∨ IsLive w p) :
    WorldBooks heap (step heap w (.realloc p n)).2 (peakOver peak (passes heap w (.realloc p n))) := by
  by_cases h0 : p = 0
  · -- `realloc(NULL, n)` is `malloc(n)`
    subst h0
    have hdrop : dropLive w.live 0 = w.live := by
      obtain ⟨blocks, free', hi, -, -⟩ := h
      exact dropLive_zero hi hlive
    have hstep : step heap w (.realloc 0 n) = step heap w (.malloc n) := by
      simp only [step, realloc, if_true, hdrop]
      by_cases hq : (malloc heap w.st n).1 = 0
      · simp [hq, addLive]
      · simp [hq]
    have hpass : passes heap w (.realloc 0 n) = [(step heap w (.malloc n)).2] := by
      rw [passes, if_neg fun hmove => hmove.1 rfl, hstep]
    rw [hpass, hstep]
    exact books_malloc h hlive n
  obtain ⟨x, hx, rfl⟩ := exists_owner hlive (hp.resolve_left h0)
  by_cases hmove : usable w.st x.1.ptr < n
  · rw [passes, if_pos ⟨h0, hmove⟩]
    exact books_realloc_move h hlive hx h0 hmove
  · have hfits := not_lt.mp hmove
    have hlives : LivesIn w.st.mem x.2 ⟨x.1.ptr, n, 16⟩ := by
      obtain ⟨blocks, free', hi, -, -⟩ := h
      have hin := hi.livesIn x hx
      have hstop := hin.le_stop
      rw [hin.usable_eq (hi.cls_word _ (hi.owner_mem x hx))] at hfits
      refine ⟨hin.payload_le, ?_, hin.dvd_ptr, hin.dvd_ptr, hin.tag⟩
      dsimp only
      omega
    have hstep : (step heap w (.realloc x.1.ptr n)).2 = ⟨w.st,
        ((⟨x.1.ptr, n, 16⟩, x.2) :: owners.filter fun y => y.1.ptr ≠ x.1.ptr).map Prod.fst⟩ := by
      simp only [step, realloc, if_neg h0, if_pos hfits, addLive, hlive, dropLive_map, List.map_cons]
    rw [passes, if_neg fun hboth => hmove hboth.2, hstep]
    exact (h.reown hx hlives).kept

theorem books_alignedAlloc {n k : Nat} (hlt : n + 2 ^ k < 2 ^ 64) :
    WorldBooks heap (step heap w (.alignedAlloc (2 ^ k) n)).2
      (peakOver peak [(step heap w (.alignedAlloc (2 ^ k) n)).2]) := by
  by_cases hsmall : 2 ^ k ≤ alignment
  · have halloc : alignedAlloc heap w.st (2 ^ k) n = malloc heap w.st n := if_pos hsmall
    rcases h.malloc n with ⟨hnull, hb⟩ | ⟨b, hp, -, hb⟩
    · have hstep : (step heap w (.alignedAlloc (2 ^ k) n)).2 = ⟨(malloc heap w.st n).2, owners.map Prod.fst⟩ := by
        simp only [step, halloc, addLive, hnull, if_true, hlive]
      rw [hstep]
      exact hb.kept
    · have hstep : (step heap w (.alignedAlloc (2 ^ k) n)).2 =
          ⟨(malloc heap w.st n).2, ((⟨b.payload, n, 2 ^ k⟩, b) :: owners).map Prod.fst⟩ := by
        simp only [step, halloc, hp, addLive_payload, hlive, List.map_cons]
      have hlives : LivesIn (malloc heap w.st n).2.mem b ⟨b.payload, n, 2 ^ k⟩ := by
        obtain ⟨blocks, free', hi, -, -⟩ := hb
        have hin := hi.livesIn _ List.mem_cons_self
        have hk : k ≤ 4 := (Nat.pow_le_pow_iff_right (by decide)).mp (hsmall.trans (by decide))
        have hdvd : 2 ^ k ∣ 2 ^ 4 := Nat.pow_dvd_pow 2 hk
        exact { hin with align_dvd := hdvd.trans hin.dvd_ptr }
      rw [hstep]
      exact (hb.readdress (fun _ _ => rfl) hlives).grown
  have hmod : (n + 2 ^ k) % 2 ^ 64 = n + 2 ^ k := Nat.mod_eq_of_lt hlt
  rcases h.malloc (n + 2 ^ k) with ⟨hnull, hb⟩ | ⟨b, hp, -, hb⟩
  · have hstep : (step heap w (.alignedAlloc (2 ^ k) n)).2 =
        ⟨(malloc heap w.st (n + 2 ^ k)).2, owners.map Prod.fst⟩ := by
      simp only [step, alignedAlloc, if_neg hsmall, hmod, hnull, if_true, addLive, hlive]
    rw [hstep]
    exact hb.kept
  · obtain ⟨hsame, hmoved⟩ : (alignUp b.payload (2 ^ k) = b.payload → _) ∧ _ := by
      obtain ⟨blocks, free', hi, -, -⟩ := hb
      exact livesIn_alignUp (not_le.mp hsmall) (hi.stop_lt (hi.owner_mem _ List.mem_cons_self))
        (hi.livesIn _ List.mem_cons_self)
    by_cases heq : alignUp b.payload (2 ^ k) = b.payload
    · have hstep : (step heap w (.alignedAlloc (2 ^ k) n)).2 =
          ⟨(malloc heap w.st (n + 2 ^ k)).2, ((⟨b.payload, n, 2 ^ k⟩, b) :: owners).map Prod.fst⟩ := by
        simp only [step, alignedAlloc, if_neg hsmall, hmod, hp, if_neg (payload_ne_zero b), heq, ne_eq,
          not_true_eq_false, if_false, addLive_payload, hlive, List.map_cons]
      rw [hstep]
      exact (hb.readdress (fun _ _ => rfl) (hsame heq)).grown
    · obtain ⟨hlives, hagree⟩ := hmoved heq
      have hne : alignUp b.payload (2 ^ k) ≠ 0 := by
        have hpos : 0 < b.payload := Nat.pos_of_ne_zero (payload_ne_zero b)
        exact (hpos.trans_le hlives.payload_le).ne'
      have hstep : (step heap w (.alignedAlloc (2 ^ k) n)).2 =
          ⟨{ (malloc heap w.st (n + 2 ^ k)).2 with
              mem := setOffset (malloc heap w.st (n + 2 ^ k)).2.mem (alignUp b.payload (2 ^ k) - headerSize)
                (alignUp b.payload (2 ^ k) - headerSize - (b.payload - headerSize)) },
            ((⟨alignUp b.payload (2 ^ k), n, 2 ^ k⟩, b) :: owners).map Prod.fst⟩ := by
        simp only [step, alignedAlloc, if_neg hsmall, hmod, hp, if_neg (payload_ne_zero b), ne_eq, heq,
          not_false_eq_true, if_true, addLive, if_neg hne, hlive, List.map_cons]
      rw [hstep]
      exact (hb.readdress hagree hlives).grown

end Calls

theorem WorldBooks.step {w : World} (hw : WorldBooks heap w peak) {call : Call} (hv : Valid w call) :
    WorldBooks heap (step heap w call).2 (peakOver peak (passes heap w call)) := by
  obtain ⟨owners, h, hlive⟩ := hw
  cases call with
  | malloc n => exact books_malloc h hlive n
  | calloc count size => exact books_calloc h hlive count size
  | realloc p n => exact books_realloc h hlive hv.2
  | alignedAlloc align n =>
      obtain ⟨⟨k, rfl⟩, hlt⟩ := hv
      exact books_alignedAlloc h hlive hlt
  | free p => exact books_free h hlive hv
  | store p i b => exact books_store h hlive b hv.1 hv.2

theorem worldBooks_initial {w : World} (h : Initial w) : WorldBooks heap w fun _ => 0 := by
  obtain ⟨blocks, free', owners, hi, hlive⟩ := worldInv_of_initial h
  obtain ⟨hnone, hbrk, hempty⟩ := h
  have howners : owners = [] := List.map_eq_nil_iff.mp (hlive.symm.trans hnone)
  refine ⟨owners, ⟨blocks, free', hi, fun c hc => ?_, ?_⟩, hlive⟩
  · have hchain := hi.chain c hc
    rw [hempty c] at hchain
    rw [hchain.unique .nil, howners]
    rfl
  · rw [State.top, if_pos hbrk]
    unfold extent
    simp

theorem Peaked.worldBooks {w : World} (h : Peaked heap w peak) : WorldBooks heap w peak := by
  induction h with
  | init hinit => exact worldBooks_initial hinit
  | step call _ hv ih => exact ih.step hv

/-- A class has a free block unless as many are live as ever were. -/
theorem Books.freeLists_eq_zero (h : Books heap s owners peak) {c : Nat} (hc : c < classes) :
    s.freeLists c = 0 ↔ owned owners c = peak c := by
  obtain ⟨blocks, free', hi, hcount, -⟩ := h
  have hchain := hi.chain c hc
  have hsum := hcount c hc
  constructor
  · intro hzero
    rw [hzero] at hchain
    rw [hchain.unique .nil, List.length_nil] at hsum
    omega
  · intro hall
    have hnil : free' c = [] := List.eq_nil_of_length_eq_zero (by omega)
    rw [hnil] at hchain
    generalize s.freeLists c = head at hchain
    cases hchain
    rfl

/-- The heap ends where the most blocks of each class that were live at one time end, side by side; a request is
refused only when there is no room for one block more than that. -/
theorem heap_end_exact {w : World} (h : Peaked heap w peak) :
    w.st.top heap = heap.start + ∑ c ∈ Finset.range classes, (headerSize + classSize c) * peak c ∧
      (∀ c < classes, liveCount w c ≤ peak c) ∧
      ∀ n, (malloc heap w.st n).1 = 0 ↔ 2 ^ 31 < n ∨ liveCount w (classOf n) = peak (classOf n) ∧
        heap.stop < w.st.top heap + (headerSize + classSize (classOf n)) := by
  obtain ⟨owners, hb, hlive⟩ := h.worldBooks
  have hcount : ∀ c, liveCount w c = owned owners c := by
    intro c
    rw [← hb.liveCount_eq c, ← hlive]
  have hend : w.st.top heap = extent heap peak := by
    obtain ⟨blocks, free', -, -, htop⟩ := hb
    exact htop
  refine ⟨hend, fun c hc => ?_, fun n => ?_⟩
  · rw [hcount c]
    exact hb.owned_le hc
  · rw [malloc_eq_zero_iff, hcount (classOf n)]
    by_cases hlarge : 2 ^ 31 < n
    · exact iff_of_true (Or.inl hlarge) (Or.inl hlarge)
    · unfold Refused
      rw [hb.freeLists_eq_zero (classOf_lt (not_lt.mp hlarge)), headerSize]

/-- Three blocks of 16 bytes, two of them at one time. -/
def reusingWorld : World :=
  (step smallHeap (step smallHeap (step smallHeap (step smallHeap bootWorld (.malloc 8)).2 (.malloc 16)).2
    (.free 0x80200010)).2 (.malloc 3)).2

theorem heap_end_exact_reusing : ∃ peak : Nat → Nat, peak 0 = 2 ∧ reusingWorld.live.length = 2 ∧
    reusingWorld.st.top smallHeap = 0x80200040 ∧
      reusingWorld.st.top smallHeap =
        smallHeap.start + ∑ c ∈ Finset.range classes, (headerSize + classSize c) * peak c := by
  obtain ⟨peak, hpeak, hrun⟩ : ∃ peak : Nat → Nat, peak 0 = 2 ∧ Peaked smallHeap reusingWorld peak := by
    refine ⟨_, ?_, .step _ (.step _ (.step _ (.step _ (.init ⟨rfl, rfl, fun _ => rfl⟩) ?_) ?_) ?_) ?_⟩
    · decide
    · show 8 < 2 ^ 64
      decide
    · show 16 < 2 ^ 64
      decide
    · exact Or.inr ⟨⟨0x80200010, 8, 16⟩, by decide, rfl⟩
    · show 3 < 2 ^ 64
      decide
  exact ⟨peak, hpeak, by decide, by decide, (heap_end_exact hrun).1⟩

end Beeros.Malloc
