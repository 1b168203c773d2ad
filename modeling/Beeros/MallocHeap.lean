import Beeros.Malloc
import Mathlib.Data.List.Nodup
import Mathlib.Data.List.Pairwise

/-! The heap invariant of the allocator over whole runs. A world is the allocator's state with the
list of live pointers; a run is any sequence of calls in which `free` and `realloc` get live
pointers, interleaved with stores of the callers into their own bytes. The ghost part of the
invariant lists the blocks carved out by `_sbrk` (newest first), the free blocks of every class in
list order and the block each live pointer sits in. Every step writes inside one block only, so the
proofs come down to one frame lemma for memories that agree outside a block. -/

namespace Beeros.Malloc

open Memory

/-- A block: its header's address and its size class. -/
structure Block where
  hdr : Nat
  cls : Nat
  deriving DecidableEq

/-- What `malloc` returns for the block. -/
def Block.payload (b : Block) : Nat := b.hdr + 16

/-- The end of the block. -/
def Block.stop (b : Block) : Nat := b.hdr + 16 + classSize b.cls

/-- The blocks fill the heap from `start` to `top` without gaps, newest first. -/
def Tiles (start : Nat) : Nat → List Block → Prop
  | top, [] => top = start
  | top, b :: bs => b.stop = top ∧ Tiles start b.hdr bs

/-- The list headed at `h` is threaded through the blocks' link words and ends in `NULL`. -/
inductive Chain (m : Bytes) : Nat → List Nat → Prop
  | nil : Chain m 0 []
  | cons {h : Nat} {l : List Nat} : h ≠ 0 → Chain m (link m h) l → Chain m h (h :: l)

/-- A pointer handed out and not freed: the bytes asked for and the alignment promised. -/
structure Live where
  ptr : Nat
  size : Nat
  align : Nat
  deriving DecidableEq

structure World where
  st : State
  live : List Live

/-- A call of the allocator, or a store of a caller to byte `i` behind its pointer `p`. -/
inductive Call
  | malloc (n : Nat)
  | calloc (count size : Nat)
  | realloc (p n : Nat)
  | alignedAlloc (align n : Nat)
  | free (p : Nat)
  | store (p i : Nat) (b : UInt8)

variable (heap : Heap)

/-- The live list after an allocation returned `p`. -/
def addLive (live : List Live) (p size align : Nat) : List Live :=
  if p = 0 then live else ⟨p, size, align⟩ :: live

def dropLive (live : List Live) (p : Nat) : List Live := live.filter fun l => l.ptr ≠ p

/-- The pointer a call returns (`0` for `free` and a store) and the world after it. -/
def step (w : World) : Call → Nat × World
  | .malloc n =>
      let (p, st) := malloc heap w.st n
      (p, ⟨st, addLive w.live p n 16⟩)
  | .calloc count size =>
      let (p, st) := calloc heap w.st count size
      (p, ⟨st, addLive w.live p (count * size) 16⟩)
  | .realloc p n =>
      let (q, st) := realloc heap w.st p n
      (q, ⟨st, if q = 0 then w.live else addLive (dropLive w.live p) q n 16⟩)
  | .alignedAlloc align n =>
      let (p, st) := alignedAlloc heap w.st align n
      (p, ⟨st, addLive w.live p n align⟩)
  | .free p => (0, ⟨free w.st p, dropLive w.live p⟩)
  | .store p i b => (0, { w with st := { w.st with mem := Function.update w.st.mem (p + i) b } })

def IsLive (w : World) (p : Nat) : Prop := ∃ l ∈ w.live, l.ptr = p

/-- What the callers promise: 64-bit sizes, power-of-two alignments, `free` and `realloc` of live
pointers (or `NULL`), stores within the usable bytes. -/
def Valid (w : World) : Call → Prop
  | .malloc n => n < 2 ^ 64
  | .calloc count size => count < 2 ^ 64 ∧ size < 2 ^ 64
  | .realloc p n => n < 2 ^ 64 ∧ (p = 0 ∨ IsLive w p)
  | .alignedAlloc align n => (∃ k, align = 2 ^ k) ∧ n + align < 2 ^ 64
  | .free p => p = 0 ∨ IsLive w p
  | .store p i _ => IsLive w p ∧ i < usable w.st p

/-- Empty free lists, nothing carved out yet, any memory contents. -/
def Initial (w : World) : Prop :=
  w.live = [] ∧ w.st.brk = 0 ∧ ∀ c, w.st.freeLists c = 0

inductive Reachable : World → Prop
  | init {w : World} : Initial w → Reachable w
  | step {w : World} (call : Call) : Reachable w → Valid w call → Reachable (step heap w call).2

/-- The current end of the carved-out heap. -/
def State.top (s : State) : Nat := if s.brk = 0 then heap.start else s.brk

/-- `l` lives in `b`: its bytes are payload bytes, and the way back to the header is in place,
either the header itself right before the pointer or the offset header of `aligned_alloc`. -/
structure LivesIn (m : Bytes) (b : Block) (l : Live) : Prop where
  payload_le : b.payload ≤ l.ptr
  le_stop : l.ptr + l.size ≤ b.stop
  dvd_ptr : 16 ∣ l.ptr
  align_dvd : l.align ∣ l.ptr
  tag : l.ptr = b.payload ∧ headerOffset m b.hdr = 0 ∨
    b.payload + 16 ≤ l.ptr ∧ headerOffset m (l.ptr - 16) = l.ptr - b.payload

/-- The invariant, with the blocks, the free lists and the owners of the live pointers as ghosts. -/
structure HeapInv (s : State) (blocks : List Block) (free : Nat → List Nat)
    (owners : List (Live × Block)) : Prop where
  tiles : Tiles heap.start (s.top heap) blocks
  top_le : s.top heap ≤ heap.stop
  cls_lt : ∀ b ∈ blocks, b.cls < classes
  cls_word : ∀ b ∈ blocks, headerCls s.mem b.hdr = b.cls
  chain : ∀ c < classes, Chain s.mem (s.freeLists c) (free c)
  free_mem : ∀ c < classes, ∀ h ∈ free c, ⟨h, c⟩ ∈ blocks
  free_nodup : ∀ c < classes, (free c).Nodup
  owner_mem : ∀ x ∈ owners, x.2 ∈ blocks
  owner_not_free : ∀ x ∈ owners, x.2.hdr ∉ free x.2.cls
  livesIn : ∀ x ∈ owners, LivesIn s.mem x.2 x.1
  owner_nodup : (owners.map fun x => x.2.hdr).Nodup

/-! ### The four outcomes of `malloc` -/

section Outcomes

variable {heap} {s : State} {n : Nat}

theorem malloc_of_too_large (hc : classes ≤ classOf n) :
    malloc heap s n = (0, { s with errno := enomem }) := by
  simp only [malloc, ge_iff_le, if_pos hc]

theorem malloc_of_free_list (hc : classOf n < classes) (h0 : s.freeLists (classOf n) ≠ 0) :
    malloc heap s n = (s.freeLists (classOf n) + 16,
      { s with
        freeLists := Function.update s.freeLists (classOf n) (link s.mem (s.freeLists (classOf n)))
        mem := setOffset s.mem (s.freeLists (classOf n)) 0 }) := by
  simp only [malloc, ge_iff_le, if_neg (not_le.mpr hc), if_pos h0, headerSize]

theorem malloc_of_full (hc : classOf n < classes) (h0 : s.freeLists (classOf n) = 0)
    (hfull : heap.stop < s.top heap + (16 + classSize (classOf n))) :
    malloc heap s n = (0, { s with brk := s.top heap, errno := enomem }) := by
  have hsbrk : sbrk heap s (headerSize + classSize (classOf n)) =
      (none, { s with brk := s.top heap, errno := enomem }) := if_pos hfull
  simp only [malloc, ge_iff_le, if_neg (not_le.mpr hc), h0, ne_eq, not_true_eq_false, if_false,
    hsbrk]

theorem malloc_of_sbrk (hc : classOf n < classes) (h0 : s.freeLists (classOf n) = 0)
    (hroom : s.top heap + (16 + classSize (classOf n)) ≤ heap.stop) :
    malloc heap s n = (s.top heap + 16,
      { s with
        brk := s.top heap + (16 + classSize (classOf n))
        mem := setOffset (setCls s.mem (s.top heap) (classOf n)) (s.top heap) 0 }) := by
  have hsbrk : sbrk heap s (headerSize + classSize (classOf n)) = (some (s.top heap),
      { s with brk := s.top heap + (16 + classSize (classOf n)) }) := if_neg (not_lt.mpr hroom)
  simp only [malloc, ge_iff_le, if_neg (not_le.mpr hc), h0, ne_eq, not_true_eq_false, if_false,
    hsbrk]
  rfl

end Outcomes

/-! ### Blocks -/

theorem Block.hdr_le_stop (b : Block) : b.hdr + 32 ≤ b.stop := by
  have := sixteen_le_classSize b.cls
  simp only [stop]
  omega

theorem Tiles.start_le {start top : Nat} {bs : List Block} (h : Tiles start top bs) :
    start ≤ top := by
  induction bs generalizing top with
  | nil => exact h.ge
  | cons b bs ih =>
      have := ih h.2
      have := b.hdr_le_stop
      rw [← h.1]
      omega

theorem Tiles.bounds {start top : Nat} {bs : List Block} (h : Tiles start top bs) {b : Block}
    (hb : b ∈ bs) : start ≤ b.hdr ∧ b.stop ≤ top := by
  induction bs generalizing top with
  | nil => cases hb
  | cons a bs ih =>
      have hlow := h.2.start_le
      have hstop := a.hdr_le_stop
      rcases List.mem_cons.mp hb with rfl | hb
      · exact ⟨hlow, h.1.le⟩
      · obtain ⟨h1, h2⟩ := ih h.2 hb
        have := h.1
        exact ⟨h1, by omega⟩

/-- Two blocks of a tiled heap are one behind the other. -/
theorem Tiles.apart {start top : Nat} {bs : List Block} (h : Tiles start top bs) {b b' : Block}
    (hb : b ∈ bs) (hb' : b' ∈ bs) (hne : b ≠ b') : b.stop ≤ b'.hdr ∨ b'.stop ≤ b.hdr := by
  induction bs generalizing top with
  | nil => cases hb
  | cons a bs ih =>
      rcases List.mem_cons.mp hb with h1 | h1 <;> rcases List.mem_cons.mp hb' with h2 | h2
      · exact absurd (h1.trans h2.symm) hne
      · rw [h1]
        exact Or.inr (h.2.bounds h2).2
      · rw [h2]
        exact Or.inl (h.2.bounds h1).2
      · exact ih h.2 h1 h2

theorem Tiles.eq_of_hdr {start top : Nat} {bs : List Block} (h : Tiles start top bs) {b b' : Block}
    (hb : b ∈ bs) (hb' : b' ∈ bs) (heq : b.hdr = b'.hdr) : b = b' := by
  by_contra hne
  have h1 := b.hdr_le_stop
  have h2 := b'.hdr_le_stop
  rcases h.apart hb hb' hne with h | h <;> omega

theorem Tiles.aligned {start top : Nat} {bs : List Block} (h : Tiles start top bs)
    (hs : 16 ∣ start) : 16 ∣ top ∧ ∀ b ∈ bs, 16 ∣ b.hdr := by
  induction bs generalizing top with
  | nil => exact ⟨h ▸ hs, by simp⟩
  | cons b bs ih =>
      obtain ⟨h1, h2⟩ := ih h.2
      have hsize := sixteen_dvd_classSize b.cls
      refine ⟨?_, ?_⟩
      · rw [← h.1, Block.stop]
        omega
      · intro a ha
        rcases List.mem_cons.mp ha with rfl | ha
        · exact h1
        · exact h2 a ha

/-! ### Memories that agree outside one block -/

/-- A chain survives a memory that agrees with the old one on its link words. -/
theorem Chain.frame {m m' : Bytes} {h : Nat} {l : List Nat} (hc : Chain m h l)
    (hl : ∀ x ∈ l, link m' x = link m x) : Chain m' h l := by
  induction hc with
  | nil => exact .nil
  | @cons h l h0 hrest ih =>
      refine .cons h0 ?_
      rw [hl h List.mem_cons_self]
      exact ih fun x hx => hl x (List.mem_cons_of_mem _ hx)

/-- The bytes that lead from a live pointer back to its block are those up to the pointer. -/
theorem LivesIn.frame {m m' : Bytes} {b : Block} {l : Live} (h : LivesIn m b l)
    (hm : AgreeOn m m' b.hdr (l.ptr - b.hdr)) : LivesIn m' b l := by
  have hp := h.payload_le
  simp only [Block.payload] at hp
  refine { h with tag := ?_ }
  rcases h.tag with ⟨h1, h2⟩ | ⟨h1, h2⟩
  · refine Or.inl ⟨h1, ?_⟩
    rw [← h2]
    exact loadLE_congr (hm.mono (by omega) (by omega))
  · simp only [Block.payload] at h1
    refine Or.inr ⟨h1, ?_⟩
    rw [← h2]
    exact loadLE_congr (hm.mono (by omega) (by omega))

/-- `header_of` finds the header of the block a live pointer sits in. -/
theorem LivesIn.headerOf_eq {m : Bytes} {b : Block} {l : Live} (h : LivesIn m b l) :
    headerOf m l.ptr = b.hdr := by
  have hp := h.payload_le
  rcases h.tag with ⟨h1, h2⟩ | ⟨h1, h2⟩
  · have hbase : l.ptr - headerSize = b.hdr := by
      rw [h1, Block.payload, headerSize]
      omega
    rw [headerOf, hbase]
    simp [h2]
  · simp only [Block.payload] at h1 h2 hp
    have hne : headerOffset m (l.ptr - headerSize) ≠ 0 := by
      rw [headerSize, h2]
      omega
    simp only [headerOf, if_pos hne]
    rw [headerSize, h2]
    omega

/-- All bytes from a live pointer to the end of its block are usable. -/
theorem LivesIn.usable_eq {s : State} {b : Block} {l : Live} (h : LivesIn s.mem b l)
    (hcls : headerCls s.mem b.hdr = b.cls) : usable s l.ptr = b.stop - l.ptr := by
  have hp := h.payload_le
  have hstop := h.le_stop
  simp only [Block.payload] at hp
  simp only [Block.stop] at hstop
  simp only [usable, h.headerOf_eq, hcls, headerSize, Block.stop]
  rw [sizeSub_of_le hp, sizeSub_of_le (by omega)]
  omega

section Inv

variable {heap} {s : State} {blocks : List Block} {free' : Nat → List Nat}
  {owners : List (Live × Block)}

theorem HeapInv.hdr_pos (hi : HeapInv heap s blocks free' owners) {b : Block} (hb : b ∈ blocks) :
    0 < b.hdr := heap.start_pos.trans_le (hi.tiles.bounds hb).1

theorem HeapInv.stop_lt (hi : HeapInv heap s blocks free' owners) {b : Block} (hb : b ∈ blocks) :
    b.stop < 2 ^ 32 :=
  ((hi.tiles.bounds hb).2.trans hi.top_le).trans_lt heap.stop_lt

theorem HeapInv.hdr_aligned (hi : HeapInv heap s blocks free' owners) {b : Block}
    (hb : b ∈ blocks) : 16 ∣ b.hdr := (hi.tiles.aligned heap.start_aligned).2 b hb

/-- A block is on no free list but its own class's. -/
theorem HeapInv.not_mem_free (hi : HeapInv heap s blocks free' owners) {b : Block}
    (hb : b ∈ blocks) (hnot : b.hdr ∉ free' b.cls) {c : Nat} (hc : c < classes) :
    b.hdr ∉ free' c := by
  intro h
  have := hi.tiles.eq_of_hdr hb (hi.free_mem c hc _ h) rfl
  rw [this] at hnot
  exact hnot h

/-- The head of a free list is a block address, so a link word holds it. -/
theorem HeapInv.head_lt (hi : HeapInv heap s blocks free' owners) {c : Nat} (hc : c < classes) :
    s.freeLists c < 256 ^ 8 := by
  have hchain := hi.chain c hc
  have hmem := hi.free_mem c hc
  generalize s.freeLists c = h at hchain
  generalize free' c = l at hchain hmem
  cases hchain with
  | nil => decide
  | cons _ _ =>
      have h1 := hi.stop_lt (hmem h List.mem_cons_self)
      have h2 := Block.hdr_le_stop ⟨h, c⟩
      simp only at h2
      have : (2 : Nat) ^ 32 ≤ 256 ^ 8 := by decide
      omega

theorem HeapInv.owner_of_live (hi : HeapInv heap s blocks free' owners) {x y : Live × Block}
    (hx : x ∈ owners) (hy : y ∈ owners) (h : x.2 = y.2) : x = y := by
  have hnd := hi.owner_nodup
  exact List.inj_on_of_nodup_map hnd hx hy (by rw [h])

/-- Live pointers of different entries are different. -/
theorem HeapInv.ptr_inj (hi : HeapInv heap s blocks free' owners) {x y : Live × Block}
    (hx : x ∈ owners) (hy : y ∈ owners) (h : x.1.ptr = y.1.ptr) : x = y := by
  apply hi.owner_of_live hx hy
  apply hi.tiles.eq_of_hdr (hi.owner_mem x hx) (hi.owner_mem y hy)
  rw [← (hi.livesIn x hx).headerOf_eq, h, (hi.livesIn y hy).headerOf_eq]

/-- **The frame lemma.** A memory that differs from the old one inside one block only, behind the
class word and behind the pointers that live in the block, keeps the invariant when the block is on
no free list. -/
theorem HeapInv.frame (hi : HeapInv heap s blocks free' owners) {b : Block} (hb : b ∈ blocks)
    (hnot : b.hdr ∉ free' b.cls) {a : Nat} (ha : b.hdr + 8 ≤ a)
    (howner : ∀ x ∈ owners, x.2 = b → x.1.ptr ≤ a) {m' : Bytes}
    (hm : AgreeOutside s.mem m' a b.stop) :
    HeapInv heap { s with mem := m' } blocks free' owners := by
  have hother : ∀ b' ∈ blocks, b' ≠ b → AgreeOn s.mem m' b'.hdr (b'.stop - b'.hdr) := by
    intro b' hb' hne
    have := b'.hdr_le_stop
    exact hm.agreeOn (by have := hi.tiles.apart hb' hb hne; omega)
  refine
    { tiles := hi.tiles, top_le := hi.top_le, cls_lt := hi.cls_lt, cls_word := ?_, chain := ?_,
      free_mem := hi.free_mem, free_nodup := hi.free_nodup, owner_mem := hi.owner_mem,
      owner_not_free := hi.owner_not_free, livesIn := ?_, owner_nodup := hi.owner_nodup }
  · intro b' hb'
    rw [← hi.cls_word b' hb']
    have := b'.hdr_le_stop
    by_cases hbb : b' = b
    · exact loadLE_congr (hm.agreeOn (by rw [hbb]; omega))
    · exact loadLE_congr ((hother b' hb' hbb).mono le_rfl (by omega))
  · intro c hc
    refine (hi.chain c hc).frame fun h hh => ?_
    have hne : (⟨h, c⟩ : Block) ≠ b := by
      rintro rfl
      exact hnot hh
    have hsize := Block.hdr_le_stop ⟨h, c⟩
    simp only at hsize
    refine loadLE_congr ((hother _ (hi.free_mem c hc h hh) hne).mono ?_ ?_) <;>
      simp only [headerSize] <;> omega
  · intro y hy
    have hlive := hi.livesIn y hy
    have hstop := hlive.le_stop
    have hpay := hlive.payload_le
    simp only [Block.payload] at hpay
    refine hlive.frame ?_
    by_cases hyb : y.2 = b
    · have := howner y hy hyb
      exact hm.agreeOn (by omega)
    · exact (hother _ (hi.owner_mem y hy) hyb).mono le_rfl (by omega)

/-- A caller's store behind its own pointer. -/
theorem HeapInv.store (hi : HeapInv heap s blocks free' owners) {x : Live × Block}
    (hx : x ∈ owners) {m' : Bytes} (hm : AgreeOutside s.mem m' x.1.ptr x.2.stop) :
    HeapInv heap { s with mem := m' } blocks free' owners := by
  have hpay := (hi.livesIn x hx).payload_le
  simp only [Block.payload] at hpay
  refine hi.frame (hi.owner_mem x hx) (hi.owner_not_free x hx) (a := x.1.ptr) (by omega) ?_ hm
  intro y hy hyx
  rw [hi.owner_of_live hy hx hyx]

/-- Forgetting live pointers. -/
theorem HeapInv.forget (hi : HeapInv heap s blocks free' owners) {owners' : List (Live × Block)}
    (h : owners'.Sublist owners) : HeapInv heap s blocks free' owners' :=
  { hi with
    owner_mem := fun x hx => hi.owner_mem x (h.subset hx)
    owner_not_free := fun x hx => hi.owner_not_free x (h.subset hx)
    livesIn := fun x hx => hi.livesIn x (h.subset hx)
    owner_nodup := hi.owner_nodup.sublist (h.map _) }

/-- A block that is neither free nor owned gets an owner. -/
theorem HeapInv.adopt (hi : HeapInv heap s blocks free' owners) {b : Block} {l : Live}
    (hb : b ∈ blocks) (hnot : b.hdr ∉ free' b.cls) (hown : ∀ x ∈ owners, x.2 ≠ b)
    (hl : LivesIn s.mem b l) : HeapInv heap s blocks free' ((l, b) :: owners) := by
  refine { hi with owner_mem := ?_, owner_not_free := ?_, livesIn := ?_, owner_nodup := ?_ }
  · intro x hx
    rcases List.mem_cons.mp hx with rfl | hx
    · exact hb
    · exact hi.owner_mem x hx
  · intro x hx
    rcases List.mem_cons.mp hx with rfl | hx
    · exact hnot
    · exact hi.owner_not_free x hx
  · intro x hx
    rcases List.mem_cons.mp hx with rfl | hx
    · exact hl
    · exact hi.livesIn x hx
  · rw [List.map_cons, List.nodup_cons]
    refine ⟨?_, hi.owner_nodup⟩
    intro hmem
    obtain ⟨x, hx, hhdr⟩ := List.mem_map.mp hmem
    exact hown x hx (hi.tiles.eq_of_hdr (hi.owner_mem x hx) hb hhdr)

/-- Taking the head of a free list off it. -/
theorem HeapInv.unlink (hi : HeapInv heap s blocks free' owners) {c h : Nat} (hc : c < classes)
    (hh : s.freeLists c = h) (h0 : h ≠ 0) :
    ∃ l, free' c = h :: l ∧
      HeapInv heap { s with freeLists := Function.update s.freeLists c (link s.mem h) } blocks
        (Function.update free' c l) owners := by
  have hchain := hi.chain c hc
  rw [hh] at hchain
  cases hlist : free' c with
  | nil =>
      rw [hlist] at hchain
      cases hchain
      exact absurd rfl h0
  | cons h' l =>
      rw [hlist] at hchain
      cases hchain with
      | cons _ hrest =>
      have hsub : ∀ d, (Function.update free' c l d).Sublist (free' d) := by
        intro d
        by_cases hd : d = c
        · subst hd
          rw [Function.update_self, hlist]
          exact List.sublist_cons_self _ _
        · rw [Function.update_of_ne hd]
      refine ⟨l, rfl, { hi with chain := ?_, free_mem := ?_, free_nodup := ?_, owner_not_free := ?_ }⟩
      · intro d hd
        by_cases hdc : d = c
        · subst hdc
          simpa using hrest
        · simpa [Function.update_of_ne hdc] using hi.chain d hd
      · exact fun d hd x hx => hi.free_mem d hd x ((hsub d).subset hx)
      · exact fun d hd => (hi.free_nodup d hd).sublist (hsub d)
      · exact fun x hx hmem => hi.owner_not_free x hx ((hsub _).subset hmem)

/-- Putting a block that nobody owns at the head of its class's list. -/
theorem HeapInv.push (hi : HeapInv heap s blocks free' owners) {b : Block} (hb : b ∈ blocks)
    (hnot : b.hdr ∉ free' b.cls) (hown : ∀ x ∈ owners, x.2 ≠ b)
    (hlink : link s.mem b.hdr = s.freeLists b.cls) :
    HeapInv heap { s with freeLists := Function.update s.freeLists b.cls b.hdr } blocks
      (Function.update free' b.cls (b.hdr :: free' b.cls)) owners := by
  refine { hi with chain := ?_, free_mem := ?_, free_nodup := ?_, owner_not_free := ?_ }
  · intro d hd
    by_cases hdc : d = b.cls
    · subst hdc
      simp only [Function.update_self]
      refine .cons (hi.hdr_pos hb).ne' ?_
      rw [hlink]
      exact hi.chain _ hd
    · simpa [Function.update_of_ne hdc] using hi.chain d hd
  · intro d hd x hx
    by_cases hdc : d = b.cls
    · subst hdc
      rw [Function.update_self] at hx
      rcases List.mem_cons.mp hx with rfl | hx
      · exact hb
      · exact hi.free_mem _ hd x hx
    · rw [Function.update_of_ne hdc] at hx
      exact hi.free_mem d hd x hx
  · intro d hd
    by_cases hdc : d = b.cls
    · subst hdc
      rw [Function.update_self]
      exact List.nodup_cons.mpr ⟨hnot, hi.free_nodup _ hd⟩
    · rw [Function.update_of_ne hdc]
      exact hi.free_nodup d hd
  · intro x hx hmem
    by_cases hdc : x.2.cls = b.cls
    · rw [hdc, Function.update_self] at hmem
      rcases List.mem_cons.mp hmem with hhdr | hmem
      · exact hown x hx (hi.tiles.eq_of_hdr (hi.owner_mem x hx) hb hhdr)
      · rw [← hdc] at hmem
        exact hi.owner_not_free x hx hmem
    · rw [Function.update_of_ne hdc] at hmem
      exact hi.owner_not_free x hx hmem

/-- Carving a new block out of the heap; only bytes above the old end may change. -/
theorem HeapInv.grow (hi : HeapInv heap s blocks free' owners) {b : Block} {m' : Bytes}
    (hhdr : b.hdr = s.top heap) (hcls : b.cls < classes) (hstop : b.stop ≤ heap.stop)
    (hm : AgreeOutside s.mem m' b.hdr b.stop) (hword : headerCls m' b.hdr = b.cls) :
    HeapInv heap { s with brk := b.stop, mem := m' } (b :: blocks) free' owners := by
  have hsize := b.hdr_le_stop
  have htop : ({ s with brk := b.stop, mem := m' } : State).top heap = b.stop := by
    rw [State.top, if_neg (by simp only; omega)]
  have hold : ∀ b' ∈ blocks, AgreeOn s.mem m' b'.hdr (b'.stop - b'.hdr) := by
    intro b' hb'
    have hbound := (hi.tiles.bounds hb').2
    have := b'.hdr_le_stop
    exact hm.agreeOn (by omega)
  refine
    { tiles := ?_, top_le := ?_, cls_lt := ?_, cls_word := ?_, chain := ?_, free_mem := ?_,
      free_nodup := hi.free_nodup, owner_mem := ?_, owner_not_free := hi.owner_not_free,
      livesIn := ?_, owner_nodup := hi.owner_nodup }
  · rw [htop]
    exact ⟨rfl, hhdr ▸ hi.tiles⟩
  · rw [htop]
    exact hstop
  · intro b' hb'
    rcases List.mem_cons.mp hb' with rfl | hb'
    · exact hcls
    · exact hi.cls_lt b' hb'
  · intro b' hb'
    rcases List.mem_cons.mp hb' with rfl | hb'
    · exact hword
    · rw [← hi.cls_word b' hb']
      have := b'.hdr_le_stop
      exact loadLE_congr ((hold b' hb').mono le_rfl (by omega))
  · intro c hc
    refine (hi.chain c hc).frame fun h hh => ?_
    have hsize := Block.hdr_le_stop ⟨h, c⟩
    simp only at hsize
    refine loadLE_congr ((hold _ (hi.free_mem c hc h hh)).mono ?_ ?_) <;>
      simp only [headerSize] <;> omega
  · exact fun c hc h hh => List.mem_cons_of_mem _ (hi.free_mem c hc h hh)
  · exact fun x hx => List.mem_cons_of_mem _ (hi.owner_mem x hx)
  · intro x hx
    have hlive := hi.livesIn x hx
    have := hlive.le_stop
    have hpay := hlive.payload_le
    simp only [Block.payload] at hpay
    exact hlive.frame ((hold _ (hi.owner_mem x hx)).mono le_rfl (by omega))

/-- What an allocation leaves in place: the bytes of every owned block. -/
def KeepsOwned (s s' : State) (owners : List (Live × Block)) : Prop :=
  ∀ x ∈ owners, AgreeOn s.mem s'.mem x.2.hdr (x.2.stop - x.2.hdr)

/-- A failed call: only `errno` and the lazily set `brk` may differ. -/
def Untouched (s s' : State) : Prop := s'.mem = s.mem ∧ s'.freeLists = s.freeLists

/-- `malloc` fails and changes nothing, or hands out a whole block that nobody owned. -/
theorem HeapInv.malloc (hi : HeapInv heap s blocks free' owners) (n : Nat) :
    ((malloc heap s n).1 = 0 ∧ Untouched s (malloc heap s n).2 ∧
      HeapInv heap (malloc heap s n).2 blocks free' owners) ∨
    ∃ b blocks' free'', (malloc heap s n).1 = b.payload ∧ (∀ x ∈ owners, x.2 ≠ b) ∧
      KeepsOwned s (malloc heap s n).2 owners ∧
      HeapInv heap (malloc heap s n).2 blocks' free'' ((⟨b.payload, n, 16⟩, b) :: owners) := by
  by_cases hc : classes ≤ classOf n
  · left
    rw [malloc_of_too_large hc]
    exact ⟨rfl, ⟨rfl, rfl⟩, { hi with }⟩
  replace hc := not_le.mp hc
  have hfit := le_classSize_classOf hc
  have hlives : ∀ {m : Bytes} {h : Nat}, 16 ∣ h → headerOffset m h = 0 →
      LivesIn m ⟨h, classOf n⟩ ⟨h + 16, n, 16⟩ := by
    intro m h hdvd hoff
    refine ⟨le_rfl, ?_, by simp only; omega, by simp only; omega, Or.inl ⟨rfl, hoff⟩⟩
    simp only [Block.stop]
    omega
  by_cases h0 : s.freeLists (classOf n) = 0
  · rcases lt_or_ge heap.stop (s.top heap + (16 + classSize (classOf n))) with hfull | hroom
    · left
      have htop : ({ s with brk := s.top heap, errno := enomem } : State).top heap = s.top heap := by
        have := heap.start_pos
        simp only [State.top]
        split_ifs <;> omega
      rw [malloc_of_full hc h0 hfull]
      refine ⟨rfl, ⟨rfl, rfl⟩, { hi with tiles := ?_, top_le := ?_ }⟩
      · rw [htop]
        exact hi.tiles
      · rw [htop]
        exact hi.top_le
    · right
      set b : Block := ⟨s.top heap, classOf n⟩ with hb
      set m' := setOffset (setCls s.mem (s.top heap) (classOf n)) (s.top heap) 0 with hm'
      have hbrk : s.top heap + (16 + classSize (classOf n)) = b.stop := by
        simp only [hb, Block.stop]
        omega
      have hstop : b.stop ≤ heap.stop := by
        rw [← hbrk]
        exact hroom
      have hsize := b.hdr_le_stop
      have hagree : AgreeOutside s.mem m' b.hdr b.stop :=
        (agreeOutside_storeLE (by simp only [hb]; omega) (by simp only [hb] at *; omega)).trans
          (agreeOutside_storeLE (by simp only [hb]; omega) (by simp only [hb] at *; omega))
      have hclass : classOf n < 256 ^ 8 := hc.trans (by decide)
      have hword : headerCls m' b.hdr = b.cls := by
        rw [hm', headerCls, setOffset, loadLE_storeLE_of_disjoint (by simp only [hb]; omega), setCls,
          loadLE_storeLE_of_lt hclass]
      have hgrow := hi.grow (b := b) rfl hc hstop hagree hword
      have hnew : ∀ x ∈ owners, x.2 ≠ b := by
        rintro x hx heq
        have hbound := (hi.tiles.bounds (hi.owner_mem x hx)).2
        rw [heq] at hbound
        simp only [hb] at hbound hsize
        omega
      have hnotfree : b.hdr ∉ free' b.cls := by
        intro hmem
        have hbound := (hi.tiles.bounds (hi.free_mem _ hc _ hmem)).2
        have := Block.hdr_le_stop ⟨b.hdr, b.cls⟩
        simp only [hb] at hbound this
        omega
      have hoff : headerOffset m' b.hdr = 0 := by
        rw [hm', headerOffset, setOffset, loadLE_storeLE_of_lt (by decide)]
      rw [malloc_of_sbrk hc h0 hroom, hbrk]
      refine ⟨b, b :: blocks, free', rfl, hnew, ?_, ?_⟩
      · intro x hx
        have hbound := (hi.tiles.bounds (hi.owner_mem x hx)).2
        have := x.2.hdr_le_stop
        exact hagree.agreeOn (by simp only [hb]; omega)
      · exact hgrow.adopt List.mem_cons_self hnotfree hnew
          (hlives (hgrow.hdr_aligned List.mem_cons_self) hoff)
  · right
    obtain ⟨l, hlist, hunlink⟩ := hi.unlink hc rfl h0
    set h := s.freeLists (classOf n) with hh
    have hfree : h ∈ free' (classOf n) := by
      rw [hlist]
      exact List.mem_cons_self
    have hb := hi.free_mem _ hc _ hfree
    have hnd := hi.free_nodup _ hc
    rw [hlist, List.nodup_cons] at hnd
    have hnotfree : h ∉ Function.update free' (classOf n) l (classOf n) := by
      rw [Function.update_self]
      exact hnd.1
    have hnew : ∀ x ∈ owners, x.2 ≠ ⟨h, classOf n⟩ := by
      rintro x hx heq
      have := hi.owner_not_free x hx
      rw [heq] at this
      exact this hfree
    have hsize := Block.hdr_le_stop ⟨h, classOf n⟩
    simp only at hsize
    have hagree : AgreeOutside s.mem (setOffset s.mem h 0) (h + 8) (⟨h, classOf n⟩ : Block).stop :=
      agreeOutside_storeLE le_rfl (by omega)
    have hframe := hunlink.frame hb hnotfree (a := h + 8) le_rfl
      (fun x hx heq => absurd heq (hnew x hx)) hagree
    have hoff : headerOffset (setOffset s.mem h 0) h = 0 := by
      rw [headerOffset, setOffset, loadLE_storeLE_of_lt (by decide)]
    rw [malloc_of_free_list hc h0]
    refine ⟨⟨h, classOf n⟩, blocks, Function.update free' (classOf n) l, rfl, hnew, ?_, ?_⟩
    · intro x hx
      have := x.2.hdr_le_stop
      exact hagree.agreeOn
        (by have := hi.tiles.apart (hi.owner_mem x hx) hb (hnew x hx); simp only at this; omega)
    · exact hframe.adopt hb hnotfree hnew (hlives (hi.hdr_aligned hb) hoff)

/-- `free` of a live pointer puts its block on the block's own list. -/
theorem HeapInv.free (hi : HeapInv heap s blocks free' owners) {x : Live × Block}
    (hx : x ∈ owners) :
    ∃ free'', HeapInv heap (free s x.1.ptr) blocks free''
        (owners.filter fun y => y.1.ptr ≠ x.1.ptr) ∧
      KeepsOwned s (Malloc.free s x.1.ptr) (owners.filter fun y => y.1.ptr ≠ x.1.ptr) := by
  have hb := hi.owner_mem x hx
  have hlive := hi.livesIn x hx
  have hpay := hlive.payload_le
  simp only [Block.payload] at hpay
  have hsize := x.2.hdr_le_stop
  set rest := owners.filter fun y => y.1.ptr ≠ x.1.ptr with hrest
  have hnew : ∀ y ∈ rest, y.2 ≠ x.2 := by
    intro y hy heq
    obtain ⟨hy1, hy2⟩ := List.mem_filter.mp hy
    have := hi.owner_of_live hy1 hx heq
    simp [this] at hy2
  set m1 := setOffset s.mem x.2.hdr 0 with hm1
  have hcls : headerCls m1 x.2.hdr = x.2.cls := by
    rw [hm1, headerCls, setOffset, loadLE_storeLE_of_disjoint (by omega)]
    exact hi.cls_word x.2 hb
  set m2 := setLink m1 x.2.hdr (s.freeLists x.2.cls) with hm2
  have hfree : Malloc.free s x.1.ptr =
      { s with mem := m2, freeLists := Function.update s.freeLists x.2.cls x.2.hdr } := by
    have hne : x.1.ptr ≠ 0 := by omega
    simp only [Malloc.free, if_neg hne, hlive.headerOf_eq, ← hm1, hcls, ← hm2]
  have hagree : AgreeOutside s.mem m2 (x.2.hdr + 8) x.2.stop :=
    (agreeOutside_storeLE (by omega) (by omega)).trans
      (agreeOutside_storeLE (by simp only [headerSize]; omega) (by simp only [headerSize]; omega))
  have hnot := hi.owner_not_free x hx
  have hframe := (hi.forget (List.filter_sublist (p := fun y => y.1.ptr ≠ x.1.ptr))).frame hb hnot
    (a := x.2.hdr + 8) le_rfl (fun y hy heq => absurd heq (hnew y hy)) hagree
  have hlink : link m2 x.2.hdr = s.freeLists x.2.cls := by
    rw [hm2, link, setLink, loadLE_storeLE_of_lt (hi.head_lt (hi.cls_lt _ hb))]
  refine ⟨Function.update free' x.2.cls (x.2.hdr :: free' x.2.cls), ?_, ?_⟩
  · rw [hfree]
    exact hframe.push hb hnot hnew hlink
  · rw [hfree]
    intro y hy
    have := y.2.hdr_le_stop
    have hy' := (List.mem_filter.mp hy).1
    exact hagree.agreeOn (by have := hi.tiles.apart (hi.owner_mem y hy') hb (hnew y hy); omega)

end Inv

end Beeros.Malloc
