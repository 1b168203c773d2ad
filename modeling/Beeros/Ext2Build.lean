import Beeros.Ext2Data

/-! `build-map!`: the block array and the indirect blocks for given data blocks. -/

namespace Beeros.Ext2

open Memory Exec

variable {v : Volume} {d : Bytes}

/-! ### Pointer blocks -/

theorem storeWords_ok {xs : List Nat} {b r : Buf} {o : Nat} {w w' : World}
    (h : storeWords v.toFs xs b o w = .ok r w') : w = w' ∧ r.capacity = b.capacity ∧
      o + 4 * xs.length ≤ max o b.capacity ∧
      AgreeOutside b.bytes r.bytes o (o + 4 * xs.length) ∧
      ∀ i < xs.length, loadLE r.bytes 4 (o + 4 * i) = xs.getD i 0 := by
  induction xs generalizing b o with
  | nil =>
      obtain ⟨rfl, rfl⟩ := pure_ok.mp h
      exact ⟨rfl, rfl, by simp, fun _ _ => rfl, by simp⟩
  | cons x xs ih =>
      obtain ⟨b1, w1, h1, h⟩ := bind_ok.mp h
      obtain ⟨hcap, -, hx, rfl, rfl⟩ := store_ok.mp h1
      obtain ⟨rfl, hc, hle, hout, hld⟩ := ih h
      rw [List.length_cons]
      simp only at hc hle
      refine ⟨rfl, hc, by omega, fun j hj => ?_, fun i hi => ?_⟩
      · rw [hout j (by omega)]
        exact agreeOutside_storeLE (b := o) (e := o + 4) le_rfl le_rfl j (by omega)
      · cases i with
        | zero =>
            rw [loadLE_congr (hout.agreeOn (by omega)), Nat.mul_zero, Nat.add_zero,
              loadLE_storeLE_of_lt (by exact_mod_cast hx)]
            simp
        | succ i =>
            have := hld i (by omega)
            rw [show o + 4 * (i + 1) = o + 4 + 4 * i by omega, this]
            simp

theorem pointerBlock_ok {ptrs : List Nat} {r : Buf} {w w' : World}
    (h : pointerBlock v.toFs ptrs w = .ok r w') : w = w' ∧ ptrs.length ≤ v.ppb ∧
      ∀ i < v.ppb, pointer (window r.bytes 0 v.blockSize) i = ptrs.getD i 0 := by
  obtain ⟨rfl, hc, hle, hout, hld⟩ := storeWords_ok h
  simp only [Buf.alloc, Nat.zero_add] at hle hout hld
  have hlen : ptrs.length ≤ v.ppb := by
    unfold Fs.ppb
    omega
  refine ⟨rfl, hlen, fun i hi => ?_⟩
  have hbs : 4 * i + 4 ≤ v.blockSize := by
    unfold Fs.ppb at hi
    omega
  unfold pointer
  rw [loadLE_window hbs, Nat.zero_add]
  by_cases hil : i < ptrs.length
  · exact hld i hil
  · have hzero : AgreeOn (fun _ => 0) r.bytes (4 * i) 4 := hout.agreeOn (by omega)
    rw [loadLE_congr hzero, List.getD_eq_default _ _ (by omega)]
    simp [loadLE]

/-- Each block of `bs` holds the pointers at its index in `cs`. -/
def Holds (get : Nat → Bytes) (ppb : Nat) (bs : List Nat) (cs : List (List Nat)) : Prop :=
  ∀ j < cs.length, ∀ i < ppb, pointer (get (bs.getD j 0)) i = (cs.getD j []).getD i 0

theorem writePointers_ok {bs : List Nat} {cs : List (List Nat)} {w w' : World} {u : Unit}
    (h : writePointers v.toFs bs cs w = .ok u w') (hnodup : bs.Nodup)
    (hdata : ∀ b ∈ bs, v.kind b = .data) :
    Rewrote (v.view w.disk) (v.view w'.disk) bs ∧ Holds (v.view w'.disk).block v.ppb bs cs := by
  induction cs generalizing bs w with
  | nil =>
      obtain ⟨-, rfl⟩ := pure_ok.mp h
      exact ⟨rewrote_refl _ _, fun j hj => absurd hj (Nat.not_lt_zero _)⟩
  | cons c cs ih =>
      obtain ⟨b, w1, h1, h⟩ := bind_ok.mp h
      obtain ⟨hb, rfl⟩ := nth_ok.mp h1
      obtain ⟨buf, w2, h2, h⟩ := bind_ok.mp h
      obtain ⟨rfl, -, hptr⟩ := pointerBlock_ok h2
      obtain ⟨_, w3, h3, h4⟩ := bind_ok.mp h
      cases bs with
      | nil => cases hb
      | cons b' bs =>
          obtain rfl : b' = b := by simpa using hb
          obtain ⟨hnb, hnodup⟩ := List.nodup_cons.mp hnodup
          have hview := writeBlock_data h3 (hdata b' List.mem_cons_self)
          obtain ⟨hr, hh⟩ := ih h4 hnodup fun b hb => hdata b (List.mem_cons_of_mem _ hb)
          constructor
          · have := (rewrote_setBlock (x := v.view w.disk) (l := [b'])
              (m := window buf.bytes 0 v.blockSize) List.mem_cons_self)
            rw [← hview] at this
            exact this.trans hr
          · intro j hj i hi
            cases j with
            | zero =>
                simp only [List.getD_cons_zero]
                rw [hr.block b' hnb, hview]
                simp only [Vol.setBlock, Function.update_self]
                exact hptr i hi
            | succ j =>
                simp only [List.getD_cons_succ]
                exact hh j (by simpa using hj) i hi

/-! ### Building a map -/

theorem chunks_getD {k fuel : Nat} {xs : List Nat} (hk : 0 < k) (hfuel : xs.length ≤ fuel)
    (j i : Nat) (hi : i < k) : ((chunks k fuel xs).getD j []).getD i 0 = xs.getD (j * k + i) 0 := by
  induction fuel generalizing xs j with
  | zero =>
      obtain rfl := List.eq_nil_of_length_eq_zero (Nat.le_zero.mp hfuel)
      simp [chunks]
  | succ fuel ih =>
      unfold chunks
      split_ifs with hxs
      · simp [hxs]
      · cases j with
        | zero =>
            rw [List.getD_cons_zero, Nat.zero_mul, Nat.zero_add]
            simp [hi]
        | succ j =>
            rw [List.getD_cons_succ, ih (by rw [List.length_drop]; omega), Nat.succ_mul]
            simp only [List.getD_eq_getElem?_getD, List.getElem?_drop]
            congr 2
            omega

theorem length_le_chunks {k fuel : Nat} {xs : List Nat} (hk : 0 < k) (hfuel : xs.length ≤ fuel) :
    xs.length ≤ (chunks k fuel xs).length * k := by
  induction fuel generalizing xs with
  | zero => omega
  | succ fuel ih =>
      unfold chunks
      split_ifs with hxs
      · simp [hxs]
      · have h : (xs.drop k).length ≤ _ := ih (by rw [List.length_drop]; omega)
        rw [List.length_drop] at h
        rw [List.length_cons, Nat.succ_mul]
        omega

section Walk

variable {get : Nat → Bytes} {ppb : Nat} {block : List Nat}

theorem walkTops_direct {l : List Nat} {ts : List (Nat × Nat)} {k : Nat} :
    walkTops get ppb (l.map (·, 0) ++ ts) k =
      if k < l.length then l.getD k 0 else walkTops get ppb ts (k - l.length) := by
  induction l generalizing k with
  | nil => simp
  | cons b l ih =>
      rw [List.map_cons, List.cons_append, walkTops_cons]
      cases k with
      | zero => simp [walk]
      | succ k =>
          rw [if_neg (by simp), ih, pow_zero, Nat.add_sub_cancel, List.length_cons,
            List.getD_cons_succ, Nat.add_sub_add_right]
          simp only [Nat.add_lt_add_iff_right]

theorem walkTops_tops (h : 12 ≤ block.length) (k : Nat) :
    walkTops get ppb (tops block) k = if k < 12 then block.getD k 0 else
      walkTops get ppb [(block.getD 12 0, 1), (block.getD 13 0, 2), (block.getD 14 0, 3)]
        (k - 12) := by
  rw [tops, walkTops_direct, List.length_take, Nat.min_eq_left h]
  split_ifs with hk
  · simp [hk]
  · rfl

theorem topsCapacity_tops (h : 12 ≤ block.length) :
    topsCapacity ppb (tops block) = 12 + (ppb + (ppb ^ 2 + ppb ^ 3)) := by
  have hdirect : ∀ l : List Nat, ((l.map fun b => (b, 0)).map fun t : Nat × Nat => ppb ^ t.2).sum =
      l.length := by
    intro l
    induction l with
    | nil => rfl
    | cons b l ih =>
        rw [List.map_cons, List.map_cons, List.sum_cons, ih, List.length_cons, pow_zero]
        omega
  unfold topsCapacity tops
  rw [List.map_append, List.sum_append, hdirect, List.length_take, Nat.min_eq_left h]
  simp

theorem walk_one {blk k : Nat} (hb : blk ≠ 0) : walk get ppb 1 blk k = pointer (get blk) k := by
  rw [walk_succ, if_neg hb, walk, pow_zero, Nat.div_one]

theorem walk_two {blk k : Nat} (hb : blk ≠ 0) (hsub : pointer (get blk) (k / ppb) ≠ 0) :
    walk get ppb 2 blk k = pointer (get (pointer (get blk) (k / ppb))) (k % ppb) := by
  rw [walk_succ, if_neg hb, pow_one, walk_one hsub]

theorem indirects_one {blk : Nat} : indirects get ppb 1 blk = if blk = 0 then [] else [blk] := by
  rw [indirects_succ]
  split_ifs with h
  · rfl
  · rw [show ((List.range ppb).flatMap fun i => indirects get ppb 0 (pointer (get blk) i)) = [] from
      List.flatMap_eq_nil_iff.mpr fun _ _ => rfl]

/-- A list of non-zero pointers, read back from a longer table filled up with zeros. -/
theorem flatMap_range_getD {l : List Nat} {n : Nat} (hl : ∀ b ∈ l, b ≠ 0) (hn : l.length ≤ n) :
    ((List.range n).flatMap fun i => if l.getD i 0 = 0 then [] else [l.getD i 0]) = l := by
  induction l generalizing n with
  | nil => exact List.flatMap_eq_nil_iff.mpr fun i _ => by simp
  | cons b l ih =>
      cases n with
      | zero => simp at hn
      | succ n =>
          rw [List.range_succ_eq_map, List.flatMap_cons, List.flatMap_map]
          simp only [List.getD_cons_zero, Nat.succ_eq_add_one, List.getD_cons_succ]
          rw [if_neg (hl b List.mem_cons_self), List.singleton_append,
            ih (fun c hc => hl c (List.mem_cons_of_mem _ hc)) (by simpa using hn)]

end Walk

/-- What `build-map!` has done for these data blocks: indirect blocks `ind` taken and written, and an
`i_block` array that maps the data blocks through them. -/
structure Built (v : Volume) (x x' : Vol) (data bmap ind : List Nat) : Prop where
  wrote : Wrote v x x' ind
  length : bmap.length = 15
  le : data.length ≤ 12 + v.ppb + v.ppb * v.ppb
  mapped : mapped x'.block v.ppb bmap data.length = data
  indirects : (mapIndirects x'.block v.ppb bmap).Perm ind
  single : data.length ≤ 12 → bmap.getD 12 0 = 0
  double : data.length ≤ 12 + v.ppb → bmap.getD 13 0 = 0
  triple : bmap.getD 14 0 = 0

/-- The single indirect block of `build-map!`. -/
theorem buildSingle_ok {goal : Nat} {single : List Nat} {s : Option Nat} {w w' : World}
    (h : (if single ≠ [] then do
      let b ← allocBlock v.toFs goal
      let buf ← pointerBlock v.toFs single
      writeBlock v.toFs b buf
      pure (some b)
    else pure none) w = .ok s w') (hm : MetaMarked v (v.view w.disk)) :
    Wrote v (v.view w.disk) (v.view w'.disk) s.toList ∧ (s.isSome ↔ single ≠ []) ∧
      ∀ b ∈ s, ∀ i < v.ppb, pointer ((v.view w'.disk).block b) i = single.getD i 0 := by
  split_ifs at h with hs
  · obtain ⟨b, w1, h1, h⟩ := bind_ok.mp h
    have ht := (allocBlock_ok h1).wrote
    obtain ⟨buf, w2, h2, h⟩ := bind_ok.mp h
    obtain ⟨rfl, -, hptr⟩ := pointerBlock_ok h2
    obtain ⟨_, w3, h3, h⟩ := bind_ok.mp h
    obtain ⟨rfl, rfl⟩ := pure_ok.mp h
    have hview := writeBlock_data h3 (hm.data ht b List.mem_cons_self)
    refine ⟨?_, by simpa using hs, ?_⟩
    · rw [hview]
      exact ht.rewrote (rewrote_setBlock List.mem_cons_self)
    · intro c hc i hi
      obtain rfl : b = c := by simpa using hc
      rw [hview]
      simp only [Vol.setBlock, Function.update_self]
      exact hptr i hi
  · obtain ⟨rfl, rfl⟩ := pure_ok.mp h
    exact ⟨wrote_refl _ _, by simpa using hs, nofun⟩

/-- The double indirect blocks of `build-map!`: the second-level ones and the top. -/
theorem buildDouble_ok {goal : Nat} {double : List Nat} {cs : List (List Nat)} {t : Option Nat}
    {w w' : World}
    (h : (if double ≠ [] then do
      let seconds ← allocBlocks v.toFs goal cs.length
      let top ← allocBlock v.toFs goal
      writePointers v.toFs seconds cs
      let buf ← pointerBlock v.toFs seconds
      writeBlock v.toFs top buf
      pure (some top)
    else pure none) w = .ok t w') (hm : MetaMarked v (v.view w.disk)) :
    ∃ seconds, Wrote v (v.view w.disk) (v.view w'.disk) (seconds ++ t.toList) ∧
      (t.isSome ↔ double ≠ []) ∧ (double = [] → seconds = []) ∧
      (double ≠ [] → seconds.length = cs.length ∧ seconds.length ≤ v.ppb ∧
        Holds (v.view w'.disk).block v.ppb seconds cs) ∧
      ∀ b ∈ t, ∀ i < v.ppb, pointer ((v.view w'.disk).block b) i = seconds.getD i 0 := by
  split_ifs at h with hd
  · obtain ⟨seconds, w1, h1, h⟩ := bind_ok.mp h
    obtain ⟨ht1, hlen⟩ := allocBlocks_ok h1
    obtain ⟨top, w2, h2, h⟩ := bind_ok.mp h
    have hw2 := ht1.wrote.trans (allocBlock_ok h2).wrote
    obtain ⟨_, w3, h3, h⟩ := bind_ok.mp h
    have hdata := hm.data hw2
    obtain ⟨hr3, hh3⟩ := writePointers_ok h3 ht1.nodup
      fun b hb => hdata b (List.mem_append_left _ hb)
    have hw3 := hw2.rewrote (hr3.mono fun b hb => List.mem_append_left _ hb)
    obtain ⟨buf, w4, h4, h⟩ := bind_ok.mp h
    obtain ⟨rfl, hle, hptr⟩ := pointerBlock_ok h4
    obtain ⟨_, w5, h5, h6⟩ := bind_ok.mp h
    obtain ⟨rfl, rfl⟩ := pure_ok.mp h6
    have hview := writeBlock_data h5 (hdata top (List.mem_append_right _ List.mem_cons_self))
    have htop : top ∉ seconds := by
      intro hmem
      exact (List.nodup_append.mp hw2.nodup).2.2 _ hmem _ List.mem_cons_self rfl
    have hr5 : Rewrote (v.view w3.disk) (v.view w5.disk) [top] := by
      rw [hview]
      exact rewrote_setBlock List.mem_cons_self
    refine ⟨seconds, hw3.rewrote (hr5.mono fun b hb => List.mem_append_right _ hb),
      by simpa using hd, fun hnil => absurd hnil hd, fun _ => ⟨hlen, hle, ?_⟩, ?_⟩
    · intro j hj i hi
      have hmem : seconds.getD j 0 ∈ seconds := by
        rw [List.getD_eq_getElem _ _ (by omega)]
        exact List.getElem_mem _
      rw [hr5.block _ (by simp only [List.mem_singleton]; rintro rfl; exact htop hmem)]
      exact hh3 j hj i hi
    · intro c hc i hi
      obtain rfl : top = c := by simpa using hc
      rw [hview]
      simp only [Vol.setBlock, Function.update_self]
      exact hptr i hi
  · obtain ⟨rfl, rfl⟩ := pure_ok.mp h
    refine ⟨[], wrote_refl _ _, by simpa using hd, fun _ => rfl, fun h => absurd h hd, nofun⟩

section BlockArray

variable {data : List Nat} {s t : Nat}

/-- The `i_block` array of `build-map!`. -/
def blockArray (data : List Nat) (s t : Nat) : List Nat :=
  data.take 12 ++ List.replicate (12 - (data.take 12).length) 0 ++ [s, t, 0]

theorem length_direct :
    (data.take 12 ++ List.replicate (12 - (data.take 12).length) 0).length = 12 := by
  rw [List.length_append, List.length_replicate, List.length_take]
  omega

theorem length_blockArray : (blockArray data s t).length = 15 := by
  rw [blockArray, List.length_append, length_direct]
  rfl

theorem getD_blockArray {k : Nat} (hk : k < 12) : (blockArray data s t).getD k 0 = data.getD k 0 := by
  unfold blockArray
  rw [List.getD_append _ _ _ _ (by rw [length_direct]; exact hk)]
  by_cases hd : k < (data.take 12).length
  · rw [List.getD_append _ _ _ _ hd]
    simp [hk]
  · rw [List.getD_append_right _ _ _ _ (not_lt.mp hd),
      List.getD_eq_default data _ (by rw [List.length_take] at hd; omega)]
    simp

theorem getD_blockArray_ge (data : List Nat) (s t k : Nat) : (blockArray data s t).getD (12 + k) 0 = [s, t, 0].getD k 0 := by
  unfold blockArray
  rw [List.getD_append_right _ _ _ _ (by rw [length_direct]; omega), length_direct,
    Nat.add_sub_cancel_left]

end BlockArray

theorem map_getD_range (l : List Nat) : ((List.range l.length).map fun k => l.getD k 0) = l := by
  apply List.ext_getElem
  · simp
  · intro k hk hk'
    simp [hk']

/-- The indirect blocks of a map: `s` the single one, `t` the top of the double ones and `seconds`
below it, with the pointers to `data` in them. -/
structure MapBlocks (get : Nat → Bytes) (ppb : Nat) (data : List Nat) (s t : Option Nat)
    (seconds : List Nat) : Prop where
  pos : 0 < ppb
  le : data.length ≤ 12 + ppb + ppb * ppb
  single_some : s.isSome ↔ (data.drop 12).take ppb ≠ []
  single_ne : ∀ b ∈ s, b ≠ 0
  single_ptr : ∀ b ∈ s, ∀ i < ppb, pointer (get b) i = ((data.drop 12).take ppb).getD i 0
  top_some : t.isSome ↔ data.drop (12 + ppb) ≠ []
  top_ne : ∀ b ∈ t, b ≠ 0
  top_ptr : ∀ b ∈ t, ∀ i < ppb, pointer (get b) i = seconds.getD i 0
  seconds_ne : ∀ b ∈ seconds, b ≠ 0
  seconds_nil : data.drop (12 + ppb) = [] → seconds = []
  seconds_length : data.drop (12 + ppb) ≠ [] → seconds.length =
    (chunks ppb (data.drop (12 + ppb)).length (data.drop (12 + ppb))).length
  seconds_le : data.drop (12 + ppb) ≠ [] → seconds.length ≤ ppb
  seconds_ptr : data.drop (12 + ppb) ≠ [] →
    Holds get ppb seconds (chunks ppb (data.drop (12 + ppb)).length (data.drop (12 + ppb)))

section MapBlocks

variable {get : Nat → Bytes} {ppb : Nat} {data seconds : List Nat} {s t : Option Nat}

theorem MapBlocks.walk_single (h : MapBlocks get ppb data s t seconds) {k : Nat} (hk : k < ppb)
    (hlen : 12 + k < data.length) : walk get ppb 1 (s.getD 0) k = data.getD (12 + k) 0 := by
  obtain ⟨b, hb⟩ : ∃ b, s = some b := Option.isSome_iff_exists.mp (h.single_some.mpr (by
    intro hnil
    have := congrArg List.length hnil
    rw [List.length_take, List.length_drop, List.length_nil] at this
    omega))
  rw [hb, Option.getD_some, walk_one (h.single_ne b hb), h.single_ptr b hb _ hk]
  simp [hk]

theorem MapBlocks.walk_double (h : MapBlocks get ppb data s t seconds) {k : Nat}
    (hlen : 12 + ppb + k < data.length) :
    walk get ppb 2 (t.getD 0) k = data.getD (12 + ppb + k) 0 := by
  have hdrop : data.drop (12 + ppb) ≠ [] := by
    intro hnil
    have := congrArg List.length hnil
    rw [List.length_drop, List.length_nil] at this
    omega
  obtain ⟨b, hb⟩ : ∃ b, t = some b := Option.isSome_iff_exists.mp (h.top_some.mpr hdrop)
  have hlen' : (data.drop (12 + ppb)).length ≤ _ := length_le_chunks h.pos le_rfl
  have hseclen := h.seconds_length hdrop
  have hsecle := h.seconds_le hdrop
  have hq : k / ppb < (chunks ppb (data.drop (12 + ppb)).length (data.drop (12 + ppb))).length := by
    rw [Nat.div_lt_iff_lt_mul h.pos]
    apply Nat.lt_of_lt_of_le _ hlen'
    rw [List.length_drop]
    omega
  have hr := Nat.mod_lt k h.pos
  have hptr := h.top_ptr b hb (k / ppb) (by omega)
  have hmem : seconds.getD (k / ppb) 0 ∈ seconds := by
    rw [List.getD_eq_getElem _ _ (by omega)]
    exact List.getElem_mem _
  have hne : pointer (get b) (k / ppb) ≠ 0 := by
    rw [hptr]
    exact h.seconds_ne _ hmem
  rw [hb, Option.getD_some, walk_two (h.top_ne b hb) hne, hptr, h.seconds_ptr hdrop _ hq _ hr,
    chunks_getD h.pos le_rfl _ _ hr, Nat.mul_comm, Nat.div_add_mod]
  simp

theorem MapBlocks.walkTops (h : MapBlocks get ppb data s t seconds) {k : Nat} (hk : k < data.length) :
    walkTops get ppb (tops (blockArray data (s.getD 0) (t.getD 0))) k = data.getD k 0 := by
  rw [walkTops_tops (by rw [length_blockArray]; omega)]
  split_ifs with hk12
  · exact getD_blockArray hk12
  · have e12 := getD_blockArray_ge data (s.getD 0) (t.getD 0) 0
    have e13 := getD_blockArray_ge data (s.getD 0) (t.getD 0) 1
    simp only [Nat.reduceAdd, List.getD_cons_zero, List.getD_cons_succ] at e12 e13
    rw [Ext2.walkTops_cons, e12, e13, pow_one]
    split_ifs with hk1
    · rw [h.walk_single hk1 (by omega)]
      congr 1
      omega
    · have hle := h.le
      rw [Ext2.walkTops_cons, if_pos (by rw [pow_two]; omega), h.walk_double (by omega)]
      congr 1
      omega

theorem MapBlocks.mapped (h : MapBlocks get ppb data s t seconds) :
    mapped get ppb (blockArray data (s.getD 0) (t.getD 0)) data.length = data := by
  have hcap : data.length ≤ topsCapacity ppb (tops (blockArray data (s.getD 0) (t.getD 0))) := by
    have hle := h.le
    rw [topsCapacity_tops (by rw [length_blockArray]; omega), pow_two]
    omega
  unfold Ext2.mapped
  rw [Nat.min_eq_left hcap]
  calc _ = (List.range data.length).map fun k => data.getD k 0 :=
        List.map_congr_left fun k hk => h.walkTops (List.mem_range.mp hk)
    _ = data := map_getD_range data

theorem MapBlocks.mapIndirects (h : MapBlocks get ppb data s t seconds) :
    (mapIndirects get ppb (blockArray data (s.getD 0) (t.getD 0))).Perm
      (s.toList ++ (seconds ++ t.toList)) := by
  have e12 := getD_blockArray_ge data (s.getD 0) (t.getD 0) 0
  have e13 := getD_blockArray_ge data (s.getD 0) (t.getD 0) 1
  have e14 := getD_blockArray_ge data (s.getD 0) (t.getD 0) 2
  simp only [Nat.reduceAdd, List.getD_cons_zero, List.getD_cons_succ] at e12 e13 e14
  have i1 : indirects get ppb 1 (s.getD 0) = s.toList := by
    rw [indirects_one]
    cases hs : s with
    | none => rfl
    | some b => simp [h.single_ne b hs]
  have i2 : (indirects get ppb 2 (t.getD 0)).Perm (seconds ++ t.toList) := by
    cases ht : t with
    | none =>
        have hnil : seconds = [] := h.seconds_nil (by
          by_contra hne
          have := h.top_some.mpr hne
          rw [ht] at this
          cases this)
        rw [hnil]
        simp [indirects]
    | some b =>
        have hdrop : data.drop (12 + ppb) ≠ [] := h.top_some.mp (by rw [ht]; rfl)
        have hflat : ((List.range ppb).flatMap fun i =>
            indirects get ppb 1 (pointer (get b) i)) = seconds := by
          have hrange := flatMap_range_getD h.seconds_ne (h.seconds_le hdrop)
          calc _ = (List.range ppb).flatMap fun i =>
                if seconds.getD i 0 = 0 then [] else [seconds.getD i 0] := by
                rw [List.flatMap_def, List.flatMap_def]
                congr 1
                apply List.map_congr_left
                intro i hi
                rw [indirects_one, h.top_ptr b ht i (List.mem_range.mp hi)]
            _ = seconds := hrange
        rw [Option.getD_some, indirects_succ, if_neg (h.top_ne b ht), hflat]
        exact (List.perm_append_singleton b seconds).symm
  have i3 : indirects get ppb 3 0 = [] := by
    rw [indirects_succ, if_pos rfl]
  unfold Ext2.mapIndirects
  rw [e12, e13, e14, i1, i3, List.append_nil]
  exact i2.append_left _

theorem MapBlocks.single_zero (h : MapBlocks get ppb data s t seconds) (hlen : data.length ≤ 12) :
    s = none := by
  rw [← Option.not_isSome_iff_eq_none, h.single_some, not_not, List.drop_eq_nil_of_le (by omega),
    List.take_nil]

theorem MapBlocks.top_zero (h : MapBlocks get ppb data s t seconds)
    (hlen : data.length ≤ 12 + ppb) : t = none := by
  rw [← Option.not_isSome_iff_eq_none, h.top_some, not_not, List.drop_eq_nil_of_le (by omega)]

/-- The count of indirect blocks that `build-map!` returns. -/
theorem MapBlocks.length (h : MapBlocks get ppb data s t seconds) :
    ((if s.isSome then 1 else 0) + if t.isSome then (chunks ppb (data.drop (12 + ppb)).length
      (data.drop (12 + ppb))).length + 1 else 0) = (s.toList ++ (seconds ++ t.toList)).length := by
  have hs : s.toList.length = if s.isSome then 1 else 0 := by
    cases s <;> rfl
  rw [List.length_append, List.length_append, hs]
  congr 1
  split_ifs with htop
  · obtain ⟨b, hb⟩ := Option.isSome_iff_exists.mp htop
    rw [h.seconds_length (h.top_some.mp htop), hb]
    rfl
  · have hnil := h.top_some.not.mp htop
    rw [h.seconds_nil (not_not.mp hnil), Option.not_isSome_iff_eq_none.mp htop]
    rfl

end MapBlocks

theorem buildMap_ok {goal : Nat} {data : List Nat} {path : Str} {r : List Nat × Nat} {w w' : World}
    (h : buildMap v.toFs goal data path w = .ok r w') (hm : MetaMarked v (v.view w.disk)) :
    ∃ ind, Built v (v.view w.disk) (v.view w'.disk) data r.1 ind ∧ r.2 = ind.length := by
  unfold buildMap at h
  obtain ⟨_, w1, h1, h⟩ := bind_ok.mp h
  obtain ⟨hlarge, rfl⟩ := failWhen_ok.mp h1
  obtain ⟨s, w2, h2, h⟩ := bind_ok.mp h
  obtain ⟨hws, hsome, hsptr⟩ := buildSingle_ok h2 hm
  obtain ⟨t, w3, h3, h⟩ := bind_ok.mp h
  obtain ⟨seconds, hwt, htsome, hnil, hsec, htptr⟩ := buildDouble_ok h3 (hm.wrote hws)
  obtain ⟨rfl, rfl⟩ := pure_ok.mp h
  have hdatas := hm.data hws
  have hdatat := (hm.wrote hws).data hwt
  -- the single indirect block is not among those taken after it
  have hskeep : ∀ b ∈ s, (v.view w3.disk).block b = (v.view w2.disk).block b := by
    intro b hb
    apply hwt.block
    intro hmem
    have hset : (v.view w2.disk).blockBit b = true := by
      rw [hws.blockBit]
      simp [show s = some b from hb]
    rw [(hwt.clear b hmem).2] at hset
    cases hset
  have hne : ∀ b, v.kind b = .data → b ≠ 0 := fun b hb =>
    v.ne_zero_of_kind (by simp [hb]) (by simp [hb])
  have hmap : MapBlocks (v.view w3.disk).block v.ppb data s t seconds :=
    { pos := ppb_pos
      le := by
        have hlarge' : ¬(data.drop (12 + v.ppb)).length > v.ppb * v.ppb := hlarge
        rw [List.length_drop] at hlarge'
        omega
      single_some := hsome
      single_ne := fun b hb => hne b (hdatas b (by simpa using hb))
      single_ptr := fun b hb i hi => (congrArg (pointer · i) (hskeep b hb)).trans (hsptr b hb i hi)
      top_some := htsome
      top_ne := fun b hb => hne b (hdatat b (List.mem_append_right _ (by simpa using hb)))
      top_ptr := htptr
      seconds_ne := fun b hb => hne b (hdatat b (List.mem_append_left _ hb))
      seconds_nil := hnil
      seconds_length := fun hd => (hsec hd).1
      seconds_le := fun hd => (hsec hd).2.1
      seconds_ptr := fun hd => (hsec hd).2.2 }
  refine ⟨s.toList ++ (seconds ++ t.toList), ⟨hws.trans hwt, length_blockArray, hmap.le,
    hmap.mapped, hmap.mapIndirects, fun hlen => ?_, fun hlen => ?_,
    getD_blockArray_ge _ _ _ 2⟩, hmap.length⟩
  · have e12 := getD_blockArray_ge data (s.getD 0) (t.getD 0) 0
    rw [hmap.single_zero hlen] at e12
    rw [hmap.single_zero hlen]
    exact e12
  · have e13 := getD_blockArray_ge data (s.getD 0) (t.getD 0) 1
    rw [hmap.top_zero hlen] at e13
    rw [hmap.top_zero hlen]
    exact e13

end Beeros.Ext2
