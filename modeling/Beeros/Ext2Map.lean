import Beeros.Ext2Read

/-! Block maps as pure functions of the blocks' contents, and the code's readers of them: `collect`,
`file-blocks`, `indirect-blocks`, `all-blocks`. -/

namespace Beeros.Ext2

open Memory Exec

/-! ### The map -/

section Pure

variable (get : Nat → Bytes) (ppb : Nat)

/-- Pointer `i` of an indirect block. -/
def pointer (m : Bytes) (i : Nat) : Nat := loadLE m 4 (4 * i)

/-- The block reached for entry `k` below `blk`, an indirect block of the given depth; 0 when a
pointer on the way is 0. -/
def walk : Nat → Nat → Nat → Nat
  | 0, blk, _ => blk
  | depth + 1, blk, k =>
      if blk = 0 then 0 else walk depth (pointer (get blk) (k / ppb ^ depth)) (k % ppb ^ depth)

/-- The block reached for entry `k` through a list of pointers with their depths. -/
def walkTops : List (Nat × Nat) → Nat → Nat
  | [], _ => 0
  | (blk, depth) :: ts, k =>
      if k < ppb ^ depth then walk get ppb depth blk k else walkTops ts (k - ppb ^ depth)

/-- The indirect blocks on the way to entry `k` below `blk`. -/
def wayTo : Nat → Nat → Nat → List Nat
  | 0, _, _ => []
  | depth + 1, blk, k =>
      if blk = 0 then []
      else blk :: wayTo depth (pointer (get blk) (k / ppb ^ depth)) (k % ppb ^ depth)

/-- The indirect blocks on the way to entry `k` through a list of pointers with their depths. -/
def wayToTops : List (Nat × Nat) → Nat → List Nat
  | [], _ => []
  | (blk, depth) :: ts, k =>
      if k < ppb ^ depth then wayTo get ppb depth blk k else wayToTops ts (k - ppb ^ depth)

/-- How many blocks a list of pointers can map. -/
def topsCapacity (ts : List (Nat × Nat)) : Nat := (ts.map fun t => ppb ^ t.2).sum

/-- The indirect blocks under `blk` at a depth. -/
def indirects : Nat → Nat → List Nat
  | 0, _ => []
  | depth + 1, blk =>
      if blk = 0 then []
      else blk :: (List.range ppb).flatMap fun i => indirects depth (pointer (get blk) i)

/-- The blocks of the first `n` entries of a block array. -/
def mapped (block : List Nat) (n : Nat) : List Nat :=
  (List.range (min n (topsCapacity ppb (tops block)))).map (walkTops get ppb (tops block))

/-- The indirect blocks of a block array. -/
def mapIndirects (block : List Nat) : List Nat :=
  indirects get ppb 1 (block.getD 12 0) ++ indirects get ppb 2 (block.getD 13 0) ++
    indirects get ppb 3 (block.getD 14 0)

variable {get ppb}

theorem walk_succ (depth blk k : Nat) :
    walk get ppb (depth + 1) blk k =
      if blk = 0 then 0 else walk get ppb depth (pointer (get blk) (k / ppb ^ depth)) (k % ppb ^ depth) := rfl

theorem walkTops_cons (blk depth : Nat) (ts : List (Nat × Nat)) (k : Nat) :
    walkTops get ppb ((blk, depth) :: ts) k =
      if k < ppb ^ depth then walk get ppb depth blk k else walkTops get ppb ts (k - ppb ^ depth) := rfl

theorem wayTo_succ (depth blk k : Nat) :
    wayTo get ppb (depth + 1) blk k =
      if blk = 0 then []
      else blk :: wayTo get ppb depth (pointer (get blk) (k / ppb ^ depth)) (k % ppb ^ depth) := rfl

theorem wayToTops_cons (blk depth : Nat) (ts : List (Nat × Nat)) (k : Nat) :
    wayToTops get ppb ((blk, depth) :: ts) k =
      if k < ppb ^ depth then wayTo get ppb depth blk k else wayToTops get ppb ts (k - ppb ^ depth) := rfl

theorem indirects_succ (depth blk : Nat) :
    indirects get ppb (depth + 1) blk =
      if blk = 0 then []
      else blk :: (List.range ppb).flatMap fun i => indirects get ppb depth (pointer (get blk) i) := rfl

theorem walk_zero (depth k : Nat) : walk get ppb depth 0 k = 0 := by
  cases depth with
  | zero => rfl
  | succ depth => exact if_pos rfl

theorem wayTo_zero (depth k : Nat) : wayTo get ppb depth 0 k = [] := by
  cases depth with
  | zero => rfl
  | succ depth => exact if_pos rfl

theorem mem_indirects_self {depth blk : Nat} (h : blk ≠ 0) : blk ∈ indirects get ppb (depth + 1) blk := by
  rw [indirects_succ, if_neg h]
  exact List.mem_cons_self

theorem mem_indirects_below {depth blk i b : Nat} (h : blk ≠ 0) (hi : i < ppb)
    (hb : b ∈ indirects get ppb depth (pointer (get blk) i)) :
    b ∈ indirects get ppb (depth + 1) blk := by
  rw [indirects_succ, if_neg h]
  exact List.mem_cons_of_mem _ (List.mem_flatMap.mpr ⟨i, List.mem_range.mpr hi, hb⟩)

theorem mem_indirects_of_wayTo {depth blk k b : Nat} (hk : k < ppb ^ depth)
    (hb : b ∈ wayTo get ppb depth blk k) : b ∈ indirects get ppb depth blk := by
  induction depth generalizing blk k with
  | zero => cases hb
  | succ depth ih =>
      rw [wayTo_succ] at hb
      split_ifs at hb with hblk
      · cases hb
      · have hpos : 0 < ppb ^ depth := by
          refine Nat.pos_of_ne_zero fun h0 => ?_
          rw [pow_succ, h0, Nat.zero_mul] at hk
          cases hk
        rcases List.mem_cons.mp hb with rfl | hb
        · exact mem_indirects_self hblk
        · refine mem_indirects_below hblk ?_ (ih (Nat.mod_lt _ hpos) hb)
          rw [Nat.div_lt_iff_lt_mul hpos, Nat.mul_comm, ← pow_succ]
          exact hk

theorem ne_zero_of_mem_indirects {depth blk b : Nat} (h : b ∈ indirects get ppb depth blk) :
    b ≠ 0 := by
  induction depth generalizing blk with
  | zero => cases h
  | succ depth ih =>
      rw [indirects_succ] at h
      split_ifs at h with hblk
      · cases h
      · rcases List.mem_cons.mp h with rfl | h
        · exact hblk
        · obtain ⟨i, -, hi⟩ := List.mem_flatMap.mp h
          exact ih hi

theorem ne_zero_of_mem_mapIndirects {block : List Nat} {b : Nat}
    (h : b ∈ mapIndirects get ppb block) : b ≠ 0 := by
  rcases List.mem_append.mp h with h | h
  · rcases List.mem_append.mp h with h | h <;> exact ne_zero_of_mem_indirects h
  · exact ne_zero_of_mem_indirects h

/-! The map depends on the contents of its indirect blocks only. -/

section Congr

variable {get' : Nat → Bytes}

theorem walk_congr {depth blk k : Nat} (h : ∀ b ∈ indirects get ppb depth blk, get' b = get b)
    (hk : k < ppb ^ depth) : walk get' ppb depth blk k = walk get ppb depth blk k := by
  induction depth generalizing blk k with
  | zero => rfl
  | succ depth ih =>
      rw [walk_succ, walk_succ]
      split_ifs with hblk
      · rfl
      · have hpos : 0 < ppb ^ depth := by
          rcases Nat.eq_zero_or_pos (ppb ^ depth) with h0 | h0
          · rw [pow_succ, h0, Nat.zero_mul] at hk
            cases hk
          · exact h0
        rw [h blk (mem_indirects_self hblk)]
        apply ih _ (Nat.mod_lt _ hpos)
        intro b hb
        refine h b (mem_indirects_below hblk ?_ hb)
        rw [Nat.div_lt_iff_lt_mul hpos, Nat.mul_comm, ← pow_succ]
        exact hk

theorem indirects_congr {depth blk : Nat} (h : ∀ b ∈ indirects get ppb depth blk, get' b = get b) :
    indirects get' ppb depth blk = indirects get ppb depth blk := by
  induction depth generalizing blk with
  | zero => rfl
  | succ depth ih =>
      rw [indirects_succ, indirects_succ]
      split_ifs with hblk
      · rfl
      · rw [h blk (mem_indirects_self hblk)]
        congr 1
        rw [List.flatMap_def, List.flatMap_def]
        congr 1
        apply List.map_congr_left
        intro i hi
        exact ih fun b hb => h b (mem_indirects_below hblk (List.mem_range.mp hi) hb)

theorem walkTops_congr {ts : List (Nat × Nat)} {k : Nat}
    (h : ∀ t ∈ ts, ∀ b ∈ indirects get ppb t.2 t.1, get' b = get b) :
    walkTops get' ppb ts k = walkTops get ppb ts k := by
  induction ts generalizing k with
  | nil => rfl
  | cons t ts ih =>
      rw [walkTops_cons, walkTops_cons]
      split_ifs with hk
      · exact walk_congr (h t List.mem_cons_self) hk
      · exact ih fun t' ht' => h t' (List.mem_cons_of_mem _ ht')

/-- The indirect blocks of a block array are those below its top pointers. -/
theorem mem_mapIndirects {block : List Nat} {t : Nat × Nat} {b : Nat} (ht : t ∈ tops block)
    (hb : b ∈ indirects get ppb t.2 t.1) : b ∈ mapIndirects get ppb block := by
  unfold mapIndirects
  rcases List.mem_append.mp ht with ht | ht
  · obtain ⟨x, -, rfl⟩ := List.mem_map.mp ht
    cases hb
  · rcases List.mem_cons.mp ht with rfl | ht
    · exact List.mem_append_left _ (List.mem_append_left _ hb)
    · rcases List.mem_cons.mp ht with rfl | ht
      · exact List.mem_append_left _ (List.mem_append_right _ hb)
      · rw [List.mem_singleton.mp ht] at hb
        exact List.mem_append_right _ hb

theorem mem_mapIndirects_of_wayTo {block : List Nat} {k b : Nat}
    (hb : b ∈ wayToTops get ppb (tops block) k) : b ∈ mapIndirects get ppb block := by
  have hmem : ∀ ts k, b ∈ wayToTops get ppb ts k → ∃ t ∈ ts, b ∈ indirects get ppb t.2 t.1 := by
    intro ts
    induction ts with
    | nil =>
        intro k hb
        cases hb
    | cons t ts ih =>
        intro k hb
        rw [wayToTops_cons] at hb
        split_ifs at hb with hk
        · exact ⟨t, List.mem_cons_self, mem_indirects_of_wayTo hk hb⟩
        · obtain ⟨t', ht', hb⟩ := ih _ hb
          exact ⟨t', List.mem_cons_of_mem _ ht', hb⟩
  obtain ⟨t, ht, hb⟩ := hmem _ _ hb
  exact mem_mapIndirects ht hb

theorem mapped_congr {block : List Nat} {n : Nat}
    (h : ∀ b ∈ mapIndirects get ppb block, get' b = get b) :
    mapped get' ppb block n = mapped get ppb block n := by
  unfold mapped
  apply List.map_congr_left
  intro k _
  exact walkTops_congr fun t ht b hb => h b (mem_mapIndirects ht hb)

theorem mapIndirects_congr {block : List Nat}
    (h : ∀ b ∈ mapIndirects get ppb block, get' b = get b) :
    mapIndirects get' ppb block = mapIndirects get ppb block := by
  have h12 : indirects get' ppb 1 (block.getD 12 0) = _ := indirects_congr fun b hb =>
    h b (List.mem_append_left _ (List.mem_append_left _ hb))
  have h13 : indirects get' ppb 2 (block.getD 13 0) = _ := indirects_congr fun b hb =>
    h b (List.mem_append_left _ (List.mem_append_right _ hb))
  have h14 : indirects get' ppb 3 (block.getD 14 0) = _ := indirects_congr fun b hb =>
    h b (List.mem_append_right _ hb)
  unfold mapIndirects
  rw [h12, h13, h14]

end Congr

end Pure

/-! ### Reading the map -/

variable {v : Volume} {d : Bytes}

/-- Pointers in a block of the volume. -/
def Fs.ppb (fs : Fs) : Nat := fs.blockSize / 4

theorem ppb_pos : 0 < v.ppb := by
  have := v.le_bs
  unfold Fs.ppb
  omega

theorem range_map_split {f : Nat → Nat} {a b : Nat} (h : a ≤ b) :
    (List.range b).map f = (List.range a).map f ++ (List.range (b - a)).map fun k => f (a + k) := by
  obtain ⟨c, rfl⟩ := Nat.exists_eq_add_of_le h
  rw [Nat.add_sub_cancel_left, List.range_add, List.map_append, List.map_map]
  rfl

/-- The pointers of a list are resolved one by one, each below its own condition. -/
theorem givesIf_collectLoop {ptr : Nat → Io Nat} {sub : Nat → Nat → Io (List Nat)} {span : Nat}
    {p : Nat → Nat} {f : Nat → Nat → Nat} {Q : Nat → Nat → Prop} (hspan : 0 < span)
    {fuel i left : Nat} {acc : List Nat} (hptr : ∀ j, j < i + fuel → Gives (ptr j) d (.ok (p j)))
    (hsub : ∀ j, j < i + fuel → ∀ need, 0 < need → need ≤ span →
      GivesIf (sub (p j) need) d (∀ k < need, Q (p j) k) ((List.range need).map (f (p j)))) :
    GivesIf (collectLoop ptr sub span fuel i acc left) d
      (∀ k < min left (fuel * span), Q (p (i + k / span)) (k % span))
      (acc ++ (List.range (min left (fuel * span))).map
        fun k => f (p (i + k / span)) (k % span)) := by
  induction fuel generalizing i acc left with
  | zero =>
      rw [Nat.zero_mul, Nat.min_zero, List.range_zero, List.map_nil, List.append_nil]
      exact (gives_pure _).givesIf fun k hk => absurd hk (Nat.not_lt_zero k)
  | succ fuel ih =>
      unfold collectLoop
      split_ifs with hleft
      · rw [hleft, Nat.zero_min, List.range_zero, List.map_nil, List.append_nil]
        exact (gives_pure _).givesIf fun k hk => absurd hk (Nat.not_lt_zero k)
      · have hmul : (fuel + 1) * span = fuel * span + span := Nat.succ_mul _ _
        refine (hptr i (by omega)).bindIf ?_
        refine ((hsub i (by omega) _ (by omega) (Nat.min_le_right _ _)).bind fun _ =>
          ih (fun j hj => hptr j (by omega)) fun j hj => hsub j (by omega)).to ?_ ?_
        · rw [List.length_map, List.length_range]
          constructor
          · intro h
            constructor
            · intro k hk
              have hk' := h k (by omega)
              rwa [Nat.div_eq_of_lt (by omega), Nat.mod_eq_of_lt (by omega), Nat.add_zero] at hk'
            · intro k hk
              have hk' := h (span + k) (by omega)
              rw [Nat.add_div_left _ hspan, Nat.add_mod_left] at hk'
              rwa [show i + 1 + k / span = i + (k / span).succ by omega]
          · rintro ⟨h, h'⟩ k hk
            by_cases hks : k < span
            · rw [Nat.div_eq_of_lt hks, Nat.mod_eq_of_lt hks, Nat.add_zero]
              exact h k (by omega)
            · have hk' := h' (k - span) (by omega)
              obtain ⟨k, rfl⟩ := Nat.exists_eq_add_of_le (show span ≤ k by omega)
              rw [Nat.add_sub_cancel_left] at hk'
              rw [Nat.add_div_left _ hspan, Nat.add_mod_left]
              rwa [show i + 1 + k / span = i + (k / span).succ by omega] at hk'
        · rw [List.length_map, List.length_range, List.append_assoc]
          congr 1
          rw [range_map_split (a := min left span) (b := min left ((fuel + 1) * span)) (by omega)]
          congr 1
          · apply List.map_congr_left
            intro k hk
            have hk' : k < span := by
              have := List.mem_range.mp hk
              omega
            rw [Nat.div_eq_of_lt hk', Nat.mod_eq_of_lt hk', Nat.add_zero]
          · by_cases hls : left ≤ span
            · have h0 : min left ((fuel + 1) * span) - min left span = 0 := by omega
              have h0' : min (left - min left span) (fuel * span) = 0 := by omega
              rw [h0, h0']
              rfl
            · have hmin : min left span = span := by omega
              have heq : min left ((fuel + 1) * span) - span = min (left - span) (fuel * span) := by
                omega
              rw [hmin, heq]
              apply List.map_congr_left
              intro k _
              rw [Nat.add_div_left _ hspan, Nat.add_mod_left]
              congr 2
              omega

section Sized

variable {fs : Fs} (hs : fs.Sized)

include hs

theorem givesIf_collect {depth blk need : Nat} (hneed : 0 < need) :
    GivesIf (collect fs depth blk need) d
      (∀ k < min need (fs.ppb ^ depth), ∀ b ∈ wayTo (fs.blockAt d) fs.ppb depth blk k,
        fs.OnDevice b 1)
      ((List.range (min need (fs.ppb ^ depth))).map (walk (fs.blockAt d) fs.ppb depth blk)) := by
  have hppb : 0 < fs.ppb := Nat.div_pos (by have := hs.le_bs; omega) (by decide)
  induction depth generalizing blk need with
  | zero =>
      have hone : min need (fs.ppb ^ 0) = 1 := by
        rw [pow_zero]
        omega
      rw [hone]
      refine Gives.givesIf (gives_pure _) ?_
      intro k _ b hb
      cases hb
  | succ depth ih =>
      have hspan : 0 < fs.ppb ^ depth := Nat.pow_pos hppb
      -- the loop over the pointers `p` of a block
      have hloop : ∀ (ptr : Nat → Io Nat) (p : Nat → Nat),
          (∀ j < 0 + fs.ppb, Gives (ptr j) d (.ok (p j))) →
          GivesIf (collectLoop ptr (collect fs depth) (fs.ppb ^ depth) fs.ppb 0 [] need) d
            (∀ k < min need (fs.ppb * fs.ppb ^ depth), ∀ b ∈ wayTo (fs.blockAt d) fs.ppb depth
              (p (0 + k / fs.ppb ^ depth)) (k % fs.ppb ^ depth), fs.OnDevice b 1)
            ([] ++ (List.range (min need (fs.ppb * fs.ppb ^ depth))).map fun k =>
              walk (fs.blockAt d) fs.ppb depth (p (0 + k / fs.ppb ^ depth))
                (k % fs.ppb ^ depth)) := by
        intro ptr p hptr
        refine givesIf_collectLoop (f := walk (fs.blockAt d) fs.ppb depth)
          (Q := fun b k => ∀ b' ∈ wayTo (fs.blockAt d) fs.ppb depth b k, fs.OnDevice b' 1)
          hspan hptr ?_
        intro j _ need hpos hle
        have h : GivesIf (collect fs depth (p j) need) d _ _ := ih hpos
        rwa [Nat.min_eq_left hle] at h
      unfold collect
      simp only
      rw [pow_succ, Nat.mul_comm (fs.ppb ^ depth)]
      split_ifs with hblk
      · have hptr : ∀ j < 0 + fs.ppb, Gives (u32 ⟨fs.blockSize, fs.blockAt d blk⟩ (4 * j)) d
            (.ok (pointer (fs.blockAt d blk) j)) := by
          intro j hj
          unfold Fs.ppb at hj
          exact gives_load (show 4 * j + 4 ≤ fs.blockSize by omega)
        refine ((givesIf_readBlock hs hblk).bind fun _ => hloop _ _ hptr).to ?_ ?_
        · have hpos : 0 < min need (fs.ppb * fs.ppb ^ depth) :=
            lt_min hneed (Nat.mul_pos hppb hspan)
          constructor
          · intro h
            refine ⟨h 0 hpos blk ?_, fun k hk b hb => h k hk b ?_⟩
            · rw [wayTo_succ, if_neg hblk]
              exact List.mem_cons_self
            · rw [wayTo_succ, if_neg hblk]
              rw [Nat.zero_add] at hb
              exact List.mem_cons_of_mem _ hb
          · rintro ⟨h, h'⟩ k hk b hb
            rw [wayTo_succ, if_neg hblk] at hb
            rcases List.mem_cons.mp hb with rfl | hb
            · exact h
            · exact h' k hk b (by rwa [Nat.zero_add])
        · rw [List.nil_append]
          apply List.map_congr_left
          intro k _
          rw [walk_succ, if_neg hblk, Nat.zero_add]
      · have hblk : blk = 0 := by simpa using hblk
        subst hblk
        refine (hloop _ (fun _ => 0) fun j _ => gives_pure _).to ?_ ?_
        · constructor
          · intro _ k _ b hb
            rw [wayTo_zero] at hb
            cases hb
          · intro _ k _ b hb
            rw [wayTo_zero] at hb
            cases hb
        · rw [List.nil_append]
          apply List.map_congr_left
          intro k _
          rw [walk_zero, walk_zero]

theorem givesIf_collectTops {ts : List (Nat × Nat)} {acc : List Nat} {left : Nat} :
    GivesIf (collectTops fs ts acc left) d
      (∀ k < min left (topsCapacity fs.ppb ts), ∀ b ∈ wayToTops (fs.blockAt d) fs.ppb ts k,
        fs.OnDevice b 1)
      (acc ++ (List.range (min left (topsCapacity fs.ppb ts))).map
        (walkTops (fs.blockAt d) fs.ppb ts)) := by
  induction ts generalizing acc left with
  | nil =>
      simp only [topsCapacity, List.map_nil, List.sum_nil, Nat.min_zero, List.range_zero,
        List.append_nil]
      exact (gives_pure _).givesIf fun k hk => absurd hk (Nat.not_lt_zero k)
  | cons t ts ih =>
      obtain ⟨blk, depth⟩ := t
      unfold collectTops
      have hcap : topsCapacity fs.ppb ((blk, depth) :: ts) =
          fs.ppb ^ depth + topsCapacity fs.ppb ts := by
        simp [topsCapacity]
      split_ifs with hleft
      · rw [hleft, Nat.zero_min, List.range_zero, List.map_nil, List.append_nil]
        exact (gives_pure _).givesIf fun k hk => absurd hk (Nat.not_lt_zero k)
      · refine ((givesIf_collect hs (by omega)).bind fun _ => ih).to ?_ ?_
        · rw [List.length_map, List.length_range, hcap]
          constructor
          · intro h
            constructor
            · intro k hk b hb
              refine h k (by omega) b ?_
              rwa [wayToTops, if_pos (by omega)]
            · intro k hk b hb
              refine h (fs.ppb ^ depth + k) (by omega) b ?_
              rwa [wayToTops, if_neg (by omega), Nat.add_sub_cancel_left]
          · rintro ⟨h, h'⟩ k hk b hb
            rw [wayToTops_cons] at hb
            split_ifs at hb with hk'
            · exact h k (by omega) b hb
            · exact h' (k - fs.ppb ^ depth) (by omega) b hb
        · rw [List.length_map, List.length_range, List.append_assoc, hcap]
          congr 1
          rw [range_map_split (a := min left (fs.ppb ^ depth))
            (b := min left (fs.ppb ^ depth + topsCapacity fs.ppb ts)) (by omega)]
          congr 1
          · apply List.map_congr_left
            intro k hk
            have hk' : k < fs.ppb ^ depth := by
              have := List.mem_range.mp hk
              omega
            rw [walkTops_cons, if_pos hk']
          · by_cases hls : left ≤ fs.ppb ^ depth
            · have h0 : min left (fs.ppb ^ depth + topsCapacity fs.ppb ts) -
                min left (fs.ppb ^ depth) = 0 := by omega
              have h0' : min (left - min left (fs.ppb ^ depth)) (topsCapacity fs.ppb ts) = 0 := by
                omega
              rw [h0, h0']
              rfl
            · have hmin : min left (fs.ppb ^ depth) = fs.ppb ^ depth := by omega
              have heq : min left (fs.ppb ^ depth + topsCapacity fs.ppb ts) - fs.ppb ^ depth =
                  min (left - fs.ppb ^ depth) (topsCapacity fs.ppb ts) := by omega
              rw [hmin, heq]
              apply List.map_congr_left
              intro k _
              rw [walkTops_cons, if_neg (by omega), Nat.add_sub_cancel_left]

end Sized

/-- The blocks of an inode's contents, holes as 0. -/
def Inode.blocksIn (fs : Fs) (get : Nat → Bytes) (i : Inode) : List Nat :=
  mapped get fs.ppb i.block (ceilDiv i.size fs.blockSize)

/-- What `file-blocks` gives, whatever the image holds. -/
theorem givesIf_fileBlocks {fs : Fs} (hs : fs.Sized) {i : Inode} :
    GivesIf (fileBlocks fs i) d
      (∀ k < min (ceilDiv i.size fs.blockSize) (topsCapacity fs.ppb (tops i.block)),
        ∀ b ∈ wayToTops (fs.blockAt d) fs.ppb (tops i.block) k, fs.OnDevice b 1)
      (i.blocksIn fs (fs.blockAt d)) :=
  (givesIf_collectTops hs).to Iff.rfl (List.nil_append _)

theorem gives_fileBlocks {i : Inode}
    (hdata : ∀ b ∈ mapIndirects (v.view d).block v.ppb i.block, v.kind b = .data) :
    Gives (fileBlocks v.toFs i) d (.ok (i.blocksIn v.toFs (v.view d).block)) := by
  have hget : ∀ b ∈ mapIndirects (v.view d).block v.ppb i.block,
      v.blockAt d b = (v.view d).block b := fun b hb => (if_pos (hdata b hb)).symm
  refine ((givesIf_fileBlocks v.sized).1 ?_).to (mapped_congr hget)
  intro k _ b hb
  have hb := mem_mapIndirects_of_wayTo hb
  rw [mapIndirects_congr hget] at hb
  exact onDevice_of_le (v.data_inRange (hdata b hb)).2

theorem gives_indirectLoop {b : Buf} {sub : Nat → Io (List Nat)} {f : Nat → List Nat} {n o : Nat}
    (hn : o + 4 * n ≤ b.capacity)
    (hsub : ∀ k < n, Gives (sub (loadLE b.bytes 4 (o + 4 * k))) d
      (.ok (f (loadLE b.bytes 4 (o + 4 * k))))) :
    Gives (indirectLoop b sub o n) d
      (.ok ((List.range n).flatMap fun k => f (loadLE b.bytes 4 (o + 4 * k)))) := by
  induction n generalizing o with
  | zero => exact gives_pure _
  | succ n ih =>
      unfold indirectLoop
      have h0 := hsub 0 (by omega)
      rw [Nat.mul_zero, Nat.add_zero] at h0
      have hshift : ∀ k, o + 4 * (k + 1) = o + 4 + 4 * k := by
        intro k
        omega
      have hrec := ih (o := o + 4) (by omega) (fun k hk => by
        rw [← hshift]
        exact hsub (k + 1) (by omega))
      refine (gives_load (by omega)).bind (h0.bind (hrec.bind ?_))
      rw [List.range_succ_eq_map, List.flatMap_cons, List.flatMap_map]
      simp only [Nat.mul_zero, Nat.add_zero, Nat.succ_eq_add_one, hshift]
      exact gives_pure _

theorem gives_indirectBlocks {depth blk : Nat}
    (hdata : ∀ b ∈ indirects (v.view d).block v.ppb depth blk, v.kind b = .data) :
    Gives (indirectBlocks v.toFs depth blk) d (.ok (indirects (v.view d).block v.ppb depth blk)) := by
  induction depth generalizing blk with
  | zero => exact gives_pure _
  | succ depth ih =>
      unfold indirectBlocks
      by_cases hblk : blk = 0
      · rw [if_pos hblk, indirects_succ, if_pos hblk]
        exact gives_pure _
      · rw [if_neg hblk]
        refine (gives_readBlock_data (hdata blk (mem_indirects_self hblk))).bind ?_
        rw [indirects_succ, if_neg hblk]
        split_ifs with hdepth
        · subst hdepth
          have hnil : ((List.range v.ppb).flatMap fun i =>
              indirects (v.view d).block v.ppb 0 (pointer ((v.view d).block blk) i)) = [] :=
            List.flatMap_eq_nil_iff.mpr fun _ _ => rfl
          rw [hnil]
          exact gives_pure _
        · have hcap : 0 + 4 * v.ppb ≤ v.blockSize := by
            unfold Fs.ppb
            omega
          have hsub : ∀ k < v.ppb, Gives (indirectBlocks v.toFs depth
              (loadLE ((v.view d).block blk) 4 (0 + 4 * k))) d (.ok (indirects (v.view d).block
                v.ppb depth (loadLE ((v.view d).block blk) 4 (0 + 4 * k)))) := by
            intro k hk
            rw [Nat.zero_add]
            exact ih fun b hb => hdata b (mem_indirects_below hblk hk hb)
          have hloop := gives_indirectLoop (b := ⟨v.blockSize, (v.view d).block blk⟩) hcap hsub
          simp only [Nat.zero_add] at hloop
          exact hloop.bind (gives_pure _)

/-- The blocks an inode uses, data and indirect. -/
def Inode.refs (fs : Fs) (get : Nat → Bytes) (i : Inode) : List Nat :=
  if fastSymlink fs i then []
  else (i.blocksIn fs get).filter (· ≠ 0) ++ mapIndirects get fs.ppb i.block

/-- What `all-blocks` returns: the same with the holes. -/
theorem gives_allBlocks {i : Inode}
    (hdata : ∀ b ∈ i.refs v.toFs (v.view d).block, v.kind b = .data) :
    ∃ l, Gives (allBlocks v.toFs i) d (.ok l) ∧
      l.filter (· ≠ 0) = i.refs v.toFs (v.view d).block := by
  unfold allBlocks
  unfold Inode.refs at hdata ⊢
  split_ifs at hdata ⊢ with hfast
  · exact ⟨[], gives_pure _, rfl⟩
  · have hind : ∀ b ∈ mapIndirects (v.view d).block v.ppb i.block, v.kind b = .data :=
      fun b hb => hdata b (List.mem_append_right _ hb)
    refine ⟨i.blocksIn v.toFs (v.view d).block ++ indirects (v.view d).block v.ppb 1 (i.block.getD 12 0) ++
      indirects (v.view d).block v.ppb 2 (i.block.getD 13 0) ++
      indirects (v.view d).block v.ppb 3 (i.block.getD 14 0), ?_, ?_⟩
    · refine (gives_fileBlocks hind).bind
        ((gives_indirectBlocks fun b hb => hind b ?_).bind
        ((gives_indirectBlocks fun b hb => hind b ?_).bind
        ((gives_indirectBlocks fun b hb => hind b ?_).bind (gives_pure _))))
      · exact List.mem_append_left _ (List.mem_append_left _ hb)
      · exact List.mem_append_left _ (List.mem_append_right _ hb)
      · exact List.mem_append_right _ hb
    · have hkeep : (mapIndirects (v.view d).block v.ppb i.block).filter (· ≠ 0) =
          mapIndirects (v.view d).block v.ppb i.block := by
        apply List.filter_eq_self.mpr
        intro b hb
        simpa using ne_zero_of_mem_mapIndirects hb
      rw [List.append_assoc, List.append_assoc, List.filter_append, ← List.append_assoc _ _ (indirects _ _ 3 _)]
      congr 1

/-- The blocks of an inode depend on the contents of these blocks only. -/
theorem refs_congr {fs : Fs} {get get' : Nat → Bytes} {i : Inode}
    (h : ∀ b ∈ i.refs fs get, get' b = get b) : i.refs fs get' = i.refs fs get := by
  unfold Inode.refs at h ⊢
  split_ifs at h ⊢ with hfast
  · rfl
  · have hind : ∀ b ∈ mapIndirects get fs.ppb i.block, get' b = get b :=
      fun b hb => h b (List.mem_append_right _ hb)
    rw [mapIndirects_congr hind]
    unfold Inode.blocksIn
    rw [mapped_congr hind]

theorem blocksIn_congr {fs : Fs} {get get' : Nat → Bytes} {i : Inode} (hi : ¬fastSymlink fs i)
    (h : ∀ b ∈ i.refs fs get, get' b = get b) : i.blocksIn fs get' = i.blocksIn fs get := by
  unfold Inode.refs at h
  rw [if_neg hi] at h
  exact mapped_congr fun b hb => h b (List.mem_append_right _ hb)

theorem mem_refs_of_mem_blocksIn {fs : Fs} {get : Nat → Bytes} {i : Inode} {b : Nat}
    (hi : ¬fastSymlink fs i) (hb : b ∈ i.blocksIn fs get) (hb0 : b ≠ 0) : b ∈ i.refs fs get := by
  unfold Inode.refs
  rw [if_neg hi]
  exact List.mem_append_left _ (List.mem_filter.mpr ⟨hb, by simpa using hb0⟩)

end Beeros.Ext2
