import Beeros.Ext2Dir

/-! Directory blocks changed: `put-entry!`, and the record scans of `add-entry!` and `remove-entry!`.
A change replaces the records of one stretch of a block by others. -/

namespace Beeros.Ext2

open Memory Exec

/-- The entry that `put-entry!` makes. -/
def Fs.newEntry (fs : Fs) (name : Str) (ino : Nat) (t : FileType) : Entry :=
  ⟨some name, ino, if fs.filetype then some t else none⟩

/-- `e` has been put somewhere into the list. -/
def Inserted (e : Entry) (l l' : List Entry) : Prop := ∃ l₁ l₂, l = l₁ ++ l₂ ∧ l' = l₁ ++ e :: l₂

/-- The first entry called `name`, `e`, has been taken away. -/
def Removed (name : Str) (e : Entry) (l l' : List Entry) : Prop :=
  ∃ l₁ l₂, l = l₁ ++ e :: l₂ ∧ l' = l₁ ++ l₂ ∧ e.name = some name ∧
    ∀ e' ∈ l₁, e'.name ≠ some name

section Lists

variable {e : Entry} {name : Str} {l l' a b : List Entry}

theorem Inserted.append (h : Inserted e l l') : Inserted e (a ++ l ++ b) (a ++ l' ++ b) := by
  obtain ⟨l₁, l₂, rfl, rfl⟩ := h
  exact ⟨a ++ l₁, l₂ ++ b, by simp, by simp⟩

theorem Removed.append (h : Removed name e l l') (ha : ∀ e' ∈ a, e'.name ≠ some name) :
    Removed name e (a ++ l ++ b) (a ++ l' ++ b) := by
  obtain ⟨l₁, l₂, rfl, rfl, hname, hfirst⟩ := h
  refine ⟨a ++ l₁, l₂ ++ b, by simp, by simp, hname, fun e' he' => ?_⟩
  rcases List.mem_append.mp he' with he' | he'
  · exact ha e' he'
  · exact hfirst e' he'

end Lists

theorem Tiled.splice {fs : Fs} {m m' : Bytes} {o k e : Nat} {os₁ mid os₂ : List Nat}
    (h₁ : Tiled fs m 0 o os₁) (h₂ : Tiled fs m k e os₂) (ha : AgreeOutside m m' o k)
    (hmid : Tiled fs m' o k mid) : Tiled fs m' 0 e (os₁ ++ (mid ++ os₂)) ∧
      entriesAt fs m' (os₁ ++ (mid ++ os₂)) =
        entriesAt fs m os₁ ++ (entriesAt fs m' mid ++ entriesAt fs m os₂) := by
  obtain ⟨ht₁, he₁⟩ := h₁.congr (ha.agreeOn (by omega))
  obtain ⟨ht₂, he₂⟩ := h₂.congr (ha.agreeOn (by omega))
  refine ⟨tiled_append.mpr ⟨o, ht₁, tiled_append.mpr ⟨k, hmid, ht₂⟩⟩, ?_⟩
  rw [entriesAt_append, entriesAt_append, he₁, he₂]

/-- A block in which neat records have been put in the place of others is still neat. -/
theorem Tiled.neat_splice {fs : Fs} {m m' : Bytes} {o k e : Nat} {os₁ mid' os₂ : List Nat} (mid : List Nat)
    (h₁ : Tiled fs m 0 o os₁) (h₂ : Tiled fs m k e os₂) (ha : AgreeOutside m m' o k)
    (hn : Neat fs m (os₁ ++ (mid ++ os₂))) (hmid : Neat fs m' mid') :
    Neat fs m' (os₁ ++ (mid' ++ os₂)) := by
  obtain ⟨hn₁, hn⟩ := neat_append.mp hn
  have hn₂ := (neat_append.mp hn).2
  exact neat_append.mpr ⟨h₁.neat_congr (ha.agreeOn (by omega)) hn₁,
    neat_append.mpr ⟨hmid, h₂.neat_congr (ha.agreeOn (by omega)) hn₂⟩⟩

theorem neat_singleton {fs : Fs} {m : Bytes} {p : Nat} :
    Neat fs m [p] ↔ 4 ∣ recLen m p ∧ (recIno m p ≠ 0 → fs.recNl m p ≤ 255) := List.forall_mem_singleton

/-- A buffer of a block and the block it is written to have the same records. -/
theorem Tiled.window {fs : Fs} {m : Bytes} {os : List Nat} (h : Tiled fs m 0 fs.blockSize os) :
    DirBlock fs (Memory.window m 0 fs.blockSize) ∧
      Ext2.blockEntries fs (Memory.window m 0 fs.blockSize) = entriesAt fs m os ∧
      (Neat fs m os → NeatBlock fs (Memory.window m 0 fs.blockSize)) := by
  have hagree : AgreeOn m (Memory.window m 0 fs.blockSize) 0 (fs.blockSize - 0) := by
    intro i _ hi
    rw [window_apply (by omega), Nat.zero_add]
  obtain ⟨ht, he⟩ := h.congr hagree
  exact ⟨ht.dirBlock, ht.blockEntries.trans he, fun hn => ht.neatBlock.mpr (h.neat_congr hagree hn)⟩

/-! ### Entries put into a buffer -/

variable {v : Volume}

def nameBytes (name : Str) : Nat := (Utf8.encode name).length

theorem ftType_typeFt (t : FileType) : ftType (typeFt t) = t := by
  cases t <;> rfl

theorem toList_window_copy {m : Bytes} {a : Nat} {name : Str} :
    Buf.toString ⟨nameBytes name, window (copy m a (Buf.fromString name).bytes 0 (nameBytes name)) a
      (nameBytes name)⟩ = some name := by
  unfold Buf.toString
  have hlist : Buf.toList ⟨nameBytes name, window (copy m a (Buf.fromString name).bytes 0
      (nameBytes name)) a (nameBytes name)⟩ = Utf8.encode name := by
    unfold Buf.toList
    apply List.ext_getElem
    · rw [List.length_map, List.length_range]
      rfl
    · intro i hi hi'
      rw [List.getElem_map, List.getElem_range]
      simp only
      have hn : i < nameBytes name := hi'
      rw [window_apply hn, copy_apply hn, Nat.zero_add]
      exact List.getD_eq_getElem _ _ hi'
  rw [hlist, Utf8.decode_encode]

/-- What `put-entry!` leaves at its offset. -/
structure PutAt (v : Volume) (m m' : Bytes) (o i len : Nat) (name : Str) (t : FileType) : Prop where
  outside : AgreeOutside m m' o (o + 8 + nameBytes name)
  ino : recIno m' o = i
  length : recLen m' o = len
  nl : v.recNl m' o = nameBytes name
  entry : v.recEntry m' o = v.newEntry name i t

/-- The length of the name and the type, in one or two stores. -/
theorem putKind_ok {buf r : Buf} {o : Nat} {name : Str} {t : FileType} {w w' : World}
    (h : (if v.filetype then do
      let buf ← setU8 v.toFs buf (o + 6) (Buf.fromString name).capacity
      setU8 v.toFs buf (o + 7) (typeFt t)
    else setU16 v.toFs buf (o + 6) (Buf.fromString name).capacity) w = .ok r w') :
    w = w' ∧ r.capacity = buf.capacity ∧ AgreeOutside buf.bytes r.bytes (o + 6) (o + 8) ∧
      v.recNl r.bytes o = nameBytes name ∧
      v.recType r.bytes o = if v.filetype then some t else none := by
  unfold Fs.recNl Fs.recType
  split_ifs at h ⊢ with hft
  · obtain ⟨b1, w1, h1, h2⟩ := bind_ok.mp h
    obtain ⟨-, -, hnl, rfl, rfl⟩ := store_ok.mp h1
    obtain ⟨-, -, -, rfl, rfl⟩ := store_ok.mp h2
    have hft' : typeFt t < 256 ^ 1 := by cases t <;> decide
    refine ⟨rfl, rfl, ?_, ?_, ?_⟩
    · exact (agreeOutside_storeLE (by omega) (by omega)).trans
        (agreeOutside_storeLE (by omega) (by omega))
    · rw [loadLE_storeLE_of_disjoint (by omega)]
      exact loadLE_storeLE_of_lt (by exact_mod_cast hnl)
    · simp only [Int.toNat_natCast]
      rw [loadLE_storeLE_of_lt hft', ftType_typeFt]
  · obtain ⟨-, -, hnl, rfl, rfl⟩ := store_ok.mp h
    refine ⟨rfl, rfl, agreeOutside_storeLE (by omega) (by omega), ?_, rfl⟩
    exact loadLE_storeLE_of_lt (by exact_mod_cast hnl)

theorem putEntry_ok {buf r : Buf} {o ino len : Nat} {name : Str} {t : FileType} {w w' : World}
    (h : putEntry v.toFs buf o ino len name t w = .ok r w') : w = w' ∧ r.capacity = buf.capacity ∧
      o + 8 + nameBytes name ≤ buf.capacity ∧ PutAt v buf.bytes r.bytes o ino len name t := by
  unfold putEntry at h
  obtain ⟨b1, w1, h1, h⟩ := bind_ok.mp h
  obtain ⟨-, -, hino, rfl, rfl⟩ := store_ok.mp h1
  obtain ⟨b2, w2, h2, h⟩ := bind_ok.mp h
  obtain ⟨-, -, hlen, rfl, rfl⟩ := store_ok.mp h2
  obtain ⟨b3, w3, h3, h4⟩ := bind_ok.mp h
  obtain ⟨rfl, hcap, hout, hnl, htype⟩ := putKind_ok h3
  obtain ⟨⟨hroom, -⟩, rfl, rfl⟩ := copyBuf_ok.mp h4
  rw [hcap] at hroom
  have hino' : recIno b3.bytes o = ino := by
    unfold recIno
    rw [loadLE_congr (hout.agreeOn (by omega))]
    simp only [Int.toNat_natCast]
    rw [loadLE_storeLE_of_disjoint (by omega), loadLE_storeLE_of_lt (by exact_mod_cast hino)]
  have hlen' : recLen b3.bytes o = len := by
    unfold recLen
    rw [loadLE_congr (hout.agreeOn (by omega))]
    simp only [Int.toNat_natCast]
    rw [loadLE_storeLE_of_lt (by exact_mod_cast hlen)]
  have hcopy : AgreeOutside b3.bytes (copy b3.bytes (o + 8) (Buf.fromString name).bytes 0
      (nameBytes name)) (o + 8) (o + 8 + nameBytes name) := agreeOutside_copy le_rfl le_rfl
  obtain ⟨hi, hl, hn, ht⟩ := header_congr v.toFs (o := o) (hcopy.agreeOn (by omega))
  refine ⟨rfl, hcap, hroom, ?_, hi.trans hino', hl.trans hlen', hn.trans hnl, ?_⟩
  · have h1 : AgreeOutside buf.bytes (storeLE buf.bytes 4 o (ino : Int).toNat) o
        (o + 8 + nameBytes name) := agreeOutside_storeLE (by omega) (by omega)
    have h2 : AgreeOutside (storeLE buf.bytes 4 o (ino : Int).toNat) (storeLE (storeLE buf.bytes 4 o
        (ino : Int).toNat) 2 (o + 4) (len : Int).toNat) o (o + 8 + nameBytes name) :=
      agreeOutside_storeLE (by omega) (by omega)
    exact ((h1.trans h2).trans (hout.mono (by omega) (by omega))).trans
      (hcopy.mono (by omega) (by omega))
  · have hname : v.recName (copy b3.bytes (o + 8) (Buf.fromString name).bytes 0
        (nameBytes name)) o = some name := by
      unfold Fs.recName
      rw [hn.trans hnl]
      exact toList_window_copy
    have hentry : v.recEntry (copy b3.bytes (o + 8) (Buf.fromString name).bytes 0
        (nameBytes name)) o = v.newEntry name ino t := by
      unfold Fs.recEntry Fs.newEntry
      rw [hname, hi, hino', ht, htype]
    exact hentry

/-- The record that `put-entry!` has put is sound if it has the room it needs. -/
theorem PutAt.recOk {m m' : Bytes} {o i len : Nat} {name : Str} {t : FileType}
    (h : PutAt v m m' o i len name t) (hname : 1 ≤ nameBytes name) (hlen : 8 + nameBytes name ≤ len) :
    RecOk v.toFs m' o := by
  refine ⟨by rw [h.length]; omega, fun _ => ?_⟩
  rw [h.nl, h.length]
  exact ⟨hname, hlen⟩

/-! ### Adding -/

theorem nameLen_ok {b : Buf} {o r : Nat} {w w' : World} (h : nameLen v.toFs b o w = .ok r w') :
    r = v.recNl b.bytes o ∧ w = w' := by
  unfold nameLen at h
  unfold Fs.recNl
  split_ifs at h ⊢
  · exact (load_ok.mp h).2
  · exact (load_ok.mp h).2

/-- The block `blk` has been given the records of `m`. -/
structure BlockSet (v : Volume) (x x' : Vol) (blk : Nat) (m : Bytes) : Prop where
  view : x' = x.setBlock blk m
  dirBlock : DirBlock v.toFs m

/-- A buffer whose records are right, written to its block. -/
theorem BlockSet.rewrote {x x' : Vol} {blk : Nat} {m : Bytes} (h : BlockSet v x x' blk m) :
    Rewrote x x' [blk] := by
  rw [h.view]
  exact rewrote_setBlock (List.mem_singleton.mpr rfl)

theorem BlockSet.block {x x' : Vol} {blk : Nat} {m : Bytes} (h : BlockSet v x x' blk m) :
    x'.block = Function.update x.block blk m := by
  rw [h.view]
  rfl

theorem writeBlock_records {blk : Nat} {buf : Buf} {os : List Nat} {w w' : World} {u : Unit}
    (h : writeBlock v.toFs blk buf w = .ok u w') (hblk : v.kind blk = .data)
    (ht : Tiled v.toFs buf.bytes 0 v.blockSize os) :
    ∃ m, BlockSet v (v.view w.disk) (v.view w'.disk) blk m ∧
      blockEntries v.toFs m = entriesAt v.toFs buf.bytes os ∧
      (Neat v.toFs buf.bytes os → NeatBlock v.toFs m) :=
  ⟨_, ⟨writeBlock_data h hblk, ht.window.1⟩, ht.window.2⟩

theorem align4_ge (n : Nat) : n ≤ align4 n := by
  unfold align4
  omega

theorem align4_dvd (n : Nat) : 4 ∣ align4 n := Nat.dvd_mul_right _ _

/-- A used record cut in two: the entry it had, and behind it the new one. -/
theorem PutAt.cut {m m' : Bytes} {p used i : Nat} {name : Str} {t : FileType}
    (h : PutAt v (storeLE m 2 (p + 4) used) m' (p + used) i (recLen m p - used) name t)
    (hok : RecOk v.toFs m p) (hp : recIno m p ≠ 0) (hname : 1 ≤ nameBytes name) (hi : i ≠ 0)
    (hused : 8 + v.recNl m p ≤ used) (hfit : used < 256 ^ 2)
    (hroom : used + (8 + nameBytes name) ≤ recLen m p) :
    Tiled v.toFs m' p (p + recLen m p) [p, p + used] ∧
      entriesAt v.toFs m' [p, p + used] = [v.recEntry m p, v.newEntry name i t] ∧
      AgreeOutside m m' p (p + recLen m p) ∧
      (Neat v.toFs m [p] → 4 ∣ used → nameBytes name ≤ 255 → Neat v.toFs m' [p, p + used]) := by
  have hcut : AgreeOutside m (storeLE m 2 (p + 4) used) p (p + recLen m p) :=
    agreeOutside_storeLE (by omega) (by omega)
  have hrest : AgreeOn (storeLE m 2 (p + 4) used) m' p used := h.outside.agreeOn (by omega)
  have hlen : recLen m' p = used := by
    unfold recLen
    rw [loadLE_congr (hrest.mono (by omega) (by omega)), loadLE_storeLE_of_lt hfit]
  have hino : recIno m' p = recIno m p := by
    unfold recIno
    rw [loadLE_congr (hrest.mono (by omega) (by omega)), loadLE_storeLE_of_disjoint (by omega)]
  have hnl : v.recNl m' p = v.recNl m p := by
    unfold Fs.recNl
    rw [loadLE_congr (hrest.mono (by omega) (by omega)),
      loadLE_congr (hrest.mono (by omega) (by omega)),
      loadLE_storeLE_of_disjoint (by omega), loadLE_storeLE_of_disjoint (by omega)]
  have htype : v.recType m' p = v.recType m p := by
    unfold Fs.recType
    rw [loadLE_congr (hrest.mono (by omega) (by omega)), loadLE_storeLE_of_disjoint (by omega)]
  have hwin : window m' (p + 8) (v.recNl m p) = window m (p + 8) (v.recNl m p) :=
    (window_congr (hrest.mono (by omega) (by omega))).trans
      (window_congr (agreeOn_storeLE (by omega)))
  have hentry : v.recEntry m' p = v.recEntry m p := by
    unfold Fs.recEntry Fs.recName
    rw [hnl, hino, htype, hwin]
  have hok1 : RecOk v.toFs m' p := by
    refine ⟨by rw [hlen]; omega, fun _ => ?_⟩
    rw [hnl, hlen]
    exact ⟨(hok.used hp).1, hused⟩
  have hok2 : RecOk v.toFs m' (p + used) := h.recOk hname (by omega)
  refine ⟨⟨rfl, hok1, ?_⟩, ?_, hcut.trans (h.outside.mono (by omega) (by omega)),
    fun hn hdvd h255 => ?_⟩
  · rw [hlen]
    refine ⟨rfl, hok2, ?_⟩
    rw [h.length]
    show p + used + (recLen m p - used) = p + recLen m p
    omega
  · rw [entriesAt_cons, entriesAt_cons, if_pos (by rwa [hino]), if_pos (by rwa [h.ino]), hentry,
      h.entry]
    rfl
  · obtain ⟨hlen4, hnl255⟩ := neat_singleton.mp hn
    refine List.forall_mem_cons.mpr ⟨?_, neat_singleton.mpr ?_⟩
    · rw [hlen, hino, hnl]
      exact ⟨hdvd, hnl255⟩
    · rw [h.length, h.nl]
      exact ⟨Nat.dvd_sub hlen4 hdvd, fun _ => h255⟩

theorem addInBlock_ok {name path : Str} {ino need blk fuel o : Nat} {t : FileType} {m : Bytes}
    {os₁ os₂ : List Nat} {r : Bool} {w w' : World}
    (h : addInBlock v.toFs name ino t path need blk ⟨v.blockSize, m⟩ fuel o w = .ok r w')
    (hneed : 8 + nameBytes name ≤ need) (hname : 1 ≤ nameBytes name) (hino : ino ≠ 0)
    (hblk : v.kind blk = .data) (h₁ : Tiled v.toFs m 0 o os₁)
    (h₂ : Tiled v.toFs m o v.blockSize os₂) :
    (r = false ∧ w = w') ∨ (r = true ∧ ∃ m', BlockSet v (v.view w.disk) (v.view w'.disk) blk m' ∧
      Inserted (v.newEntry name ino t) (blockEntries v.toFs m) (blockEntries v.toFs m') ∧
      (NeatBlock v.toFs m → nameBytes name ≤ 255 → NeatBlock v.toFs m')) := by
  induction fuel generalizing o os₁ os₂ with
  | zero => exact absurd h throw_ok
  | succ fuel ih =>
      unfold addInBlock at h
      split_ifs at h with ho
      · cases os₂ with
        | nil =>
            have : o = v.blockSize := h₂
            omega
        | cons p os₂ =>
            have hwhole : Tiled v.toFs m 0 v.blockSize (os₁ ++ p :: os₂) :=
              tiled_append.mpr ⟨o, h₁, h₂⟩
            obtain ⟨rfl, hok, h₂⟩ := h₂
            obtain ⟨e, w1, h3, h⟩ := bind_ok.mp h
            obtain ⟨-, he, rfl⟩ := load_ok.mp h3
            obtain rfl : e = recIno m p := he
            obtain ⟨len, w2, h4, h⟩ := bind_ok.mp h
            obtain ⟨-, hl, rfl⟩ := load_ok.mp h4
            obtain rfl : len = recLen m p := hl
            obtain ⟨used, w3, h5, h⟩ := bind_ok.mp h
            obtain ⟨_, w4, h6, h7⟩ := bind_ok.mp h
            obtain ⟨-, rfl⟩ := failWhen_ok.mp h6
            have hused : w = w3 ∧ used = if recIno m p = 0 then 0 else align4 (8 + v.recNl m p) := by
              unfold usedBytes at h5
              split_ifs at h5 ⊢
              · obtain ⟨rfl, rfl⟩ := pure_ok.mp h5
                exact ⟨rfl, rfl⟩
              · obtain ⟨nl, w4, h8, h9⟩ := bind_ok.mp h5
                obtain ⟨rfl, rfl⟩ := nameLen_ok h8
                obtain ⟨rfl, rfl⟩ := pure_ok.mp h9
                exact ⟨rfl, rfl⟩
            obtain ⟨rfl, hused⟩ := hused
            split_ifs at h7 with hroom hfree
            · -- an unused record with room for the entry
              obtain ⟨buf, w5, h8, h9⟩ := bind_ok.mp h7
              obtain ⟨rfl, -, -, hput⟩ := putEntry_ok h8
              obtain ⟨_, w6, h10, h11⟩ := bind_ok.mp h9
              obtain ⟨rfl, rfl⟩ := pure_ok.mp h11
              have hlen : recLen buf.bytes p = recLen m p := hput.length
              have hmid : Tiled v.toFs buf.bytes p (p + recLen m p) [p] :=
                ⟨rfl, hput.recOk hname (by omega), by rw [hlen]; rfl⟩
              obtain ⟨ht, he⟩ := h₁.splice h₂ (hput.outside.mono le_rfl (by omega)) hmid
              obtain ⟨m', hset, hm', hneat⟩ := writeBlock_records h10 hblk ht
              refine .inr ⟨rfl, m', hset, ⟨entriesAt v.toFs m os₁, entriesAt v.toFs m os₂, ?_, ?_⟩,
                fun hn h255 => hneat ?_⟩
              · rw [hwhole.blockEntries, entriesAt_append, entriesAt_cons,
                  if_neg (not_not.mpr hfree), List.nil_append]
              · rw [hm', he, entriesAt_cons, if_pos (by rw [hput.ino]; exact hino), hput.entry]
                rfl
              · have hn := hwhole.neatBlock.mp hn
                have hlen4 := (hn p (by simp)).1
                refine h₁.neat_splice [p] h₂ (hput.outside.mono le_rfl (by omega)) hn
                  (neat_singleton.mpr ?_)
                rw [hlen, hput.nl]
                exact ⟨hlen4, fun _ => h255⟩
            · -- a used record with room behind its name is cut in two
              rw [if_neg hfree] at hused
              obtain ⟨buf1, w5, h8, h9⟩ := bind_ok.mp h7
              obtain ⟨-, -, hfit, rfl, rfl⟩ := store_ok.mp h8
              obtain ⟨buf, w6, h10, h11⟩ := bind_ok.mp h9
              obtain ⟨rfl, -, -, hput⟩ := putEntry_ok h10
              obtain ⟨_, w7, h12, h13⟩ := bind_ok.mp h11
              obtain ⟨rfl, rfl⟩ := pure_ok.mp h13
              simp only [Int.toNat_natCast] at hput
              have halign := align4_ge (8 + v.recNl m p)
              obtain ⟨hmid, hmide, hout, hmidn⟩ := hput.cut hok hfree hname hino (by omega)
                (by exact_mod_cast hfit) (by omega)
              obtain ⟨ht, he⟩ := h₁.splice h₂ hout hmid
              obtain ⟨m', hset, hm', hneat⟩ := writeBlock_records h12 hblk ht
              refine .inr ⟨rfl, m', hset, ⟨entriesAt v.toFs m os₁ ++ [v.recEntry m p],
                entriesAt v.toFs m os₂, ?_, ?_⟩, fun hn h255 => hneat ?_⟩
              · rw [hwhole.blockEntries, entriesAt_append, entriesAt_cons, if_pos hfree,
                  List.append_assoc]
              · rw [hm', he, hmide]
                simp
              · have hn := hwhole.neatBlock.mp hn
                have hp := neat_singleton.mpr (hn p (by simp))
                refine h₁.neat_splice [p] h₂ hout hn (hmidn hp ?_ h255)
                rw [hused]
                exact align4_dvd _
            · have hnext : Tiled v.toFs m 0 (p + recLen m p) (os₁ ++ [p]) :=
                tiled_append.mpr ⟨p, h₁, rfl, hok, rfl⟩
              exact ih h7 hnext h₂
      · obtain ⟨rfl, rfl⟩ := pure_ok.mp h
        exact .inl ⟨rfl, rfl⟩

/-- A change of one block of a list without duplicates, in what is made of all of them. -/
theorem flatMap_setBlock {blks pre post : List Nat} {b : Nat} (get : Nat → Bytes) (m : Bytes)
    (f : Bytes → List Entry) (hsplit : blks = pre ++ b :: post) (hnodup : blks.Nodup) :
    blks.flatMap (fun c => f (get c)) =
        pre.flatMap (fun c => f (get c)) ++ f (get b) ++ post.flatMap (fun c => f (get c)) ∧
      blks.flatMap (fun c => f (Function.update get b m c)) =
        pre.flatMap (fun c => f (get c)) ++ f m ++ post.flatMap (fun c => f (get c)) := by
  subst hsplit
  obtain ⟨hpre, hpost⟩ : b ∉ pre ∧ b ∉ post := by
    have h := List.nodup_append.mp hnodup
    exact ⟨fun hb => h.2.2 b hb b List.mem_cons_self rfl, (List.nodup_cons.mp h.2.1).1⟩
  have hsame : ∀ l : List Nat, b ∉ l →
      l.flatMap (fun c => f (Function.update get b m c)) = l.flatMap fun c => f (get c) := by
    intro l hl
    rw [List.flatMap_def, List.flatMap_def]
    congr 1
    apply List.map_congr_left
    intro c hc
    have hne : c ≠ b := by
      rintro rfl
      exact hl hc
    rw [Function.update_of_ne hne]
  constructor
  · rw [List.flatMap_append, List.flatMap_cons, List.append_assoc]
  · rw [List.flatMap_append, List.flatMap_cons, hsame pre hpre, hsame post hpost,
      Function.update_self, List.append_assoc]

theorem addInBlocks_ok {name path : Str} {ino need : Nat} {t : FileType} {blks : List Nat}
    {r : Bool} {w w' : World}
    (h : addInBlocks v.toFs name ino t path need blks w = .ok r w')
    (hneed : 8 + nameBytes name ≤ need) (hname : 1 ≤ nameBytes name) (hino : ino ≠ 0)
    (hdata : ∀ b ∈ blks, v.kind b = .data)
    (hdir : ∀ b ∈ blks, DirBlock v.toFs ((v.view w.disk).block b)) :
    (r = false ∧ w'.disk = w.disk) ∨ (r = true ∧ ∃ b ∈ blks, ∃ m,
      BlockSet v (v.view w.disk) (v.view w'.disk) b m ∧ Inserted (v.newEntry name ino t)
        (blockEntries v.toFs ((v.view w.disk).block b)) (blockEntries v.toFs m) ∧
      (NeatBlock v.toFs ((v.view w.disk).block b) → nameBytes name ≤ 255 → NeatBlock v.toFs m)) := by
  induction blks generalizing w with
  | nil =>
      obtain ⟨rfl, rfl⟩ := pure_ok.mp h
      exact .inl ⟨rfl, rfl⟩
  | cons blk blks ih =>
      obtain ⟨buf, w1, h1, h⟩ := bind_ok.mp h
      obtain ⟨hw1, rfl⟩ := readBlock_data h1 (hdata blk List.mem_cons_self)
      obtain ⟨done, w2, h2, h3⟩ := bind_ok.mp h
      have hstart : Tiled v.toFs ((v.view w.disk).block blk) 0 0 [] := rfl
      have hadd := addInBlock_ok h2 hneed hname hino (hdata blk List.mem_cons_self) hstart
        (hdir blk List.mem_cons_self)
      rcases hadd with ⟨rfl, rfl⟩ | ⟨rfl, m, hset, hins⟩
      · rw [if_neg (by simp)] at h3
        rcases ih h3 (fun b hb => hdata b (List.mem_cons_of_mem _ hb))
          (fun b hb => by rw [hw1]; exact hdir b (List.mem_cons_of_mem _ hb)) with
          ⟨rfl, hw'⟩ | ⟨rfl, b, hb, hrest⟩
        · exact .inl ⟨rfl, hw'.trans hw1⟩
        · rw [hw1] at hrest
          exact .inr ⟨rfl, b, List.mem_cons_of_mem _ hb, hrest⟩
      · rw [if_pos rfl] at h3
        obtain ⟨rfl, rfl⟩ := pure_ok.mp h3
        rw [hw1] at hset
        exact .inr ⟨rfl, blk, List.mem_cons_self, m, hset, hins⟩

/-! ### Removing -/

theorem recordName_ok {m : Bytes} {o c : Nat} {r : Option Str} {w w' : World}
    (h : recordName v.toFs ⟨c, m⟩ o (recIno m o) w = .ok r w') :
    w = w' ∧ r = if recIno m o ≠ 0 then v.recName m o else none := by
  unfold recordName at h
  split_ifs at h ⊢
  · obtain ⟨nl, w1, h1, h⟩ := bind_ok.mp h
    obtain ⟨rfl, rfl⟩ := nameLen_ok h1
    obtain ⟨b, w2, h2, h3⟩ := bind_ok.mp h
    obtain ⟨-, rfl, rfl⟩ := slice_ok.mp h2
    obtain ⟨rfl, rfl⟩ := pure_ok.mp h3
    exact ⟨rfl, rfl⟩
  · obtain ⟨rfl, rfl⟩ := pure_ok.mp h
    exact ⟨rfl, rfl⟩

/-- A record made longer keeps its entry. -/
theorem grow_record {m : Bytes} {p n : Nat} (hok : RecOk v.toFs m p) (hn : recLen m p ≤ n)
    (hfit : n < 256 ^ 2) : Tiled v.toFs (storeLE m 2 (p + 4) n) p (p + n) [p] ∧
      entriesAt v.toFs (storeLE m 2 (p + 4) n) [p] = entriesAt v.toFs m [p] ∧
      (Neat v.toFs m [p] → 4 ∣ n → Neat v.toFs (storeLE m 2 (p + 4) n) [p]) := by
  have hlen : recLen (storeLE m 2 (p + 4) n) p = n := loadLE_storeLE_of_lt hfit
  have hino : recIno (storeLE m 2 (p + 4) n) p = recIno m p :=
    loadLE_storeLE_of_disjoint (by omega)
  have hnl : v.recNl (storeLE m 2 (p + 4) n) p = v.recNl m p := by
    unfold Fs.recNl
    rw [loadLE_storeLE_of_disjoint (by omega), loadLE_storeLE_of_disjoint (by omega)]
  have htype : v.recType (storeLE m 2 (p + 4) n) p = v.recType m p := by
    unfold Fs.recType
    rw [loadLE_storeLE_of_disjoint (by omega)]
  have hentry : v.recEntry (storeLE m 2 (p + 4) n) p = v.recEntry m p := by
    unfold Fs.recEntry Fs.recName
    rw [hnl, hino, htype, window_congr (agreeOn_storeLE (by omega))]
  have hle := hok.le
  refine ⟨⟨rfl, ⟨by rw [hlen]; omega, fun hused => ?_⟩, by rw [hlen]; rfl⟩, ?_, fun hn hdvd => ?_⟩
  · rw [hino] at hused
    have := hok.used hused
    rw [hnl, hlen]
    omega
  · rw [entriesAt_cons, entriesAt_cons, hino, hentry]
    rfl
  · refine neat_singleton.mpr ?_
    rw [hlen, hino, hnl]
    exact ⟨hdvd, (neat_singleton.mp hn).2⟩

theorem removeInBlock_ok {name : Str} {blk fuel o : Nat} {m : Bytes} {os₁ os₂ : List Nat}
    {r : Bool} {w w' : World}
    (h : removeInBlock v.toFs name blk ⟨v.blockSize, m⟩ fuel o os₁.getLast? w = .ok r w')
    (hblk : v.kind blk = .data) (h₁ : Tiled v.toFs m 0 o os₁)
    (h₂ : Tiled v.toFs m o v.blockSize os₂) (hfirst : ∀ e ∈ entriesAt v.toFs m os₁, e.name ≠ some name) :
    (r = false ∧ w = w' ∧ ∀ e ∈ blockEntries v.toFs m, e.name ≠ some name) ∨
      (r = true ∧ ∃ m' e, BlockSet v (v.view w.disk) (v.view w'.disk) blk m' ∧
        Removed name e (blockEntries v.toFs m) (blockEntries v.toFs m') ∧
        (NeatBlock v.toFs m → NeatBlock v.toFs m')) := by
  have hbs := v.bs_pos
  induction fuel generalizing o os₁ os₂ with
  | zero => exact absurd h throw_ok
  | succ fuel ih =>
      unfold removeInBlock at h
      split_ifs at h with ho
      · cases os₂ with
        | nil =>
            have : o = v.blockSize := h₂
            omega
        | cons p os₂ =>
            have hwhole : Tiled v.toFs m 0 v.blockSize (os₁ ++ p :: os₂) :=
              tiled_append.mpr ⟨o, h₁, h₂⟩
            obtain ⟨rfl, hok, h₂⟩ := h₂
            obtain ⟨e, w1, h3, h⟩ := bind_ok.mp h
            obtain ⟨-, he, rfl⟩ := load_ok.mp h3
            obtain rfl : e = recIno m p := he
            obtain ⟨len, w2, h4, h⟩ := bind_ok.mp h
            obtain ⟨-, hl, rfl⟩ := load_ok.mp h4
            obtain rfl : len = recLen m p := hl
            obtain ⟨nm, w3, h5, h6⟩ := bind_ok.mp h
            obtain ⟨rfl, hnm⟩ := recordName_ok h5
            split_ifs at h6 with hfound
            · -- the record found
              have hused : recIno m p ≠ 0 := by
                intro h0
                rw [if_neg (not_not.mpr h0), hfound] at hnm
                cases hnm
              rw [if_pos hused, hfound] at hnm
              have hnm : (v.recEntry m p).name = some name := hnm.symm
              have hold : blockEntries v.toFs m = entriesAt v.toFs m os₁ ++
                  v.recEntry m p :: entriesAt v.toFs m os₂ := by
                rw [hwhole.blockEntries, entriesAt_append, entriesAt_cons, if_pos hused]
                rfl
              have hend := h₂.le
              rcases List.eq_nil_or_concat' os₁ with rfl | ⟨os₀, q, rfl⟩
              · have hp : 0 = p := h₁
                subst hp
                obtain ⟨buf, w4, h7, h8⟩ := bind_ok.mp h6
                obtain ⟨-, -, -, rfl, rfl⟩ := store_ok.mp h7
                obtain ⟨_, w5, h9, h10⟩ := bind_ok.mp h8
                obtain ⟨rfl, rfl⟩ := pure_ok.mp h10
                have hino : recIno (storeLE m 4 0 (0 : Int).toNat) 0 = 0 :=
                  loadLE_storeLE_of_lt (by decide)
                have hlen : recLen (storeLE m 4 0 (0 : Int).toNat) 0 = recLen m 0 :=
                  loadLE_storeLE_of_disjoint (by omega)
                have hle := hok.le
                have hmid : Tiled v.toFs (storeLE m 4 0 (0 : Int).toNat) 0 (0 + recLen m 0) [0] :=
                  ⟨rfl, ⟨by rw [hlen]; exact hle, fun h => absurd hino h⟩, by rw [hlen]; rfl⟩
                obtain ⟨ht, he⟩ := h₁.splice h₂ (agreeOutside_storeLE le_rfl (by omega)) hmid
                obtain ⟨m', hset, hm', hneat⟩ := writeBlock_records h9 hblk ht
                refine .inr ⟨rfl, m', v.recEntry m 0, hset, ⟨_, _, hold, ?_, hnm, hfirst⟩,
                  fun hn => hneat ?_⟩
                · rw [hm', he, entriesAt_cons, if_neg (not_not.mpr hino)]
                  rfl
                · have hn := hwhole.neatBlock.mp hn
                  refine h₁.neat_splice [0] h₂ (agreeOutside_storeLE le_rfl (by omega)) hn
                    (neat_singleton.mpr ?_)
                  rw [hlen]
                  exact ⟨(hn 0 (by simp)).1, fun hne => absurd hino hne⟩
              · rw [List.getLast?_concat] at h6
                obtain ⟨k, h₀, rfl, hokq, hkq⟩ := tiled_append.mp h₁
                have hkq : q + recLen m q = p := hkq
                subst hkq
                obtain ⟨buf, w4, h7, h8⟩ := bind_ok.mp h6
                obtain ⟨-, -, hfit, rfl, rfl⟩ := addField_ok.mp h7
                rw [show loadLE m 2 (q + 4) = recLen m q from rfl] at hfit
                obtain ⟨_, w5, h9, h10⟩ := bind_ok.mp h8
                obtain ⟨rfl, rfl⟩ := pure_ok.mp h10
                have hsum : (((loadLE m 2 (q + 4) : Nat) : Int) +
                    (recLen m (q + recLen m q) : Nat)).toNat =
                      recLen m q + recLen m (q + recLen m q) := by
                  rw [← Nat.cast_add, Int.toNat_natCast]
                  rfl
                simp only [hsum] at h9
                obtain ⟨hmid, hmide, hmidn⟩ := grow_record hokq
                  (n := recLen m q + recLen m (q + recLen m q)) (by omega)
                  (by push_cast at hfit; omega)
                have hle := hok.le
                have hleq := hokq.le
                rw [← Nat.add_assoc] at hmid
                obtain ⟨ht, he⟩ := h₀.splice h₂ (agreeOutside_storeLE (by omega) (by omega)) hmid
                obtain ⟨m', hset, hm', hneat⟩ := writeBlock_records h9 hblk ht
                refine .inr ⟨rfl, m', v.recEntry m (q + recLen m q), hset, ⟨_, _, hold, ?_, hnm,
                  hfirst⟩, fun hn => hneat ?_⟩
                · rw [hm', he, hmide, entriesAt_append, List.append_assoc]
                · have hn := hwhole.neatBlock.mp hn
                  have hq := hn q (by simp)
                  have hp := hn (q + recLen m q) (by simp)
                  rw [List.append_assoc] at hn
                  refine h₀.neat_splice [q, q + recLen m q] h₂
                    (agreeOutside_storeLE (by omega) (by omega)) hn
                    (hmidn (neat_singleton.mpr hq) (Nat.dvd_add hq.1 hp.1))
            · have hnext : Tiled v.toFs m 0 (p + recLen m p) (os₁ ++ [p]) :=
                tiled_append.mpr ⟨p, h₁, rfl, hok, rfl⟩
              have hlast : (os₁ ++ [p]).getLast? = some p := by simp
              rw [← hlast] at h6
              refine ih h6 hnext h₂ ?_
              intro e he
              rw [entriesAt_append, entriesAt_cons, List.mem_append] at he
              rcases he with he | he
              · exact hfirst e he
              · by_cases hused : recIno m p ≠ 0
                · rw [if_pos hused] at he hnm
                  obtain rfl : e = v.recEntry m p := by simpa [entriesAt] using he
                  rw [hnm] at hfound
                  exact hfound
                · rw [if_neg hused] at he
                  simp [entriesAt] at he
      · have ho : o = v.blockSize := by
          have := h₂.le
          omega
        subst ho
        obtain ⟨rfl, rfl⟩ := pure_ok.mp h
        exact .inl ⟨rfl, rfl, by rwa [h₁.blockEntries]⟩

theorem removeInBlocks_ok {name : Str} {blks : List Nat} {r : Bool} {w w' : World}
    (h : removeInBlocks v.toFs name blks w = .ok r w') (hdata : ∀ b ∈ blks, v.kind b = .data)
    (hdir : ∀ b ∈ blks, DirBlock v.toFs ((v.view w.disk).block b)) :
    (r = false ∧ w'.disk = w.disk ∧ ∀ b ∈ blks,
      ∀ e ∈ blockEntries v.toFs ((v.view w.disk).block b), e.name ≠ some name) ∨
    (r = true ∧ ∃ pre b post m e, blks = pre ++ b :: post ∧
      BlockSet v (v.view w.disk) (v.view w'.disk) b m ∧
      (Removed name e (blockEntries v.toFs ((v.view w.disk).block b)) (blockEntries v.toFs m) ∧
        (NeatBlock v.toFs ((v.view w.disk).block b) → NeatBlock v.toFs m)) ∧
      ∀ c ∈ pre, ∀ e' ∈ blockEntries v.toFs ((v.view w.disk).block c), e'.name ≠ some name) := by
  induction blks generalizing w with
  | nil =>
      obtain ⟨rfl, rfl⟩ := pure_ok.mp h
      exact .inl ⟨rfl, rfl, nofun⟩
  | cons blk blks ih =>
      obtain ⟨buf, w1, h1, h⟩ := bind_ok.mp h
      obtain ⟨hw1, rfl⟩ := readBlock_data h1 (hdata blk List.mem_cons_self)
      obtain ⟨found, w2, h2, h3⟩ := bind_ok.mp h
      have hstart : Tiled v.toFs ((v.view w.disk).block blk) 0 0 [] := rfl
      rcases removeInBlock_ok h2 (hdata blk List.mem_cons_self) hstart
        (hdir blk List.mem_cons_self) nofun with ⟨rfl, rfl, hnone⟩ | ⟨rfl, m, e, hset, hrem⟩
      · rw [if_neg (by simp)] at h3
        rcases ih h3 (fun b hb => hdata b (List.mem_cons_of_mem _ hb))
          (fun b hb => by rw [hw1]; exact hdir b (List.mem_cons_of_mem _ hb)) with
          ⟨rfl, hw', hrest⟩ | ⟨rfl, pre, b, post, m, e, rfl, hset, hrem, hpre⟩
        · rw [hw1] at hrest
          refine .inl ⟨rfl, hw'.trans hw1, fun b hb => ?_⟩
          rcases List.mem_cons.mp hb with rfl | hb
          · exact hnone
          · exact hrest b hb
        · rw [hw1] at hset hrem hpre
          refine .inr ⟨rfl, blk :: pre, b, post, m, e, rfl, hset, hrem, fun c hc => ?_⟩
          rcases List.mem_cons.mp hc with rfl | hc
          · exact hnone
          · exact hpre c hc
      · rw [if_pos rfl] at h3
        obtain ⟨rfl, rfl⟩ := pure_ok.mp h3
        rw [hw1] at hset
        exact .inr ⟨rfl, [], blk, blks, m, e, rfl, hset, hrem, nofun⟩

end Beeros.Ext2
