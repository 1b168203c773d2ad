import Beeros.Ext2Build

/-! Directories. A directory block is tiled by records; the records that name an inode are its
entries. `dir-entries` reads the entries of the blocks in order, `add-entry!` puts one between them and
`remove-entry!` takes the first one of its name away. -/

namespace Beeros.Ext2

open Memory Exec

/-! ### Records -/

def recIno (m : Bytes) (o : Nat) : Nat := loadLE m 4 o

def recLen (m : Bytes) (o : Nat) : Nat := loadLE m 2 (o + 4)

namespace Fs

variable (fs : Fs) (m : Bytes) (o : Nat)

def recNl : Nat := if fs.filetype then loadLE m 1 (o + 6) else loadLE m 2 (o + 6)

def recName : Option Str := Buf.toString ⟨fs.recNl m o, window m (o + 8) (fs.recNl m o)⟩

def recType : Option FileType := if fs.filetype then some (ftType (loadLE m 1 (o + 7))) else none

def recEntry : Entry := ⟨fs.recName m o, recIno m o, fs.recType m o⟩

end Fs

/-- A record has room for its header, and for its name if it is used. -/
structure RecOk (fs : Fs) (m : Bytes) (o : Nat) : Prop where
  le : 8 ≤ recLen m o
  used : recIno m o ≠ 0 → 1 ≤ fs.recNl m o ∧ 8 + fs.recNl m o ≤ recLen m o

instance (fs : Fs) (m : Bytes) (o : Nat) : Decidable (RecOk fs m o) :=
  decidable_of_iff (8 ≤ recLen m o ∧
    (recIno m o ≠ 0 → 1 ≤ fs.recNl m o ∧ 8 + fs.recNl m o ≤ recLen m o))
    ⟨fun h => ⟨h.1, h.2⟩, fun h => ⟨h.1, h.2⟩⟩

/-- The records at the offsets `os` follow each other from `o` to `e`. -/
def Tiled (fs : Fs) (m : Bytes) : Nat → Nat → List Nat → Prop
  | o, e, [] => o = e
  | o, e, p :: os => p = o ∧ RecOk fs m o ∧ Tiled fs m (o + recLen m o) e os

/-- The entries among the records at `os`. -/
def entriesAt (fs : Fs) (m : Bytes) (os : List Nat) : List Entry :=
  (os.filter fun o => recIno m o ≠ 0).map (fs.recEntry m)

/-- The offsets of the records from `o`. -/
def records (bs : Nat) (m : Bytes) : Nat → Nat → List Nat
  | 0, _ => []
  | fuel + 1, o => if o < bs then o :: records bs m fuel (o + recLen m o) else []

/-- The entries of a directory block. -/
def blockEntries (fs : Fs) (m : Bytes) : List Entry :=
  entriesAt fs m (records fs.blockSize m fs.blockSize 0)

def DirBlock (fs : Fs) (m : Bytes) : Prop :=
  Tiled fs m 0 fs.blockSize (records fs.blockSize m fs.blockSize 0)

/-- Each record is aligned, and a used one has a name of at most 255 bytes. -/
def Neat (fs : Fs) (m : Bytes) (os : List Nat) : Prop :=
  ∀ o ∈ os, 4 ∣ recLen m o ∧ (recIno m o ≠ 0 → fs.recNl m o ≤ 255)

def NeatBlock (fs : Fs) (m : Bytes) : Prop := Neat fs m (records fs.blockSize m fs.blockSize 0)

instance (fs : Fs) (m : Bytes) : Decidable (NeatBlock fs m) :=
  inferInstanceAs (Decidable (∀ o ∈ records _ _ _ _, _))

section Tiled

variable {fs : Fs} {m m' : Bytes} {o e : Nat} {os os' : List Nat}

theorem Tiled.le (h : Tiled fs m o e os) : o ≤ e := by
  induction os generalizing o with
  | nil => exact le_of_eq h
  | cons p os ih =>
      obtain ⟨-, hok, h⟩ := h
      have := ih h
      omega

/-- Every record takes at least eight bytes. -/
theorem Tiled.length_le (h : Tiled fs m o e os) : o + 8 * os.length ≤ e := by
  induction os generalizing o with
  | nil =>
      have : o = e := h
      simp [this]
  | cons p os ih =>
      obtain ⟨-, hok, h⟩ := h
      have h1 := ih h
      have h2 := hok.le
      rw [List.length_cons]
      omega

theorem tiled_append : Tiled fs m o e (os ++ os') ↔
    ∃ k, Tiled fs m o k os ∧ Tiled fs m k e os' := by
  induction os generalizing o with
  | nil => simp [Tiled]
  | cons p os ih =>
      simp only [List.cons_append, Tiled, ih]
      constructor
      · rintro ⟨hp, hok, k, h1, h2⟩
        exact ⟨k, ⟨hp, hok, h1⟩, h2⟩
      · rintro ⟨k, ⟨hp, hok, h1⟩, h2⟩
        exact ⟨hp, hok, k, h1, h2⟩

theorem entriesAt_append : entriesAt fs m (os ++ os') = entriesAt fs m os ++ entriesAt fs m os' := by
  unfold entriesAt
  rw [List.filter_append, List.map_append]

theorem entriesAt_cons {p : Nat} : entriesAt fs m (p :: os) =
    (if recIno m p ≠ 0 then [fs.recEntry m p] else []) ++ entriesAt fs m os := by
  unfold entriesAt
  rw [List.filter_cons]
  split_ifs with h h' h'
  · rfl
  · simp_all
  · simp_all
  · rfl

/-- The tiling determines the offsets. -/
theorem Tiled.records_eq (h : Tiled fs m o e os) {fuel : Nat} (hfuel : os.length ≤ fuel) :
    records e m fuel o = os := by
  induction os generalizing o fuel with
  | nil =>
      have : o = e := h
      cases fuel with
      | zero => rfl
      | succ fuel => rw [records, if_neg (by omega)]
  | cons p os ih =>
      have hle := h.length_le
      obtain ⟨rfl, hok, h⟩ := h
      rw [List.length_cons] at hfuel hle
      cases fuel with
      | zero => omega
      | succ fuel => rw [records, if_pos (by omega), ih h (by omega)]

theorem Tiled.dirBlock (h : Tiled fs m 0 fs.blockSize os) : DirBlock fs m := by
  have hle := h.length_le
  unfold DirBlock
  rw [h.records_eq (by omega)]
  exact h

theorem Tiled.blockEntries (h : Tiled fs m 0 fs.blockSize os) :
    blockEntries fs m = entriesAt fs m os := by
  have hle := h.length_le
  unfold Ext2.blockEntries
  rw [h.records_eq (by omega)]

theorem Tiled.neatBlock (h : Tiled fs m 0 fs.blockSize os) : NeatBlock fs m ↔ Neat fs m os := by
  have hle := h.length_le
  unfold NeatBlock
  rw [h.records_eq (by omega)]

theorem neat_append : Neat fs m (os ++ os') ↔ Neat fs m os ∧ Neat fs m os' := List.forall_mem_append

/-- The fields of a record's header depend on its eight bytes only. -/
theorem header_congr (f : Fs) (h : AgreeOn m m' o 8) : recIno m' o = recIno m o ∧
    recLen m' o = recLen m o ∧ f.recNl m' o = f.recNl m o ∧ f.recType m' o = f.recType m o := by
  refine ⟨loadLE_congr (h.mono le_rfl (by omega)), loadLE_congr (h.mono (by omega) (by omega)),
    ?_, ?_⟩
  · unfold Fs.recNl
    rw [loadLE_congr (h.mono (by omega) (by omega)), loadLE_congr (h.mono (by omega) (by omega))]
  · unfold Fs.recType
    rw [loadLE_congr (h.mono (by omega) (by omega))]

theorem recEntry_congr (f : Fs) {n : Nat} (h : AgreeOn m m' o n) (hn : 8 + f.recNl m o ≤ n) :
    f.recEntry m' o = f.recEntry m o := by
  obtain ⟨hino, -, hnl, htype⟩ := header_congr f (h.mono le_rfl (by omega))
  unfold Fs.recEntry Fs.recName
  rw [hino, htype, hnl, window_congr (h.mono (by omega) (by omega))]

theorem Tiled.congr (h : Tiled fs m o e os) (ha : AgreeOn m m' o (e - o)) :
    Tiled fs m' o e os ∧ entriesAt fs m' os = entriesAt fs m os := by
  induction os generalizing o with
  | nil => exact ⟨h, rfl⟩
  | cons p os ih =>
      obtain ⟨rfl, hok, h⟩ := h
      have hle := h.le
      have hlen := hok.le
      have hrec : AgreeOn m m' p (recLen m p) := ha.mono le_rfl (by omega)
      obtain ⟨hino, hl, hnl, -⟩ := header_congr fs (hrec.mono le_rfl (by omega))
      obtain ⟨ht, he⟩ := ih h (ha.mono (by omega) (by omega))
      refine ⟨⟨rfl, ⟨by rwa [hl], ?_⟩, by rwa [hl]⟩, ?_⟩
      · rw [hino, hnl, hl]
        exact hok.used
      · rw [entriesAt_cons, entriesAt_cons, he, hino]
        congr 1
        split_ifs with hused
        · rw [recEntry_congr fs hrec (hok.used hused).2]
        · rfl

theorem Tiled.neat_congr (h : Tiled fs m o e os) (ha : AgreeOn m m' o (e - o)) (hn : Neat fs m os) :
    Neat fs m' os := by
  induction os generalizing o with
  | nil => exact List.forall_mem_nil _
  | cons p os ih =>
      obtain ⟨rfl, hok, h⟩ := h
      have hle := h.le
      have hlen := hok.le
      obtain ⟨hino, hl, hnl, -⟩ := header_congr fs (ha.mono le_rfl (show p + 8 ≤ p + (e - p) by omega))
      obtain ⟨hp, hos⟩ := List.forall_mem_cons.mp hn
      refine List.forall_mem_cons.mpr ⟨?_, ih h (ha.mono (by omega) (by omega)) hos⟩
      rw [hino, hl, hnl]
      exact hp

end Tiled

/-! ### Reading a directory -/

variable {v : Volume} {d : Bytes}

theorem gives_nameLen {b : Buf} {o : Nat} (h : o + 8 ≤ b.capacity) :
    Gives (nameLen v.toFs b o) d (.ok (v.recNl b.bytes o)) := by
  unfold nameLen Fs.recNl
  split_ifs
  · exact gives_load (by omega)
  · exact gives_load (by omega)

/-- The loop of `dir-entries` from the record at `o` in block `k` of a directory. -/
theorem gives_entriesLoop {ms : List Bytes} {b : Buf} {p k o f : Nat} {os : List Nat}
    {m : Bytes} {a : List Entry} (hcap : b.capacity = ms.length * v.blockSize)
    (hb : ∀ k m, ms[k]? = some m → AgreeOn m (fun i => b.bytes (k * v.blockSize + i)) 0 v.blockSize)
    (hms : ∀ m ∈ ms, DirBlock v.toFs m) (hk : ms[k]? = some m)
    (ht : Tiled v.toFs m o v.blockSize os) (hos : os ≠ [])
    (hfuel : ms.length * v.blockSize < k * v.blockSize + o + f) :
    Gives (entriesLoop v.toFs p b (ms.length * v.blockSize) f (k * v.blockSize + o) a) d
      (.ok (a ++ (entriesAt v.toFs m os ++ (ms.drop (k + 1)).flatMap (blockEntries v.toFs)))) := by
  have hbs := v.bs_pos
  induction f generalizing k o os m a with
  | zero =>
      exfalso
      cases os with
      | nil => exact hos rfl
      | cons q os =>
          obtain ⟨-, hok, ht⟩ := ht
          have := ht.le
          have := hok.le
          have hlt := (List.getElem?_eq_some_iff.mp hk).1
          have := Nat.mul_le_mul_right v.blockSize hlt
          rw [Nat.succ_mul] at this
          omega
  | succ f ih =>
      cases os with
      | nil => exact absurd rfl hos
      | cons q os =>
          obtain ⟨rfl, hok, ht⟩ := ht
          have hle := ht.le
          have hlen := hok.le
          have hlt := (List.getElem?_eq_some_iff.mp hk).1
          have hin := Nat.mul_le_mul_right v.blockSize hlt
          rw [Nat.succ_mul] at hin
          -- the record's fields in the whole buffer are those in its block
          have hagree : ∀ j n, j + n ≤ v.blockSize →
              loadLE b.bytes n (k * v.blockSize + j) = loadLE m n j := by
            intro j n hj
            have hshift : loadLE (fun i => b.bytes (k * v.blockSize + i)) n j =
                loadLE b.bytes n (k * v.blockSize + j) := by
              rw [← loadLE_window (a := k * v.blockSize) (n := j + n) le_rfl]
              refine loadLE_congr fun i hi hi' => ?_
              exact (window_apply (by omega)).symm
            rw [← hshift]
            exact loadLE_congr ((hb k m hk).mono (by omega) (by omega))
          have hnext : ∀ a', Gives (entriesLoop v.toFs p b (ms.length * v.blockSize) f
              (k * v.blockSize + q + recLen m q) a') d (.ok (a' ++ (entriesAt v.toFs m os ++
                (ms.drop (k + 1)).flatMap (blockEntries v.toFs)))) := by
            intro a'
            cases os with
            | nil =>
                have hend : q + recLen m q = v.blockSize := ht
                by_cases hlast : k + 1 < ms.length
                · have hnext : ms[k + 1]? = some ms[k + 1] := List.getElem?_eq_getElem hlast
                  have hdir := hms _ (List.getElem_mem hlast)
                  have hne : records v.blockSize ms[k + 1] v.blockSize 0 ≠ [] := by
                    intro hnil
                    unfold DirBlock at hdir
                    rw [hnil] at hdir
                    have : 0 = v.blockSize := hdir
                    omega
                  have haddr : k * v.blockSize + q + recLen m q = (k + 1) * v.blockSize + 0 := by
                    rw [Nat.succ_mul]
                    omega
                  rw [haddr]
                  refine (ih hnext hdir hne (by rw [Nat.succ_mul]; omega)).to ?_
                  rw [List.drop_eq_getElem_cons hlast, List.flatMap_cons]
                  rfl
                · have hall : ms.length = k + 1 := by omega
                  rw [List.drop_of_length_le (by omega), List.flatMap_nil, List.append_nil]
                  have hsize : ms.length * v.blockSize = k * v.blockSize + q + recLen m q := by
                    rw [hall, Nat.succ_mul]
                    omega
                  obtain ⟨n, rfl⟩ := Nat.exists_eq_succ_of_ne_zero (show f ≠ 0 by omega)
                  unfold entriesLoop
                  rw [if_pos (by omega)]
                  exact (gives_pure _).to (List.append_nil _).symm
            | cons q' os =>
                rw [Nat.add_assoc]
                exact ih hk ht (by simp) (by omega)
          unfold entriesLoop
          by_cases hstop : k * v.blockSize + q + 8 ≥ ms.length * v.blockSize
          · -- the last eight bytes are an unused record
            rw [if_pos hstop]
            have hlen8 : recLen m q = 8 := by omega
            have hunused : recIno m q = 0 := by
              by_contra hne
              have := hok.used hne
              omega
            have hos' : os = [] := by
              have := ht.length_le
              exact List.eq_nil_of_length_eq_zero (by omega)
            subst hos'
            have hall : ms.length = k + 1 := by
              by_contra hne
              have := Nat.mul_le_mul_right v.blockSize (show k + 2 ≤ ms.length by omega)
              rw [Nat.add_mul] at this
              omega
            rw [entriesAt_cons, if_neg (by simpa using hunused), List.drop_of_length_le (by omega)]
            refine (gives_pure a).to ?_
            simp [entriesAt]
          · rw [if_neg hstop]
            have hino : loadLE b.bytes 4 (k * v.blockSize + q) = recIno m q := hagree q 4 (by omega)
            have hlen' : loadLE b.bytes 2 (k * v.blockSize + q + 4) = recLen m q := by
              rw [Nat.add_assoc]
              exact hagree (q + 4) 2 (by omega)
            have hnl : v.recNl b.bytes (k * v.blockSize + q) = v.recNl m q := by
              unfold Fs.recNl
              rw [Nat.add_assoc, hagree _ 1 (by omega), hagree _ 2 (by omega)]
            refine (gives_load (by omega)).bind ((gives_load (by omega)).bind
              ((gives_nameLen (by omega)).bind ((gives_failWhen (by rw [hlen']; omega)).bind ?_)))
            rw [hino, hlen', hnl, entriesAt_cons]
            by_cases hused : recIno m q = 0
            · rw [if_pos hused, if_neg (by simpa using hused), List.nil_append]
              exact hnext a
            · rw [if_neg hused, if_pos hused]
              have hroom := (hok.used hused).2
              refine (gives_slice (by omega)).bind ?_
              have hname : Buf.toString ⟨v.recNl m q, window b.bytes (k * v.blockSize + q + 8)
                  (v.recNl m q)⟩ = v.recName m q := by
                have hwin : window b.bytes (k * v.blockSize + q + 8) (v.recNl m q) =
                    window m (q + 8) (v.recNl m q) := by
                  funext i
                  unfold window
                  split_ifs with hi
                  · have := hb k m hk (q + 8 + i) (by omega) (by omega)
                    rw [← this]
                    congr 1
                    omega
                  · rfl
                rw [hwin]
                rfl
              rw [hname, List.append_assoc, ← List.append_assoc a]
              split_ifs with hft
              · refine (gives_load (by omega)).bind ?_
                rw [Nat.add_assoc _ q 7, hagree (q + 7) 1 (by omega)]
                have he : (⟨v.recName m q, recIno m q, some (ftType (loadLE m 1 (q + 7)))⟩ : Entry) =
                    v.recEntry m q := by
                  unfold Fs.recEntry Fs.recType
                  rw [if_pos hft]
                rw [he]
                exact hnext _
              · have he : (⟨v.recName m q, recIno m q, none⟩ : Entry) = v.recEntry m q := by
                  unfold Fs.recEntry Fs.recType
                  rw [if_neg hft]
                rw [he]
                exact hnext _

/-- The entries of a directory: those of its blocks. -/
def Inode.entries (fs : Fs) (get : Nat → Bytes) (i : Inode) : List Entry :=
  (i.blocksIn fs get).flatMap fun b => blockEntries fs (get b)

/-- A directory that can be read: its blocks are data blocks without holes, each one tiled. -/
structure DirOk (v : Volume) (get : Nat → Bytes) (i : Inode) : Prop where
  indirect : ∀ b ∈ mapIndirects get v.ppb i.block, v.kind b = .data
  data : ∀ b ∈ i.blocksIn v.toFs get, v.kind b = .data
  size : i.size = (i.blocksIn v.toFs get).length * v.blockSize
  tiled : ∀ b ∈ i.blocksIn v.toFs get, DirBlock v.toFs (get b)

theorem contents_apply {i : Inode} {get : Nat → Bytes} {k j b : Nat}
    (hsize : i.size = (i.blocksIn v.toFs get).length * v.blockSize)
    (hb : (i.blocksIn v.toFs get)[k]? = some b) (hb0 : b ≠ 0) (hj : j < v.blockSize) :
    (i.contents v.toFs get).bytes (k * v.blockSize + j) = get b j := by
  have hlt := (List.getElem?_eq_some_iff.mp hb).1
  have hin := Nat.mul_le_mul_right v.blockSize hlt
  rw [Nat.succ_mul] at hin
  obtain ⟨hdiv, hmod⟩ := mul_add_div_mod (q := k) hj
  simp only [Inode.contents]
  rw [if_pos (by omega)]
  unfold blockByte
  rw [hdiv, hmod, List.getD_eq_getElem?_getD, hb, Option.getD_some]
  exact if_neg hb0

theorem gives_dirEntries {i : Inode} (h : DirOk v (v.view d).block i) :
    Gives (dirEntries v.toFs i) d (.ok (i.entries v.toFs (v.view d).block)) := by
  have hbs := v.bs_pos
  unfold dirEntries
  refine (gives_readInodeData h.indirect (fun b hb _ => h.data b hb) (le_of_eq h.size)).bind ?_
  have hmap : i.entries v.toFs (v.view d).block =
      ((i.blocksIn v.toFs (v.view d).block).map (v.view d).block).flatMap
        (blockEntries v.toFs) := by
    unfold Inode.entries
    rw [List.flatMap_map]
  have hlen : ((i.blocksIn v.toFs (v.view d).block).map (v.view d).block).length * v.blockSize =
      i.size := by
    rw [List.length_map, h.size]
  rw [hmap, ← hlen]
  generalize hms : (i.blocksIn v.toFs (v.view d).block).map (v.view d).block = ms at hlen
  have hget : ∀ (k : Nat) (m : Bytes), ms[k]? = some m → ∃ b, (i.blocksIn v.toFs (v.view d).block)[k]? = some b ∧
      (v.view d).block b = m := by
    intro k m hk
    rw [← hms, List.getElem?_map, Option.map_eq_some_iff] at hk
    exact hk
  cases ms with
  | nil =>
      rw [List.length_nil, Nat.zero_mul]
      exact gives_pure _
  | cons m ms =>
      have hdir : ∀ m' ∈ m :: ms, DirBlock v.toFs m' := by
        intro m' hm'
        rw [← hms] at hm'
        obtain ⟨b, hb, rfl⟩ := List.mem_map.mp hm'
        exact h.tiled b hb
      have htile := hdir m List.mem_cons_self
      have hne : records v.blockSize m v.blockSize 0 ≠ [] := by
        intro hnil
        unfold DirBlock at htile
        rw [hnil] at htile
        have : 0 = v.blockSize := htile
        omega
      have hbuf : ∀ (k : Nat) (m' : Bytes), (m :: ms)[k]? = some m' → AgreeOn m' (fun j =>
          (i.contents v.toFs (v.view d).block).bytes (k * v.blockSize + j)) 0 v.blockSize := by
        intro k m' hk j _ hj
        obtain ⟨b, hb, rfl⟩ := hget k m' hk
        have hdata := h.data b (List.mem_of_getElem? hb)
        exact contents_apply h.size hb
          (v.ne_zero_of_kind (by simp [hdata]) (by simp [hdata])) (by omega)
      have hloop := gives_entriesLoop (d := d) (p := i.ino) (k := 0) (o := 0)
        (b := i.contents v.toFs (v.view d).block) hlen.symm hbuf hdir rfl htile hne
        (f := (m :: ms).length * v.blockSize + 1) (a := []) (by omega)
      rw [Nat.zero_mul, Nat.zero_add, List.nil_append] at hloop
      exact hloop.to rfl

theorem gives_lookup {i : Inode} {name : Str} (h : DirOk v (v.view d).block i) :
    Gives (lookup v.toFs i name) d (.ok (findName name (i.entries v.toFs (v.view d).block))) := by
  unfold lookup
  exact (gives_dirEntries h).bind (gives_pure _)

end Beeros.Ext2
