import Beeros.Ext2Check
import Beeros.Ext2Paths

/-! The public operations on a well-accounted image: what `write-file!`, `mkdir!`, `symlink!` and `rm!`
leave when they return. -/

namespace Beeros.Ext2

open Memory Exec

variable {v : Volume} {x x' : Vol} {p : Nat} {w w' : World} {u : Unit} {δ : Nat → Int} {path nm : Str}

/-! ### The steps they share -/

theorem one_le_nameBytes (h : nm ≠ []) : 1 ≤ nameBytes nm := by
  obtain ⟨c, cs, rfl⟩ := List.exists_cons_of_ne_nil h
  unfold nameBytes Utf8.encode
  rw [List.flatMap_cons, List.length_append, String.length_utf8EncodeChar]
  have := c.utf8Size_pos
  omega

theorem writable_ok {fs : Fs} {op : Op} (h : writable fs op path w = .ok u w') : w = w' :=
  (failWhen_ok.mp h).2

theorem parentAndName_ok {r : Inode × Str} (h : parentAndName v.toFs path w = .ok r w')
    (hw : v.view w.disk = x) (hx : Accounted v x δ) : v.view w'.disk = x ∧
      ∃ p, x.parentOf v path = .ok (p, r.2) ∧ r.1 = x.node v.toFs p ∧
        v.inUse x p ∧ (x.node v.toFs p).type = .dir ∧ 1 ≤ nameBytes r.2 := by
  subst hw
  obtain ⟨hr, hw, -⟩ := (gives_parentOf hx).of_ok rfl h
  refine ⟨by rw [hw], ?_⟩
  cases hparent : (v.view w.disk).parentOf v path with
  | error e =>
      rw [hparent] at hr
      cases hr
  | ok q =>
      rw [hparent] at hr
      cases hr
      obtain ⟨hp, hd, hnm⟩ := hx.parentOf_ok hparent
      exact ⟨q.1, rfl, rfl, hp, hd, one_le_nameBytes (splitPath_ne_nil hnm)⟩

theorem lookup_ok {r : Option Nat} (h : lookup v.toFs (x.node v.toFs p) nm w = .ok r w')
    (hw : v.view w.disk = x) (hx : Accounted v x δ) (hp : v.inUse x p)
    (hd : (x.node v.toFs p).type = .dir) : r = x.find v p nm ∧ v.view w'.disk = x := by
  subst hw
  obtain ⟨hr, hw, -⟩ := (gives_find hx hp hd).of_ok rfl h
  exact ⟨(Except.ok.inj hr).symm, by rw [hw]⟩

theorem readInode_ok {i : Inode} (h : readInode v.toFs p w = .ok i w') (hw : v.view w.disk = x)
    (hp : v.IsInode p) : i = x.node v.toFs p ∧ v.view w'.disk = x := by
  subst hw
  obtain ⟨hi, hw, -⟩ := (gives_readInode hp).of_ok rfl h
  exact ⟨(Except.ok.inj hi).symm, by rw [hw]⟩

theorem shift_shift {i : Nat} {a b : Int} (h : a + b = 0) (j : Nat) :
    δ j = shift (shift δ i a) i b j := by
  unfold shift
  split_ifs <;> omega

/-! ### `rm!` -/

/-- A file with one link too many loses it, or goes with it. -/
theorem dropLink_ok {ino : Nat}
    (h : (if ((v.view w.disk).node v.toFs ino).links ≤ 1 then
        releaseInode v.toFs ((v.view w.disk).node v.toFs ino)
      else setLinks v.toFs ino ((((v.view w.disk).node v.toFs ino).links : Int) - 1)) w = .ok u w')
    (hx : Accounted v (v.view w.disk) (shift 0 ino 1)) (hino : v.inUse (v.view w.disk) ino)
    (ht : ((v.view w.disk).node v.toFs ino).type ≠ .dir) :
    Accounted v (v.view w'.disk) 0 ∧ Frame v (v.view w.disk) (v.view w'.disk) ino := by
  have hroot : ino ≠ rootIno := fun he => ht (he ▸ hx.root)
  split_ifs at h with hlinks
  · have hrow := table_of_inUse hino
    have hcount := hx.books.names.links ino _ hrow
    have hnames : (v.table (v.view w.disk)).names ino = [] := by
      rw [Table.names_of hrow]
      exact if_neg ht
    have hlast : nameCount v (v.table (v.view w.disk)) ino = 0 := by
      have : (((v.view w.disk).node v.toFs ino).links : Int) =
        nameCount v (v.table (v.view w.disk)) ino + (0 + if ino = ino then 1 else 0) := hcount
      rw [if_pos rfl] at this
      omega
    have hδ : ∀ i, i ≠ ino → (0 : Nat → Int) i =
        shift 0 ino 1 i + ((v.table (v.view w.disk)).names ino).count i := by
      intro i hi
      rw [hnames]
      simp [shift, hi]
    obtain ⟨hacc, hframe, -⟩ := releaseInode_ok h hx hino hroot (by rw [hlast, hnames]; rfl) hδ
    exact ⟨hacc, hframe⟩
  · obtain ⟨-, hu⟩ := setLinks_ok h hino.1
    have hn : ((((v.view w.disk).node v.toFs ino).links : Int) - 1).toNat ≠ 0 := by omega
    refine ⟨(hx.updated hino hu (.inr hn)).of_eq ?_, hu.frame⟩
    exact shift_shift (by omega)

/-- What a returning `rm!` has done. -/
theorem rm_ok (h : rm v.toFs path w = .ok u w') (hx : Accounted v (v.view w.disk) 0) :
    Accounted v (v.view w'.disk) 0 := by
  obtain ⟨x, hw⟩ : ∃ x, v.view w.disk = x := ⟨_, rfl⟩
  rw [hw] at hx
  unfold rm at h
  obtain ⟨_, w₀, hwritable, h⟩ := bind_ok.mp h
  cases writable_ok hwritable
  obtain ⟨⟨parent, nm⟩, w₁, hparent, h⟩ := bind_ok.mp h
  obtain ⟨hw₁, p, -, rfl, hp, hd, -⟩ := parentAndName_ok hparent hw hx
  obtain ⟨r, w₂, hlookup, h⟩ := bind_ok.mp h
  obtain ⟨rfl, hw₂⟩ := lookup_ok hlookup hw₁ hx hp hd
  cases hfind : x.find v p nm with
  | none =>
      rw [hfind] at h
      exact absurd h throw_ok
  | some ino =>
      rw [hfind] at h
      simp only at h
      have hino := hx.inUse_find hp hd hfind
      obtain ⟨i, w₃, hread, h⟩ := bind_ok.mp h
      obtain ⟨rfl, hw₃⟩ := readInode_ok hread hw₂ hino.1
      obtain ⟨_, w₄, htype, h⟩ := bind_ok.mp h
      obtain ⟨ht, rfl⟩ := failWhen_ok.mp htype
      obtain ⟨_, w₅, hrem, h⟩ := bind_ok.mp h
      obtain ⟨_, w₆, hdrop, hflush⟩ := bind_ok.mp h
      obtain ⟨e, hx₅, hframe, -, hremoved⟩ := removeEntry_ok hrem hw₃ hx hp hd
      cases hfind.symm.trans (findName_of_removed hremoved)
      have hne : e.ino ≠ p := fun he => ht (he ▸ hd)
      have hin := hframe.inode e.ino hne
      rw [← node_congr hin] at hdrop ht
      obtain ⟨hx₆, -⟩ := dropLink_ok hdrop hx₅ ((inUse_congr hin).mpr hino) ht
      rw [readOnly_flush.ok hflush]
      exact hx₆

/-! ### Making a new inode -/

theorem SameHead.type {i i' : Inode} (h : SameHead i i') : i'.type = i.type := by
  unfold Inode.type
  rw [h.1]

/-- `x'` has one inode more than `x`, and the directory `p` an entry for it. -/
structure Linked (v : Volume) (x x' : Vol) (p : Nat) (e : Entry) : Prop where
  fresh : ¬v.inUse x e.ino
  inUse : v.inUse x' e.ino
  head : SameHead (x.node v.toFs p) (x'.node v.toFs p)
  entries : Inserted e (x.entriesOf v p) (x'.entriesOf v p)
  inode : ∀ i, i ≠ p → i ≠ e.ino → x'.inode i = x.inode i
  kept : Kept v x x' [e.ino, p]

/-- The last step of a creation: the new inode, which is one link ahead, gets its entry. -/
theorem addNew_ok {ino : Nat} {t : FileType} {x₁ : Vol}
    (h : addEntry v.toFs (x.node v.toFs p) nm ino t path w = .ok u w') (hw : v.view w.disk = x₁)
    (hx : Accounted v x 0) (hp : v.inUse x p) (hd : (x.node v.toFs p).type = .dir)
    (hname : 1 ≤ nameBytes nm) (hx₁ : Accounted v x₁ δ) (hkept : Kept v x x₁ [ino])
    (hinode : ∀ i, i ≠ ino → x₁.inode i = x.inode i) (hfresh : ¬v.inUse x ino)
    (hino : v.inUse x₁ ino) :
    Accounted v (v.view w'.disk) (shift δ ino (-1)) ∧
      Linked v x (v.view w'.disk) p (v.newEntry nm ino t) ∧ Kept v x₁ (v.view w'.disk) [p] := by
  have hne : p ≠ ino := fun he => hfresh (he ▸ hp)
  have hpk : p ∉ [ino] := fun hmem => hne (List.mem_singleton.mp hmem)
  have hnode := hkept.node hp hpk
  rw [← hnode] at h hd
  obtain ⟨hacc, hframe', hhead, hins⟩ := addEntry_ok h hw hx₁ (hkept.inUse hp hpk) hd hino hname
  have hin := hframe'.inode ino hne.symm
  rw [hnode] at hhead hd
  rw [hkept.entries hx hp hpk hd] at hins
  refine ⟨hacc, ⟨hfresh, (inUse_congr hin).mpr hino, hhead, hins, fun i hip hi => ?_,
    hkept.trans (hx₁.kept hframe')⟩, hx₁.kept hframe'⟩
  rw [hframe'.inode i hip, hinode i hi]

section Find

variable {e : Entry} {l l' : List Entry} {name : Str}

theorem findName_append : findName name (l ++ l') = (findName name l).or (findName name l') := by
  unfold findName
  rw [List.find?_append]
  cases List.find? (fun e => decide (e.name = some name)) l <;> rfl

/-- The only entry of its name is the one found. -/
theorem findName_inserted (h : Inserted e l l') (hnone : findName name l = none)
    (he : e.name = some name) : findName name l' = some e.ino := by
  obtain ⟨l₁, l₂, rfl, rfl⟩ := h
  rw [findName_append, Option.or_eq_none_iff] at hnone
  rw [findName_append, hnone.1, Option.none_or]
  unfold findName
  rw [List.find?_cons_of_pos (by exact decide_eq_true he)]
  rfl

/-- Another name is found as before. -/
theorem findName_inserted_of_ne (h : Inserted e l l') (he : e.name ≠ some name) :
    findName name l' = findName name l := by
  obtain ⟨l₁, l₂, rfl, rfl⟩ := h
  rw [findName_append, findName_append]
  congr 1
  unfold findName
  rw [List.find?_cons_of_neg (by simpa using he)]

end Find

/-! ### `write-file!` -/

/-- The first half of `write-file!`: the file is there as it was, or it is a new and empty one. -/
theorem openFile_ok {ino : Nat} (h : openFile v.toFs path (x.node v.toFs p) nm w = .ok ino w')
    (hw : v.view w.disk = x) (hx : Accounted v x 0) (hp : v.inUse x p)
    (hd : (x.node v.toFs p).type = .dir) (hname : 1 ≤ nameBytes nm) :
    (x.find v p nm = some ino ∧ v.view w'.disk = x) ∨
      (x.find v p nm = none ∧ Accounted v (v.view w'.disk) 0 ∧
        Linked v x (v.view w'.disk) p (v.newEntry nm ino .file)) := by
  unfold openFile at h
  obtain ⟨r, w₁, hlookup, h⟩ := bind_ok.mp h
  obtain ⟨rfl, hw₁⟩ := lookup_ok hlookup hw hx hp hd
  cases hfind : x.find v p nm with
  | some i =>
      rw [hfind] at h
      obtain ⟨rfl, rfl⟩ := pure_ok.mp h
      exact .inl ⟨rfl, hw₁⟩
  | none =>
      rw [hfind] at h
      obtain ⟨goal, w₂, hgoal, h⟩ := bind_ok.mp h
      obtain ⟨-, -, rfl⟩ := quot_ok.mp hgoal
      obtain ⟨i, w₃, halloc, h⟩ := bind_ok.mp h
      obtain ⟨_, w₄, hinit, h⟩ := bind_ok.mp h
      obtain ⟨_, w₅, hadd, h⟩ := bind_ok.mp h
      obtain ⟨rfl, rfl⟩ := pure_ok.mp h
      obtain ⟨hx₄, hframe, hfresh, hi, -⟩ :=
        create_ok halloc hinit (by rw [hw₁]; exact hx) (by decide)
      rw [hw₁] at hframe hfresh
      obtain ⟨hacc, hlinked, -⟩ := addNew_ok hadd rfl hx hp hd hname hx₄ (hx.kept hframe)
        hframe.inode hfresh hi
      exact .inr ⟨rfl, hacc.of_eq (shift_shift (by omega)), hlinked⟩

/-- What a returning `write-file!` has done: the file `nm` of the directory `p` is the inode `ino`, which
has the bytes of `buf`, and no other inode has changed. -/
structure Written (v : Volume) (x x' : Vol) (p : Nat) (nm : Str) (ino : Nat) (buf : Buf) : Prop where
  accounted : Accounted v x' 0
  inUse : v.inUse x' ino
  type : (x'.node v.toFs ino).type = .file
  size : (x'.node v.toFs ino).size = buf.capacity
  contents : ∀ j < buf.capacity, ((x'.node v.toFs ino).contents v.toFs x'.block).bytes j = buf.bytes j
  found : x'.find v p nm = some ino
  head : SameHead (x.node v.toFs p) (x'.node v.toFs p)
  entries : x.find v p nm = some ino ∧ (x.node v.toFs ino).type = .file ∧
      x'.entriesOf v p = x.entriesOf v p ∨
    x.find v p nm = none ∧ ¬v.inUse x ino ∧
      Inserted (v.newEntry nm ino .file) (x.entriesOf v p) (x'.entriesOf v p)
  inode : ∀ i, i ≠ p → i ≠ ino → x'.inode i = x.inode i
  kept : Kept v x x' [ino, p]

theorem writeFile_ok {data : Data} (h : writeFile v.toFs path data w = .ok u w')
    (hx : Accounted v (v.view w.disk) 0) :
    ∃ p nm ino, (v.view w.disk).parentOf v path = .ok (p, nm) ∧
      Written v (v.view w.disk) (v.view w'.disk) p nm ino data.buf := by
  obtain ⟨x, hw⟩ : ∃ x, v.view w.disk = x := ⟨_, rfl⟩
  rw [hw] at hx ⊢
  unfold writeFile at h
  obtain ⟨_, w₀, hwritable, h⟩ := bind_ok.mp h
  cases writable_ok hwritable
  obtain ⟨⟨parent, nm⟩, w₁, hparent, h⟩ := bind_ok.mp h
  obtain ⟨hw₁, p, hparent, rfl, hp, hd, hname⟩ := parentAndName_ok hparent hw hx
  obtain ⟨ino, w₂, hopen, h⟩ := bind_ok.mp h
  have hopen := openFile_ok hopen hw₁ hx hp hd hname
  refine ⟨p, nm, ino, hparent, ?_⟩
  obtain ⟨x₂, hw₂⟩ : ∃ x₂, v.view w₂.disk = x₂ := ⟨_, rfl⟩
  rw [hw₂] at hopen
  have hx₂ : Accounted v x₂ 0 ∧ v.inUse x₂ ino ∧ SameHead (x.node v.toFs p) (x₂.node v.toFs p) ∧
      x₂.find v p nm = some ino ∧ (∀ i, i ≠ p → i ≠ ino → x₂.inode i = x.inode i) ∧
      Kept v x x₂ [ino, p] := by
    rcases hopen with ⟨hfind, rfl⟩ | ⟨hfind, hacc, hl⟩
    · exact ⟨hx, hx.inUse_find hp hd hfind, ⟨rfl, rfl, rfl, rfl, rfl, rfl⟩, hfind, fun _ _ _ => rfl,
        (kept_refl v _).mono nofun⟩
    · exact ⟨hacc, hl.inUse, hl.head, findName_inserted hl.entries hfind rfl, hl.inode,
        hl.kept⟩
  obtain ⟨hx₂, hino, hhead, hfound, hinode, hkept⟩ := hx₂
  obtain ⟨i, w₃, hread, h⟩ := bind_ok.mp h
  obtain ⟨rfl, hw₃⟩ := readInode_ok hread hw₂ hino.1
  obtain ⟨_, w₄, htype, h⟩ := bind_ok.mp h
  obtain ⟨ht, rfl⟩ := failWhen_ok.mp htype
  obtain ⟨_, w₅, hrepl, hflush⟩ := bind_ok.mp h
  rw [not_ne_iff] at ht
  rw [readOnly_flush.ok hflush]
  subst hw₃
  obtain ⟨hacc, hframe, ⟨bmap, sectors, t, a, hnode⟩, hbytes⟩ :=
    replaceContents_ok hrepl hx₂ hino ht data.capacity_lt
  have hd₂ := hhead.type.trans hd
  have hp₂ := inUse_of_sameHead hp hhead
  have hne : p ≠ ino := by
    rintro rfl
    rw [hd₂] at ht
    cases ht
  have hkept₂ := hx₂.kept hframe
  have hpk : p ∉ [ino] := fun hmem => hne (List.mem_singleton.mp hmem)
  have hentries := hkept₂.entries hx₂ hp₂ hpk hd₂
  refine ⟨hacc, ?_, ?_, by rw [hnode], hbytes, ?_, ?_, ?_, fun i hip hi => ?_, ?_⟩
  · refine ⟨hino.1, ?_⟩
    rw [hnode]
    exact hino.2
  · rw [hnode]
    exact ht
  · unfold Vol.find
    rw [hentries]
    exact hfound
  · rw [hkept₂.node hp₂ hpk]
    exact hhead
  · rw [hentries]
    rcases hopen with ⟨hfind, hsame⟩ | ⟨hfind, -, hl⟩
    · rw [hsame] at ht ⊢
      exact .inl ⟨hfind, ht, rfl⟩
    · exact .inr ⟨hfind, hl.fresh, hl.entries⟩
  · rw [hframe.inode i hi, hinode i hip hi]
  · refine (hkept.trans hkept₂).mono fun i hi => ?_
    rcases List.mem_append.mp hi with hi | hi
    · exact hi
    · exact List.mem_cons.mpr (.inl (List.mem_singleton.mp hi))

/-! ### `mkdir!` and `symlink!` -/

theorem mkdir_ok (h : mkdir v.toFs path w = .ok u w') (hx : Accounted v (v.view w.disk) 0) :
    Accounted v (v.view w'.disk) 0 := by
  obtain ⟨x, hw⟩ : ∃ x, v.view w.disk = x := ⟨_, rfl⟩
  rw [hw] at hx
  unfold mkdir at h
  obtain ⟨_, w₀, hwritable, h⟩ := bind_ok.mp h
  cases writable_ok hwritable
  obtain ⟨⟨parent, nm⟩, w₁, hparent, h⟩ := bind_ok.mp h
  obtain ⟨hw₁, p, -, rfl, hp, hd, hname⟩ := parentAndName_ok hparent hw hx
  obtain ⟨r, w₂, hlookup, h⟩ := bind_ok.mp h
  obtain ⟨-, hw₂⟩ := lookup_ok hlookup hw₁ hx hp hd
  obtain ⟨_, w₃, hexists, h⟩ := bind_ok.mp h
  obtain ⟨-, rfl⟩ := failWhen_ok.mp hexists
  obtain ⟨goal, w₃, hgoal, h⟩ := bind_ok.mp h
  obtain ⟨-, -, rfl⟩ := quot_ok.mp hgoal
  obtain ⟨ino, w₃, halloc, h⟩ := bind_ok.mp h
  obtain ⟨goal', w₄, hgoal', h⟩ := bind_ok.mp h
  obtain ⟨-, -, rfl⟩ := quot_ok.mp hgoal'
  obtain ⟨blk, w₄, hblk, h⟩ := bind_ok.mp h
  obtain ⟨b₁, w₅, h₁, h⟩ := bind_ok.mp h
  obtain ⟨b₂, w₆, h₂, h⟩ := bind_ok.mp h
  obtain ⟨_, w₇, hwrite, h⟩ := bind_ok.mp h
  obtain ⟨_, w₈, hinit, h⟩ := bind_ok.mp h
  obtain ⟨_, w₉, hset, h⟩ := bind_ok.mp h
  obtain ⟨_, w₁₀, hadd, h⟩ := bind_ok.mp h
  obtain ⟨_, w₁₁, hlinks, hflush⟩ := bind_ok.mp h
  rw [readOnly_flush.ok hflush]
  have hp_ino : (x.node v.toFs p).ino = p := rfl
  rw [hp_ino] at h₂ hlinks
  obtain ⟨hx₉, hframe, hfresh, hino, -⟩ := makeDir_ok halloc hblk h₁ h₂ hwrite hinit hset
    (by rw [hw₂]; exact hx) (by rw [hw₂]; exact hp)
  rw [hw₂] at hframe hfresh
  obtain ⟨hacc, hlinked, -⟩ := addNew_ok hadd rfl hx hp hd hname hx₉ (hx.kept hframe)
    hframe.inode hfresh hino
  have hp₁₀ := inUse_of_sameHead hp hlinked.head
  obtain ⟨n, hn, hu⟩ := addLinks_ok hlinks hp.1
  have hpos : p = rootIno ∨ n ≠ 0 := by omega
  refine (hacc.updated hp₁₀ hu hpos).of_eq fun j => ?_
  unfold shift
  rw [hn]
  split_ifs <;> simp

/-- What a returning `symlink!` has done: the name `nm` of the directory `p` is the new symlink `ino`, which
has the first block of the target. -/
structure Symlinked (v : Volume) (x x' : Vol) (p : Nat) (nm : Str) (ino : Nat) (target : Str) : Prop where
  accounted : Accounted v x' 0
  notFound : x.find v p nm = none
  linked : Linked v x x' p (v.newEntry nm ino .symlink)
  type : (x'.node v.toFs ino).type = .symlink
  text : x'.target v ino = (firstBlock v.blockSize (Buf.fromString target)).toString

theorem symlink_ok {target : Str} (h : symlink v.toFs target path w = .ok u w')
    (hx : Accounted v (v.view w.disk) 0) :
    ∃ p nm ino, (v.view w.disk).parentOf v path = .ok (p, nm) ∧
      Symlinked v (v.view w.disk) (v.view w'.disk) p nm ino target := by
  obtain ⟨x, hw⟩ : ∃ x, v.view w.disk = x := ⟨_, rfl⟩
  rw [hw] at hx ⊢
  unfold symlink at h
  obtain ⟨_, w₀, hwritable, h⟩ := bind_ok.mp h
  cases writable_ok hwritable
  obtain ⟨⟨parent, nm⟩, w₁, hparent, h⟩ := bind_ok.mp h
  obtain ⟨hw₁, p, hparent, rfl, hp, hd, hname⟩ := parentAndName_ok hparent hw hx
  obtain ⟨r, w₂, hlookup, h⟩ := bind_ok.mp h
  obtain ⟨rfl, hw₂⟩ := lookup_ok hlookup hw₁ hx hp hd
  obtain ⟨_, w₃, hexists, h⟩ := bind_ok.mp h
  obtain ⟨hnone, rfl⟩ := failWhen_ok.mp hexists
  obtain ⟨goal, w₃, hgoal, h⟩ := bind_ok.mp h
  obtain ⟨-, -, rfl⟩ := quot_ok.mp hgoal
  obtain ⟨ino, w₃, halloc, h⟩ := bind_ok.mp h
  obtain ⟨_, w₄, hinit, h⟩ := bind_ok.mp h
  obtain ⟨_, w₅, htarget, h⟩ := bind_ok.mp h
  obtain ⟨_, w₆, hadd, hflush⟩ := bind_ok.mp h
  rw [readOnly_flush.ok hflush]
  obtain ⟨hx₄, hframe, hfresh, hino, hfirst, t, hnode⟩ :=
    create_ok halloc hinit (by rw [hw₂]; exact hx) (by decide)
  rw [hw₂] at hframe hfresh
  obtain ⟨hx₅, hframe', hino', hstores⟩ := target_ok htarget hx₄ hino hnode (by decide)
    (ne_rootIno_of_firstIno hfirst)
  have hkept := ((hx.kept hframe).trans (hx₄.kept hframe')).mono fun i hi => by
    exact (List.mem_append.mp hi).elim id id
  obtain ⟨hacc, hlinked, hkept'⟩ := addNew_ok hadd rfl hx hp hd hname hx₅ hkept
    (fun i hi => (hframe'.inode i hi).trans (hframe.inode i hi)) hfresh hino'
  have hne : ino ∉ [p] := fun hmem => hfresh (List.mem_singleton.mp hmem ▸ hp)
  refine ⟨p, nm, ino, hparent, hacc.of_eq (shift_shift (by omega)), ?_, hlinked, ?_, ?_⟩
  · simpa using hnone
  · rw [hkept'.node hino' hne]
    exact hstores.type
  · rw [hkept'.target hino' hne, target_eq_linkBytes, hstores.toString_eq]

/-! ### Sequences of calls -/

inductive Call
  | writeFile (path : Str) (data : Data)
  | mkdir (path : Str)
  | symlink (target path : Str)
  | rm (path : Str)

def runCall (fs : Fs) : Call → Io Unit
  | .writeFile path data => writeFile fs path data
  | .mkdir path => mkdir fs path
  | .symlink target path => symlink fs target path
  | .rm path => rm fs path

/-- One call after the other; the first one that throws ends the sequence. -/
def runCalls (fs : Fs) : List Call → Io Unit
  | [] => pure ()
  | c :: cs => do
      runCall fs c
      runCalls fs cs

/-- A disk on which bitmaps, counters, block maps, link counts and directory entries agree. -/
def WellAccounted (v : Volume) (d : Bytes) : Prop := Accounted v (v.view d) 0

theorem call_ok {c : Call} (h : runCall v.toFs c w = .ok u w') (hx : WellAccounted v w.disk) :
    WellAccounted v w'.disk := by
  cases c with
  | writeFile path data =>
      obtain ⟨_, _, _, -, hwritten⟩ := writeFile_ok h hx
      exact hwritten.accounted
  | mkdir path => exact mkdir_ok h hx
  | symlink target path =>
      obtain ⟨_, _, _, -, hlinked⟩ := symlink_ok h hx
      exact hlinked.accounted
  | rm path => exact rm_ok h hx

def sampleData : Data := ⟨Buf.fromString "hello".toList, by decide⟩

/-- A directory, a file and a symlink in it, and the file removed again. -/
def sampleCalls : List Call :=
  [.mkdir "/d".toList, .writeFile "/d/f".toList sampleData, .symlink "f".toList "/d/l".toList,
    .rm "/d/f".toList]

end Beeros.Ext2
