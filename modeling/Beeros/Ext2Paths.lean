import Beeros.Ext2Entries
import Beeros.Pieces

/-! Paths on a well-accounted image: `resolve-inode` and `parent-and-name` as functions of the image, in
inode numbers. -/

namespace Beeros.Ext2

open Memory Exec

variable {v : Volume} {d : Bytes} {δ : Nat → Int} {p : Nat} {path : Str} {follow : Bool}

/-! ### Resolution as a function -/

/-- The text of the symlink `p`; `none` when its bytes are not UTF-8. -/
def Vol.target (v : Volume) (x : Vol) (p : Nat) : Option Str :=
  if fastTarget v.toFs (x.node v.toFs p) then
    Buf.toString ⟨(x.node v.toFs p).size,
      window (x.node v.toFs p).iBlock.bytes 0 (x.node v.toFs p).size⟩
  else Buf.toString ((x.node v.toFs p).contents v.toFs x.block)

def Vol.find (v : Volume) (x : Vol) (p : Nat) (name : Str) : Option Nat :=
  findName name (x.entriesOf v p)

def Vol.walkPath (v : Volume) (x : Vol) (path : Str) (follow : Bool)
    (next : Nat → Option Str → List Str → Except Error Nat) : Nat → List Str → Except Error Nat
  | cur, [] => .ok cur
  | cur, nm :: more =>
      if (x.node v.toFs cur).type ≠ .dir then .error (.fail .lookup (.path path) .notADirectory)
      else match x.find v cur nm with
        | none => .error (.fail .lookup (.path path) .notFound)
        | some ino =>
            if (x.node v.toFs ino).type = .symlink ∧ (follow ∨ more ≠ []) then
              next cur (x.target v ino) more
            else walkPath v x path follow next ino more

def Vol.walkHops (v : Volume) (x : Vol) (path : Str) (follow : Bool) :
    Nat → Nat → List Str → Except Error Nat
  | 0 => x.walkPath v path follow fun _ _ _ => .error (.fail .lookup (.path path) .tooManyLinks)
  | hops + 1 => x.walkPath v path follow fun cur target more =>
      match target with
      | none => .error .type
      | some target => x.walkHops v path follow hops
          (if target.head? = some '/' then rootIno else cur) (splitPath target ++ more)

/-- The inode that a path leads to. -/
def Vol.resolve (v : Volume) (x : Vol) (path : Str) (follow : Bool) : Except Error Nat :=
  x.walkHops v path follow maxSymlinkHops rootIno (splitPath path)

/-- The parent directory and the last name of a path. -/
def Vol.parentOf (v : Volume) (x : Vol) (path : Str) : Except Error (Nat × Str) :=
  match (splitPath path).getLast? with
  | none => .error (.fail .write (.path path) .isRoot)
  | some nm =>
      match x.resolve v ('/' :: joinPath (splitPath path).dropLast) true with
      | .error e => .error e
      | .ok p =>
          if (x.node v.toFs p).type ≠ .dir then .error (.fail .write (.path path) .notADirectory)
          else .ok (p, nm)

/-! ### Components -/

theorem splitPath_ne_nil {nm : Str} (h : nm ∈ splitPath path) : nm ≠ [] :=
  of_decide_eq_true (List.mem_filter.mp h).2

theorem splitPath_slash (s : Str) : splitPath ('/' :: s) = splitPath s := by
  unfold splitPath
  rw [List.splitOn_cons_eq_if_modifyHead, if_pos (beq_self_eq_true _), List.filter_cons_of_neg]
  simp

/-- Joined components split into the same ones. -/
theorem splitPath_joinPath {comps : List Str} (h : ∀ c ∈ comps, c ∈ splitPath path) :
    splitPath ('/' :: joinPath comps) = comps := by
  rw [splitPath_slash]
  by_cases hnil : comps = []
  · rw [hnil]
    rfl
  · unfold splitPath joinPath
    rw [List.splitOn_intercalate _ (fun c hc => ?_) hnil, List.filter_eq_self]
    · intro c hc
      exact (List.mem_filter.mp (h c hc)).2
    · exact Pieces.plain_splitOn '/' _ c (List.mem_filter.mp (h c hc)).1

/-! ### The code computes it -/

theorem Accounted.inUse_root (hx : Accounted v (v.view d) δ) : v.inUse (v.view d) rootIno := by
  refine ⟨?_, .inl rfl⟩
  -- a number that is no inode has a record of zeros, which is no directory
  by_contra hi
  have hroot := hx.root
  have hzero : (v.view d).inode rootIno = fun _ => 0 := if_neg hi
  unfold Vol.node at hroot
  rw [hzero] at hroot
  have hmode : (v.parse rootIno fun _ => 0).mode = 0 := loadLE_zero 2 iMode
  unfold Inode.type at hroot
  rw [hmode] at hroot
  exact absurd hroot (by decide)

/-- What `lookup` finds is in use. -/
theorem Accounted.inUse_find {x : Vol} {ino : Nat} {name : Str} (hx : Accounted v x δ)
    (hp : v.inUse x p) (hd : (x.node v.toFs p).type = .dir) (h : x.find v p name = some ino) :
    v.inUse x ino := by
  obtain ⟨e, he, rfl⟩ := Option.map_eq_some_iff.mp h
  exact hx.named hp hd (List.mem_of_find?_eq_some he)

theorem gives_find {name : Str} (hx : Accounted v (v.view d) δ) (hp : v.inUse (v.view d) p)
    (hd : ((v.view d).node v.toFs p).type = .dir) :
    Gives (lookup v.toFs ((v.view d).node v.toFs p) name) d (.ok ((v.view d).find v p name)) :=
  gives_lookup (hx.dirOk hp hd)

theorem gives_contents (hx : Accounted v (v.view d) δ) (hp : v.inUse (v.view d) p)
    (hf : ¬fastSymlink v.toFs ((v.view d).node v.toFs p)) :
    Gives (readInodeData v.toFs ((v.view d).node v.toFs p)) d
      (.ok (((v.view d).node v.toFs p).contents v.toFs (v.view d).block)) := by
  have hdata := hx.data_of_refs hp
  refine gives_readInodeData (fun b hb => ?_) (fun b hb hb0 => ?_) ((hx.sound p hp).size hf)
  · exact hdata b (mem_refs_of_mem_mapIndirects hf hb)
  · exact hdata b (mem_refs_of_mem_blocksIn hf hb hb0)

theorem target_eq_linkBytes (x : Vol) (p : Nat) :
    x.target v p = ((x.node v.toFs p).linkBytes v.toFs x.block).toString := by
  unfold Vol.target Inode.linkBytes
  split_ifs <;> rfl

theorem gives_linkTarget (hx : Accounted v (v.view d) δ) (hp : v.inUse (v.view d) p)
    (hs : ((v.view d).node v.toFs p).type = .symlink) :
    Gives (linkTarget v.toFs ((v.view d).node v.toFs p)) d (.ok ((v.view d).target v p)) := by
  unfold linkTarget Vol.target
  split_ifs with hfast
  · have hle : 0 + ((v.view d).node v.toFs p).size ≤ 60 := by
      rw [Nat.zero_add]
      exact (hx.sound p hp).fast ⟨hs, hfast⟩
    exact (gives_slice hle).bind (gives_pure _)
  · exact (gives_contents hx hp fun h => hfast h.2).bind (gives_pure _)

theorem gives_walkPath {next : Inode → Option Str → List Str → Io Inode}
    {next' : Nat → Option Str → List Str → Except Error Nat} (hx : Accounted v (v.view d) δ)
    (hnext : ∀ cur t more, v.inUse (v.view d) cur →
      Gives (next ((v.view d).node v.toFs cur) t more) d
        ((next' cur t more).map ((v.view d).node v.toFs)))
    {comps : List Str} {cur : Nat} (hcur : v.inUse (v.view d) cur) :
    Gives (resolveWith v.toFs path follow next ((v.view d).node v.toFs cur) comps) d
      (((v.view d).walkPath v path follow next' cur comps).map ((v.view d).node v.toFs)) := by
  induction comps generalizing cur with
  | nil => exact gives_pure _
  | cons nm more ih =>
      unfold resolveWith Vol.walkPath
      split_ifs with hd
      · exact (gives_failWhen_error hd).bind_error
      · rw [not_ne_iff] at hd
        refine (gives_failWhen (not_ne_iff.mpr hd)).bind ((gives_find hx hcur hd).bind ?_)
        cases hfind : (v.view d).find v cur nm with
        | none => exact gives_throw _
        | some ino =>
            have hino := hx.inUse_find hcur hd hfind
            refine (gives_readInode hino.1).bind ?_
            show Gives (if _ then _ else _) d (Except.map _ (if _ then _ else _))
            split_ifs with hs
            · exact (gives_linkTarget hx hino hs.1).bind (hnext cur _ more hcur)
            · exact ih hino

theorem gives_walkHops (hx : Accounted v (v.view d) δ) {hops : Nat} {comps : List Str} {cur : Nat}
    (hcur : v.inUse (v.view d) cur) :
    Gives (resolveHops v.toFs path follow ((v.view d).node v.toFs rootIno) hops
        ((v.view d).node v.toFs cur) comps) d
      (((v.view d).walkHops v path follow hops cur comps).map ((v.view d).node v.toFs)) := by
  induction hops generalizing comps cur with
  | zero => exact gives_walkPath hx (fun _ _ _ _ => gives_throw _) hcur
  | succ hops ih =>
      refine gives_walkPath hx (fun c t more hc => ?_) hcur
      cases t with
      | none => exact (gives_throw _).bind_error
      | some t =>
          refine (gives_pure t).bind ?_
          show Gives (resolveHops _ _ _ _ _ (if _ then _ else _) _) d
            (Except.map _ (Vol.walkHops _ _ _ _ _ (if _ then _ else _) _))
          split_ifs with hroot
          · exact ih hx.inUse_root
          · exact ih hc

theorem gives_resolve (hx : Accounted v (v.view d) δ) : Gives (resolveInode v.toFs path follow) d
    (((v.view d).resolve v path follow).map ((v.view d).node v.toFs)) := by
  have hroot := hx.inUse_root
  exact (gives_readInode hroot.1).bind (gives_walkHops hx hroot)

theorem gives_parentOf (hx : Accounted v (v.view d) δ) : Gives (parentAndName v.toFs path) d
    (((v.view d).parentOf v path).map fun r => ((v.view d).node v.toFs r.1, r.2)) := by
  unfold parentAndName Vol.parentOf
  cases (splitPath path).getLast? with
  | none => exact gives_throw _
  | some nm =>
      have hres := @gives_resolve v d δ ('/' :: joinPath (splitPath path).dropLast) true hx
      show Gives (resolveInode _ _ _ >>= _) d _
      cases hp : (v.view d).resolve v ('/' :: joinPath (splitPath path).dropLast) true with
      | error e =>
          rw [hp] at hres
          exact hres.bind_error
      | ok p =>
          rw [hp] at hres
          refine hres.bind ?_
          show Gives _ d (Except.map _ (if _ then _ else _))
          split_ifs with hd
          · exact (gives_failWhen_error hd).bind_error
          · exact (gives_failWhen hd).bind (gives_pure _)

/-! ### Where a path leads -/

theorem Accounted.walkPath_inUse {x : Vol} (hx : Accounted v x δ)
    {next : Nat → Option Str → List Str → Except Error Nat}
    (hnext : ∀ cur t more, v.inUse x cur → next cur t more = .ok p → v.inUse x p) {comps : List Str}
    {cur : Nat} (hcur : v.inUse x cur) (h : x.walkPath v path follow next cur comps = .ok p) :
    v.inUse x p := by
  induction comps generalizing cur with
  | nil =>
      cases h
      exact hcur
  | cons nm more ih =>
      unfold Vol.walkPath at h
      split_ifs at h with hd
      rw [not_ne_iff] at hd
      cases hfind : x.find v cur nm with
      | none =>
          rw [hfind] at h
          cases h
      | some ino =>
          rw [hfind] at h
          simp only at h
          split_ifs at h with hs
          · exact hnext cur _ more hcur h
          · exact ih (hx.inUse_find hcur hd hfind) h

theorem Accounted.walkHops_inUse {x : Vol} (hx : Accounted v x δ) (hroot : v.inUse x rootIno)
    {hops : Nat} {comps : List Str} {cur : Nat} (hcur : v.inUse x cur)
    (h : x.walkHops v path follow hops cur comps = .ok p) : v.inUse x p := by
  induction hops generalizing comps cur with
  | zero =>
      refine hx.walkPath_inUse (fun _ _ _ _ h => ?_) hcur h
      cases h
  | succ hops ih =>
      refine hx.walkPath_inUse (fun c t more hc h => ?_) hcur h
      cases t with
      | none => cases h
      | some t =>
          refine ih ?_ h
          split_ifs
          · exact hroot
          · exact hc

/-- The parent of a path is a directory in use, and the last name is not empty. -/
theorem Accounted.parentOf_ok {nm : Str} (hx : Accounted v (v.view d) δ)
    (h : (v.view d).parentOf v path = .ok (p, nm)) : v.inUse (v.view d) p ∧
      ((v.view d).node v.toFs p).type = .dir ∧ nm ∈ splitPath path := by
  unfold Vol.parentOf at h
  cases hlast : (splitPath path).getLast? with
  | none =>
      rw [hlast] at h
      cases h
  | some nm' =>
      rw [hlast] at h
      simp only at h
      cases hres : (v.view d).resolve v ('/' :: joinPath (splitPath path).dropLast) true with
      | error e =>
          rw [hres] at h
          cases h
      | ok p' =>
          rw [hres] at h
          simp only at h
          split_ifs at h with hd
          cases h
          exact ⟨hx.walkHops_inUse hx.inUse_root hx.inUse_root hres, not_ne_iff.mp hd,
            List.mem_of_getLast? hlast⟩

/-! ### What other inodes keep -/

section Kept

variable {x x' : Vol} {ps : List Nat} {i : Nat}

theorem Kept.blocksIn (h : Kept v x x' ps) (hi : v.inUse x i) (hip : i ∉ ps)
    (hf : ¬fastSymlink v.toFs (x.node v.toFs i)) :
    (x'.node v.toFs i).blocksIn v.toFs x'.block = (x.node v.toFs i).blocksIn v.toFs x.block := by
  rw [h.node hi hip]
  exact blocksIn_congr hf (h i hi hip).2

theorem Kept.entries (hx : Accounted v x δ) (h : Kept v x x' ps) (hi : v.inUse x i) (hip : i ∉ ps)
    (hd : (x.node v.toFs i).type = .dir) : x'.entriesOf v i = x.entriesOf v i := by
  have hf : ¬fastSymlink v.toFs (x.node v.toFs i) := not_fastSymlink_of_dir hd
  unfold Vol.entriesOf Inode.entries
  rw [h.blocksIn hi hip hf, List.flatMap_def, List.flatMap_def]
  congr 1
  refine List.map_congr_left fun b hb => ?_
  have hb0 := ((hx.sound i hi).dirBlocks hd b hb).1
  rw [(h i hi hip).2 b (mem_refs_of_mem_blocksIn hf hb hb0)]

theorem Kept.contents (h : Kept v x x' ps) (hi : v.inUse x i) (hip : i ∉ ps)
    (hf : ¬fastSymlink v.toFs (x.node v.toFs i)) :
    (x'.node v.toFs i).contents v.toFs x'.block = (x.node v.toFs i).contents v.toFs x.block := by
  unfold Inode.contents
  rw [h.blocksIn hi hip hf, h.node hi hip]
  congr 1
  funext j
  refine if_congr Iff.rfl ?_ rfl
  unfold blockByte
  refine ite_congr rfl (fun _ => rfl) fun hb0 => ?_
  have hb : ((x.node v.toFs i).blocksIn v.toFs x.block).getD (j / v.blockSize) 0 ∈
      (x.node v.toFs i).blocksIn v.toFs x.block := by
    rcases Nat.lt_or_ge (j / v.blockSize) ((x.node v.toFs i).blocksIn v.toFs x.block).length with
      hlt | hge
    · rw [List.getD_eq_getElem _ _ hlt]
      exact List.getElem_mem hlt
    · exact absurd (List.getD_eq_default _ _ hge) hb0
  rw [(h i hi hip).2 _ (mem_refs_of_mem_blocksIn hf hb hb0)]

theorem Kept.target (h : Kept v x x' ps) (hi : v.inUse x i) (hip : i ∉ ps) :
    x'.target v i = x.target v i := by
  unfold Vol.target
  rw [h.node hi hip]
  refine ite_congr rfl (fun _ => rfl) fun hfast => ?_
  rw [← h.contents hi hip fun hf => hfast hf.2, h.node hi hip]

end Kept

end Beeros.Ext2
