import Beeros.Ext2Ops

/-! Reading after `write-file!`: the path leads to the file as before, the file has the bytes written, and
what the other inodes hold is as it was. -/

namespace Beeros.Ext2

open Memory Exec

variable {v : Volume} {x x' : Vol} {p ino : Nat} {nm path : Str} {buf : Buf}

/-! ### The path again -/

/-- Every walk through `x` goes the same way through `x'`. -/
structure Follows (v : Volume) (x x' : Vol) : Prop where
  type : ∀ i, v.inUse x i → (x'.node v.toFs i).type = (x.node v.toFs i).type
  find : ∀ i j c, v.inUse x i → (x.node v.toFs i).type = .dir → x.find v i c = some j →
    x'.find v i c = some j
  target : ∀ i, v.inUse x i → (x.node v.toFs i).type = .symlink → x'.target v i = x.target v i

theorem follows_refl (v : Volume) (x : Vol) : Follows v x x :=
  ⟨fun _ _ => rfl, fun _ _ _ _ _ h => h, fun _ _ _ => rfl⟩

section Follows

variable {δ : Nat → Int} (h : Follows v x x') (hx : Accounted v x δ)

include h hx

/-- A walk to `p` up to its end or to the first link it follows, with more components behind it. -/
theorem Follows.walkPath {next : Nat → Option Str → List Str → Except Error Nat} {comps : List Str} {cur : Nat}
    (hcur : v.inUse x cur) (hwalk : x.walkPath v path true next cur comps = .ok p) :
    (∀ path' follow next' tail, (follow = true ∨ tail ≠ []) →
      x'.walkPath v path' follow next' cur (comps ++ tail) = x'.walkPath v path' follow next' p tail) ∨
    ∃ q t more, v.inUse x q ∧ next q t more = .ok p ∧
      ∀ path' follow next' tail, (follow = true ∨ tail ≠ []) →
        x'.walkPath v path' follow next' cur (comps ++ tail) = next' q t (more ++ tail) := by
  induction comps generalizing cur with
  | nil =>
      obtain rfl : cur = p := Except.ok.inj hwalk
      exact .inl fun _ _ _ _ _ => rfl
  | cons c more ih =>
      unfold Vol.walkPath at hwalk
      split_ifs at hwalk with hdir
      rw [not_ne_iff] at hdir
      cases hfind : x.find v cur c with
      | none =>
          rw [hfind] at hwalk
          cases hwalk
      | some i =>
          rw [hfind] at hwalk
          replace hwalk : (if (x.node v.toFs i).type = .symlink ∧ (true = true ∨ more ≠ []) then
            next cur (x.target v i) more else x.walkPath v path true next i more) = .ok p := hwalk
          have hi := hx.inUse_find hcur hdir hfind
          have hstep : ∀ path' follow next' tail, x'.walkPath v path' follow next' cur (c :: more ++ tail) =
              if (x.node v.toFs i).type = .symlink ∧ (follow = true ∨ more ++ tail ≠ []) then
                next' cur (x'.target v i) (more ++ tail)
              else x'.walkPath v path' follow next' i (more ++ tail) := by
            intro path' follow next' tail
            rw [List.cons_append, Vol.walkPath, if_neg (not_ne_iff.mpr ((h.type cur hcur).trans hdir)),
              h.find cur i c hcur hdir hfind]
            show (if (x'.node v.toFs i).type = .symlink ∧ _ then _ else _) = _
            rw [h.type i hi]
          have hrest : ∀ {follow : Bool} {tail : List Str}, (follow = true ∨ tail ≠ []) →
              (follow = true ∨ more ++ tail ≠ []) :=
            fun htail => htail.imp_right fun hne hnil => hne (List.append_eq_nil_iff.mp hnil).2
          split_ifs at hwalk with hs
          · refine .inr ⟨cur, x.target v i, more, hcur, hwalk, fun path' follow next' tail htail => ?_⟩
            rw [hstep, if_pos ⟨hs.1, hrest htail⟩, h.target i hi hs.1]
          · have hlink : ∀ follow tail, ¬((x.node v.toFs i).type = .symlink ∧
                (follow = true ∨ more ++ tail ≠ [])) := fun _ _ hs' => hs ⟨hs'.1, .inl rfl⟩
            rcases ih hi hwalk with hend | ⟨q, t, more', hq, hnext, hgo⟩
            · refine .inl fun path' follow next' tail htail => ?_
              rw [hstep, if_neg (hlink follow tail), hend path' follow next' tail htail]
            · refine .inr ⟨q, t, more', hq, hnext, fun path' follow next' tail htail => ?_⟩
              rw [hstep, if_neg (hlink follow tail), hgo path' follow next' tail htail]

/-- The walk to `p` leaves some links to follow, whatever comes behind it. -/
theorem Follows.walkHops {hops : Nat} {comps : List Str} {cur : Nat} (hroot : v.inUse x rootIno)
    (hcur : v.inUse x cur) (hwalk : x.walkHops v path true hops cur comps = .ok p) :
    ∃ left ≤ hops, ∀ path' follow tail, (follow = true ∨ tail ≠ []) →
      x'.walkHops v path' follow hops cur (comps ++ tail) = x'.walkHops v path' follow left p tail := by
  induction hops generalizing comps cur with
  | zero =>
      rcases h.walkPath hx hcur hwalk with hend | ⟨q, t, more, -, hnext, -⟩
      · exact ⟨0, le_rfl, fun path' follow tail htail => hend path' follow _ tail htail⟩
      · cases hnext
  | succ hops ih =>
      rcases h.walkPath hx hcur hwalk with hend | ⟨q, t, more, hq, hnext, hgo⟩
      · exact ⟨hops + 1, le_rfl, fun path' follow tail htail => hend path' follow _ tail htail⟩
      · cases t with
        | none => cases hnext
        | some t =>
            have hstart : v.inUse x (if t.head? = some '/' then rootIno else q) := by
              split_ifs
              · exact hroot
              · exact hq
            obtain ⟨left, hle, hleft⟩ := ih hstart hnext
            refine ⟨left, Nat.le_succ_of_le hle, fun path' follow tail htail => ?_⟩
            rw [← hleft path' follow tail htail, List.append_assoc]
            exact hgo path' follow _ tail htail

end Follows

/-- The components of a path, and the walk over all but the last one. -/
theorem parentOf_walk (hparent : x.parentOf v path = .ok (p, nm)) :
    ∃ path', splitPath path = (splitPath path).dropLast ++ [nm] ∧
      x.walkHops v path' true maxSymlinkHops rootIno (splitPath path).dropLast = .ok p := by
  unfold Vol.parentOf at hparent
  cases hl : (splitPath path).getLast? with
  | none =>
      rw [hl] at hparent
      cases hparent
  | some c =>
      rw [hl] at hparent
      simp only at hparent
      cases hres : x.resolve v ('/' :: joinPath (splitPath path).dropLast) true with
      | error e =>
          rw [hres] at hparent
          cases hparent
      | ok q =>
          rw [hres] at hparent
          simp only at hparent
          split_ifs at hparent
          cases hparent
          unfold Vol.resolve at hres
          rw [splitPath_joinPath fun c hc => List.mem_of_mem_dropLast hc] at hres
          exact ⟨_, (List.dropLast_append_getLast? _ hl).symm, hres⟩

/-- Where a path with more components behind it leads: on from its parent, with the links that are left. -/
theorem Follows.resolve {d : Bytes} {δ : Nat → Int} (h : Follows v (v.view d) x')
    (hx : Accounted v (v.view d) δ) (hparent : (v.view d).parentOf v path = .ok (p, nm)) :
    ∃ left ≤ maxSymlinkHops, ∀ path' follow tail, (follow = true ∨ tail ≠ []) →
      x'.walkHops v path' follow maxSymlinkHops rootIno ((splitPath path).dropLast ++ tail) =
        x'.walkHops v path' follow left p tail := by
  obtain ⟨_, -, hwalk⟩ := parentOf_walk hparent
  exact h.walkHops hx hx.inUse_root hx.inUse_root hwalk

theorem walkHops_eq_walkPath (x : Vol) (path : Str) (follow : Bool) (hops cur : Nat) (comps : List Str) :
    ∃ next, x.walkHops v path follow hops cur comps = x.walkPath v path follow next cur comps := by
  cases hops <;> exact ⟨_, rfl⟩

/-- Where a path leads is one step from its parent. -/
theorem Follows.resolve_last {d : Bytes} {r : Except Error Nat} {δ : Nat → Int} {follow : Bool}
    (h : Follows v (v.view d) x') (hx : Accounted v (v.view d) δ)
    (hparent : (v.view d).parentOf v path = .ok (p, nm))
    (hlast : ∀ next, x'.walkPath v path follow next p [nm] = r) : x'.resolve v path follow = r := by
  obtain ⟨_, hcomps, -⟩ := parentOf_walk hparent
  obtain ⟨left, -, hleft⟩ := h.resolve hx hparent
  obtain ⟨next, hnext⟩ := walkHops_eq_walkPath (v := v) x' path follow left p [nm]
  unfold Vol.resolve
  rw [hcomps, hleft path follow [nm] (.inr (List.cons_ne_nil _ _)), hnext, hlast]

theorem walkPath_file {next : Nat → Option Str → List Str → Except Error Nat}
    (hd : (x.node v.toFs p).type = .dir) (hfind : x.find v p nm = some ino)
    (ht : (x.node v.toFs ino).type = .file) : x.walkPath v path true next p [nm] = .ok ino := by
  simp only [Vol.walkPath, hd, ne_eq, not_true, if_false, hfind, ht]
  rfl

theorem walkPath_none {next : Nat → Option Str → List Str → Except Error Nat}
    (hd : (x.node v.toFs p).type = .dir) (hfind : x.find v p nm = none) :
    x.walkPath v path true next p [nm] = .error (.fail .lookup (.path path) .notFound) := by
  simp only [Vol.walkPath, hd, ne_eq, not_true, if_false, hfind]

section Written

variable (h : Written v x x' p nm ino buf)

include h

theorem Written.ne_ino {i : Nat} (hi : v.inUse x i) (ht : (x.node v.toFs i).type ≠ .file) : i ≠ ino := by
  rintro rfl
  rcases h.entries with ⟨-, hfile, -⟩ | ⟨-, hfresh, -⟩
  · exact ht hfile
  · exact hfresh hi

/-- Inodes in use keep their types. -/
theorem Written.type_eq {i : Nat} (hi : v.inUse x i) :
    (x'.node v.toFs i).type = (x.node v.toFs i).type := by
  by_cases hip : i = p
  · rw [hip]
    exact h.head.type
  · by_cases hino : i = ino
    · rcases h.entries with ⟨-, hfile, -⟩ | ⟨-, hfresh, -⟩
      · rw [hino, h.type, hfile]
      · exact absurd (hino ▸ hi) hfresh
    · rw [node_congr (h.inode i hip hino)]

/-- What was found in a directory is found again. -/
theorem Written.find_of_some (hx : Accounted v x 0) {cur i : Nat} {c : Str} (hcur : v.inUse x cur)
    (hd : (x.node v.toFs cur).type = .dir) (hfind : x.find v cur c = some i) :
    x'.find v cur c = some i := by
  unfold Vol.find at hfind ⊢
  by_cases hp : cur = p
  · subst hp
    rcases h.entries with ⟨-, -, hsame⟩ | ⟨hnone, -, hins⟩
    · rwa [hsame]
    · rw [findName_inserted_of_ne hins, hfind]
      intro hname
      have hnm : nm = c := Option.some.inj hname
      unfold Vol.find at hnone
      rw [hnm, hfind] at hnone
      cases hnone
  · have hne := h.ne_ino hcur (by rw [hd]; nofun)
    rwa [h.kept.entries hx hcur (by simp [hne, hp]) hd]

theorem Written.follows (hx : Accounted v x 0) (hd : (x.node v.toFs p).type = .dir) :
    Follows v x x' := by
  refine ⟨fun i hi => h.type_eq hi, fun i j c hi hdir hfind => h.find_of_some hx hi hdir hfind,
    fun i hi hs => ?_⟩
  have hne := h.ne_ino hi (by rw [hs]; nofun)
  have hnp : i ≠ p := by
    rintro rfl
    rw [hs] at hd
    cases hd
  exact h.kept.target hi (by simp [hne, hnp])

end Written

/-! ### Reading back -/

/-- `read-inode` and `read-inode-data` give the same on both disks. -/
def SameData (v : Volume) (d d' : Bytes) (i : Nat) : Prop :=
  ∃ j b, Gives (readInode v.toFs i) d (.ok j) ∧ Gives (readInode v.toFs i) d' (.ok j) ∧
    Gives (readInodeData v.toFs j) d (.ok b) ∧ Gives (readInodeData v.toFs j) d' (.ok b)

/-- `read-inode` and `link-target` give the same on both disks. -/
def SameTarget (v : Volume) (d d' : Bytes) (i : Nat) : Prop :=
  ∃ j t, Gives (readInode v.toFs i) d (.ok j) ∧ Gives (readInode v.toFs i) d' (.ok j) ∧
    Gives (linkTarget v.toFs j) d (.ok t) ∧ Gives (linkTarget v.toFs j) d' (.ok t)

/-- The path's parent is `p` and leads to `ino` afterwards, where the bytes of `buf` are read; the
parent has at most the entry for it besides its old ones; the other inodes keep their records. -/
structure ReadBack (v : Volume) (path : Str) (buf : Buf) (d d' : Bytes) (p : Nat) (nm : Str)
    (ino : Nat) : Prop where
  parent : (v.view d).parentOf v path = .ok (p, nm)
  leads : (v.view d').resolve v path true = .ok ino
  bytes : ∃ b, Gives (readBytes v.toFs path) d' (.ok b) ∧ b.toList = buf.toList
  entries : ∃ es es', Gives (dirEntries v.toFs ((v.view d).node v.toFs p)) d (.ok es) ∧
    Gives (dirEntries v.toFs ((v.view d').node v.toFs p)) d' (.ok es') ∧
    (es' = es ∨ Inserted (v.newEntry nm ino .file) es es')
  record : ∀ i, v.IsInode i → i ≠ ino → i ≠ p →
    ∃ j, Gives (readInode v.toFs i) d (.ok j) ∧ Gives (readInode v.toFs i) d' (.ok j)

theorem Written.resolve {d d' : Bytes} (h : Written v (v.view d) (v.view d') p nm ino buf)
    (hx : Accounted v (v.view d) 0) (hparent : (v.view d).parentOf v path = .ok (p, nm)) :
    (v.view d').resolve v path true = .ok ino := by
  obtain ⟨hp, hd, -⟩ := hx.parentOf_ok hparent
  exact (h.follows hx hd).resolve_last hx hparent fun _ =>
    walkPath_file ((h.type_eq hp).trans hd) h.found h.type

theorem Written.readBack {d d' : Bytes} (h : Written v (v.view d) (v.view d') p nm ino buf)
    (hx : Accounted v (v.view d) 0) (hparent : (v.view d).parentOf v path = .ok (p, nm)) :
    ReadBack v path buf d d' p nm ino := by
  obtain ⟨hp, hd, -⟩ := hx.parentOf_ok hparent
  have hleads := h.resolve hx hparent
  refine ⟨hparent, hleads, ?_, ?_, fun i hi hino hip => ?_⟩
  · refine ⟨_, ?_, toList_congr h.size h.contents⟩
    have hres := @gives_resolve v d' 0 path true h.accounted
    rw [hleads] at hres
    unfold readBytes
    exact hres.bind ((gives_failWhen (not_ne_iff.mpr h.type)).bind
      (gives_contents h.accounted h.inUse (not_fastSymlink_of_file h.type)))
  · have hp' := inUse_of_sameHead hp h.head
    have hd' := h.head.type.trans hd
    refine ⟨_, _, gives_dirEntries (hx.dirOk hp hd), gives_dirEntries (h.accounted.dirOk hp' hd'), ?_⟩
    rcases h.entries with ⟨-, -, hsame⟩ | ⟨-, -, hins⟩
    · exact .inl hsame
    · exact .inr hins
  · refine ⟨_, gives_readInode hi, ?_⟩
    rw [← node_congr (h.inode i hip hino)]
    exact gives_readInode hi

/-- What is in another inode is read as before. -/
theorem Written.same {d d' : Bytes} (h : Written v (v.view d) (v.view d') p nm ino buf)
    (hx : Accounted v (v.view d) 0) {i : Nat} (hi : v.inUse (v.view d) i) (hino : i ≠ ino) (hip : i ≠ p) :
    (¬fastSymlink v.toFs ((v.view d).node v.toFs i) → SameData v d d' i) ∧
      (((v.view d).node v.toFs i).type = .symlink → SameTarget v d d' i) := by
  have hps : i ∉ [ino, p] := by simp [hino, hip]
  have hi' := h.kept.inUse hi hps
  have hnode := h.kept.node hi hps
  have hread := gives_readInode (d := d') hi.1
  constructor
  · intro hf
    have hbytes := gives_contents h.accounted hi' (by rwa [hnode])
    rw [h.kept.contents hi hps hf] at hbytes
    rw [hnode] at hread hbytes
    exact ⟨_, _, gives_readInode hi.1, hread, gives_contents hx hi hf, hbytes⟩
  · intro hs
    have htarget := gives_linkTarget h.accounted hi' (by rwa [hnode])
    rw [h.kept.target hi hps] at htarget
    rw [hnode] at hread htarget
    exact ⟨_, _, gives_readInode hi.1, hread, gives_linkTarget hx hi hs, htarget⟩

/-- The sample image with a fast symlink, whose text is the number of a free block. -/
def fastLink : EStateM.Result Error World Unit :=
  runCall sampleVolume.toFs (.symlink [Char.ofNat 8] "/l".toList) sampleWorld

/-- Then a file that takes the block. -/
def overLink : EStateM.Result Error World Unit :=
  writeFile sampleVolume.toFs "/f".toList sampleData (final fastLink)

/-- Both calls return, and where the file is. -/
theorem value_overLink : value fastLink = some () ∧ value overLink = some () ∧
    ((sampleVolume.view (final fastLink).disk).parentOf sampleVolume "/f".toList).toOption = some (2, "f".toList) ∧
      ((sampleVolume.view (final overLink).disk).resolve sampleVolume "/f".toList true).toOption = some 12 := by
  decide +kernel

theorem wellAccounted_fastLink : WellAccounted sampleVolume (final fastLink).disk :=
  call_ok (eq_ok_of_value value_overLink.1) accounted_sample

/-- Every other inode in use, fast symlinks among them. -/
def ReadBackAll (v : Volume) (path : Str) (buf : Buf) (d d' : Bytes) : Prop :=
  ∃ p nm ino, ReadBack v path buf d d' p nm ino ∧
    ∀ i, v.inUse (v.view d) i → i ≠ ino → i ≠ p → SameData v d d' i

/-- The first byte that `read-inode-data` returns. -/
def firstByte (v : Volume) (i : Nat) (w : World) : Option UInt8 :=
  match (readInode v.toFs i >>= readInodeData v.toFs) w with
  | .ok b _ => some (b.bytes 0)
  | .error _ _ => none

theorem SameData.firstByte {i : Nat} {d d' : Bytes} (h : SameData v d d' i) :
    firstByte v i ⟨d, 0, fun _ => 0, fun _ => false⟩ =
      firstByte v i ⟨d', 0, fun _ => 0, fun _ => false⟩ := by
  obtain ⟨j, b, hj, hj', hb, hb'⟩ := h
  obtain ⟨w₁, h₁, -⟩ := (hj.bind hb).run (w := ⟨d, 0, fun _ => 0, fun _ => false⟩) rfl fun _ => rfl
  obtain ⟨w₂, h₂, -⟩ := (hj'.bind hb').run (w := ⟨d', 0, fun _ => 0, fun _ => false⟩) rfl fun _ => rfl
  unfold Ext2.firstByte
  rw [h₁, h₂]
  rfl

end Beeros.Ext2
