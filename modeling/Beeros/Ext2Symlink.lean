import Beeros.Ext2ReadBack
import Beeros.Ext2Resolve

/-! Symlinks: what `symlink!` stores is read back by `readlink` and followed by `resolve-inode`, up to one
block. -/

namespace Beeros.Ext2

open Memory Exec
open Resolution (Resolves)

variable {v : Volume} {x x' : Vol} {p ino : Nat} {nm path target : Str} {δ : Nat → Int}

/-! ### The new link -/

theorem Linked.find_of_some {t : FileType} (h : Linked v x x' p (v.newEntry nm ino t)) (hx : Accounted v x δ)
    (hnone : x.find v p nm = none) {cur i : Nat} {c : Str} (hcur : v.inUse x cur)
    (hd : (x.node v.toFs cur).type = .dir) (hfind : x.find v cur c = some i) : x'.find v cur c = some i := by
  by_cases hp : cur = p
  · subst hp
    have hne : (v.newEntry nm ino t).name ≠ some c := by
      intro hname
      have hnm : nm = c := Option.some.inj hname
      rw [hnm, hfind] at hnone
      cases hnone
    unfold Vol.find at hfind ⊢
    rw [findName_inserted_of_ne h.entries hne, hfind]
  · have hino : cur ≠ ino := fun he => h.fresh (he ▸ hcur)
    unfold Vol.find at hfind ⊢
    rwa [h.kept.entries hx hcur (by simp [hp, show cur ≠ (v.newEntry nm ino t).ino from hino]) hd]

/-- Every walk goes the same way after a creation. -/
theorem Linked.follows {t : FileType} (h : Linked v x x' p (v.newEntry nm ino t)) (hx : Accounted v x δ)
    (hd : (x.node v.toFs p).type = .dir) (hnone : x.find v p nm = none) : Follows v x x' where
  type i hi := by
    by_cases hp : i = p
    · rw [hp]
      exact h.head.type
    · rw [node_congr (h.inode i hp fun he => h.fresh (he ▸ hi))]
  find _ _ _ hi hdir hfind := h.find_of_some hx hnone hi hdir hfind
  target i hi hs := by
    have hp : i ≠ p := by
      rintro rfl
      rw [hs] at hd
      cases hd
    have hino : i ≠ ino := fun he => h.fresh (he ▸ hi)
    exact h.kept.target hi (by simp [hp, show i ≠ (v.newEntry nm ino t).ino from hino])

theorem Linked.find {t : FileType} (h : Linked v x x' p (v.newEntry nm ino t)) (hnone : x.find v p nm = none) :
    x'.find v p nm = some ino :=
  findName_inserted h.entries hnone rfl

/-! ### Two walks of the same way -/

/-- The error with another path in it. -/
def Error.onPath (path : Str) : Error → Error
  | .fail op (.path _) r => .fail op (.path path) r
  | e => e

/-- The outcome `r'` for `path'` is `r`, unless the links have run out. -/
def AsIf {α : Type} (path' : Str) (r r' : Except Error α) : Prop :=
  r' = .error (.fail .lookup (.path path') .tooManyLinks) ∨ r' = r.mapError (Error.onPath path')

theorem AsIf.map {α β : Type} {path' : Str} {r r' : Except Error α} (h : AsIf path' r r') (f : α → β) :
    AsIf path' (r.map f) (r'.map f) := by
  rcases h with rfl | rfl
  · exact .inl rfl
  · exact .inr (by cases r <;> rfl)

theorem walkPath_asIf {path' : Str} {follow : Bool} {next next' : Nat → Option Str → List Str → Except Error Nat}
    (hnext : ∀ cur t more, AsIf path' (next cur t more) (next' cur t more)) (cur : Nat) (comps : List Str) :
    AsIf path' (x.walkPath v path follow next cur comps) (x.walkPath v path' follow next' cur comps) := by
  induction comps generalizing cur with
  | nil => exact .inr rfl
  | cons c more ih =>
      rw [Vol.walkPath, Vol.walkPath]
      split_ifs
      · exact .inr rfl
      · cases x.find v cur c with
        | none => exact .inr rfl
        | some i =>
            show AsIf path' (if (x.node v.toFs i).type = .symlink ∧ (follow = true ∨ more ≠ []) then
              next cur (x.target v i) more else x.walkPath v path follow next i more)
              (if (x.node v.toFs i).type = .symlink ∧ (follow = true ∨ more ≠ []) then
              next' cur (x.target v i) more else x.walkPath v path' follow next' i more)
            split_ifs
            · exact hnext cur _ more
            · exact ih i

/-- With fewer links left the walk comes to the same end, or runs out of links. -/
theorem walkHops_asIf {path' : Str} {follow : Bool} {left left' : Nat} (hle : left ≤ left') (cur : Nat)
    (comps : List Str) :
    AsIf path' (x.walkHops v path follow left' cur comps) (x.walkHops v path' follow left cur comps) := by
  induction left generalizing left' cur comps with
  | zero =>
      obtain ⟨next, hnext⟩ := walkHops_eq_walkPath (v := v) x path follow left' cur comps
      rw [hnext]
      exact walkPath_asIf (fun _ _ _ => .inl rfl) cur comps
  | succ left ih =>
      obtain ⟨more, rfl⟩ := Nat.exists_eq_add_of_le' hle
      refine walkPath_asIf (fun q t rest => ?_) cur comps
      cases t with
      | none => exact .inr rfl
      | some t => exact ih (Nat.le_add_left left more) _ _

/-! ### Through the link -/

/-- The components of a path through the link, with the target in the link's place. -/
def inPlace (path target : Str) (more : List Str) : List Str :=
  (if target.head? = some '/' then [] else (splitPath path).dropLast) ++ (splitPath target ++ more)

/-- `readlink` gives the target, and `resolve-inode` goes through the link as if the target stood in its
place. The link itself counts as one followed: where the links on that way, and with an absolute target those
on the way to the link, leave one for it, the ways lead to one inode. -/
structure ReadsThrough (v : Volume) (path target : Str) (d : Bytes) : Prop where
  readlink : Gives (readlink v.toFs path) d (.ok (some target))
  resolve : ∀ path₁ path₂ follow more, splitPath path₁ = splitPath path ++ more →
    splitPath path₂ = inPlace path target more → (follow = true ∨ more ≠ []) →
    (∃ r₁ r₂, Gives (resolveInode v.toFs path₁ follow) d r₁ ∧ Gives (resolveInode v.toFs path₂ follow) d r₂ ∧
      AsIf path₁ r₂ r₁) ∧
    ∀ path₀ j k q r, splitPath path₀ = (splitPath path).dropLast → Derives v.toFs d path₀ true j q →
      Derives v.toFs d path₂ follow k r → (if target.head? = some '/' then j else 0) + k < maxSymlinkHops →
      Gives (resolveInode v.toFs path₁ follow) d (.ok r)

section Through

variable {d d' : Bytes} (h : Symlinked v (v.view d) (v.view d') p nm ino target)
  (hx : Accounted v (v.view d) 0) (hparent : (v.view d).parentOf v path = .ok (p, nm))

include h hx hparent

/-- Without following the last component the path leads to the link. -/
theorem Symlinked.resolve : (v.view d').resolve v path false = .ok ino := by
  obtain ⟨-, hd, -⟩ := hx.parentOf_ok hparent
  have hfollows := h.linked.follows hx hd h.notFound
  refine hfollows.resolve_last hx hparent fun next => ?_
  have hd' : ((v.view d').node v.toFs p).type = .dir := h.linked.head.type.trans hd
  rw [Vol.walkPath, if_neg (not_ne_iff.mpr hd'), h.linked.find h.notFound]
  show (if _ ∧ (false = true ∨ ([] : List Str) ≠ []) then _ else _) = _
  rw [if_neg (by simp)]
  rfl

theorem Symlinked.gives_readlink :
    Gives (readlink v.toFs path) d' (.ok (firstBlock v.blockSize (Buf.fromString target)).toString) := by
  have hres : Gives (resolveInode v.toFs path false) d' _ := gives_resolve h.accounted
  rw [h.resolve hx hparent] at hres
  have htarget := gives_linkTarget h.accounted h.linked.inUse h.type
  have htext : (v.view d').target v (v.newEntry nm ino .symlink).ino = _ := h.text
  rw [htext] at htarget
  unfold readlink
  exact hres.bind ((gives_failWhen (not_ne_iff.mpr h.type)).bind htarget)

theorem Symlinked.resolve_through (htext : (v.view d').target v ino = some target) {path₁ path₂ : Str}
    {follow : Bool} {more : List Str} (h₁ : splitPath path₁ = splitPath path ++ more)
    (h₂ : splitPath path₂ = inPlace path target more) (hmore : follow = true ∨ more ≠ []) :
    AsIf path₁ ((v.view d').resolve v path₂ follow) ((v.view d').resolve v path₁ follow) := by
  obtain ⟨-, hd, -⟩ := hx.parentOf_ok hparent
  have hfollows := h.linked.follows hx hd h.notFound
  have hd' : ((v.view d').node v.toFs p).type = .dir := h.linked.head.type.trans hd
  obtain ⟨left, hle, hleft⟩ := hfollows.resolve hx hparent
  obtain ⟨_, hcomps, -⟩ := parentOf_walk hparent
  have hwalk : ∀ next, (v.view d').walkPath v path₁ follow next p (nm :: more) = next p (some target) more := by
    intro next
    rw [Vol.walkPath, if_neg (not_ne_iff.mpr hd'), h.linked.find h.notFound]
    show (if _ ∧ _ then next p ((v.view d').target v ino) more else _) = _
    rw [if_pos ⟨h.type, hmore⟩, htext]
  have hthrough : (v.view d').resolve v path₁ follow =
      (v.view d').walkHops v path₁ follow left p (nm :: more) := by
    unfold Vol.resolve
    rw [h₁, hcomps, List.append_assoc]
    exact hleft path₁ follow (nm :: more) (.inr (List.cons_ne_nil _ _))
  rw [hthrough]
  cases left with
  | zero => exact .inl (hwalk _)
  | succ left =>
      have hlink : (v.view d').walkHops v path₁ follow (left + 1) p (nm :: more) =
          (v.view d').walkHops v path₁ follow left (if target.head? = some '/' then rootIno else p)
            (splitPath target ++ more) := hwalk _
      rw [hlink]
      unfold Vol.resolve
      rw [h₂, inPlace]
      split_ifs with habs
      · rw [List.nil_append]
        exact walkHops_asIf (by omega) rootIno (splitPath target ++ more)
      · have hmore' : follow = true ∨ splitPath target ++ more ≠ [] :=
          hmore.imp_right fun hne hnil => hne (List.append_eq_nil_iff.mp hnil).2
        rw [hleft path₂ follow _ hmore']
        exact walkHops_asIf (Nat.le_succ left) p (splitPath target ++ more)

/-- The links to follow are one more than those with the target in the link's place. -/
theorem Symlinked.derives_through (htext : (v.view d').target v ino = some target) {path₀ path₁ path₂ : Str}
    {follow : Bool} {more : List Str} {j k : Nat} {q r : Inode} (h₀ : splitPath path₀ = (splitPath path).dropLast)
    (h₁ : splitPath path₁ = splitPath path ++ more) (h₂ : splitPath path₂ = inPlace path target more)
    (hmore : follow = true ∨ more ≠ []) (hj : Derives v.toFs d' path₀ true j q)
    (hk : Derives v.toFs d' path₂ follow k r) :
    Derives v.toFs d' path₁ follow ((if target.head? = some '/' then j else 0) + k + 1) r := by
  obtain ⟨-, hd, -⟩ := hx.parentOf_ok hparent
  have hfollows := h.linked.follows hx hd h.notFound
  have hd' : ((v.view d').node v.toFs p).type = .dir := h.linked.head.type.trans hd
  obtain ⟨_, hcomps, -⟩ := parentOf_walk hparent
  have hp : v.inUse (v.view d') p := inUse_of_sameHead (hx.parentOf_ok hparent).1 h.linked.head
  -- the directory of the link
  obtain rfl : q = (v.view d').node v.toFs p := by
    obtain ⟨left, -, hleft⟩ := hfollows.resolve hx hparent
    have hres : (v.view d').resolve v path₀ true = .ok p := by
      have hend := hleft path₀ true [] (.inl rfl)
      rw [List.append_nil] at hend
      unfold Vol.resolve
      rw [h₀, hend]
      cases left <;> rfl
    have hgives : Gives (resolveInode v.toFs path₀ true) d' _ := gives_resolve h.accounted
    rw [hres] at hgives
    obtain ⟨j', -, hj'⟩ := gives_resolveInode_iff.mp hgives
    exact (hj.unique hj').2
  obtain ⟨root, hroot, hj⟩ := hj
  obtain ⟨root', hroot', hk⟩ := hk
  obtain rfl : root = root' := Except.ok.inj (hroot.unique hroot')
  rw [h₀] at hj
  rw [h₂, inPlace] at hk
  have hentry : (v.toFs.tree d' root).entry ((v.view d').node v.toFs p) nm ((v.view d').node v.toFs ino) := by
    have hfind : Gives (lookup v.toFs ((v.view d').node v.toFs p) nm) d' _ := gives_find h.accounted hp hd'
    rw [h.linked.find h.notFound] at hfind
    exact ⟨ino, hfind, gives_readInode h.linked.inUse.1⟩
  have htarget : (v.toFs.tree d' root).target ((v.view d').node v.toFs ino)
      (decide (target.head? = some '/')) (splitPath target) := by
    have hgives : Gives (linkTarget v.toFs ((v.view d').node v.toFs ino)) d' _ :=
      gives_linkTarget h.accounted h.linked.inUse h.type
    rw [htext] at hgives
    exact ⟨target, hgives, rfl, rfl⟩
  have hlink : ∀ {n : Nat}, Resolves (v.toFs.tree d' root) follow
      (if target.head? = some '/' then root else (v.view d').node v.toFs p) (splitPath target ++ more) n r →
      Derives v.toFs d' path₁ follow (j + (n + 1)) r := by
    intro n hrest
    refine ⟨root, hroot, ?_⟩
    rw [h₁, hcomps, List.append_assoc]
    refine hj.append (.inr (List.cons_ne_nil _ _)) (.link hd' hentry ⟨h.type, hmore⟩ htarget ?_)
    show Resolves _ follow (if decide (target.head? = some '/') = true then root else (v.view d').node v.toFs p)
      (splitPath target ++ more) n r
    simpa only [decide_eq_true_eq] using hrest
  split_ifs with habs
  · rw [if_pos habs, List.nil_append] at hk
    rw [if_pos habs] at hlink
    exact hlink hk
  · rw [if_neg habs] at hk hlink
    have hmore' : follow = true ∨ splitPath target ++ more ≠ [] :=
      hmore.imp_right fun hne hnil => hne (List.append_eq_nil_iff.mp hnil).2
    obtain ⟨left, rfl, hleft⟩ := hj.of_append hmore' functional_tree hk
    rw [Nat.zero_add, Nat.add_assoc]
    exact hlink hleft

end Through

/-- Behind the first block the target has only zero bytes, or none. -/
def Fits (bs : Nat) (target : Str) : Prop := ∀ b ∈ (Utf8.encode target).drop bs, b = 0

theorem toString_firstBlock {bs : Nat} :
    (firstBlock bs (Buf.fromString target)).toString = some target ↔ Fits bs target := by
  have hlist : (firstBlock bs (Buf.fromString target)).toList = Utf8.encode target ↔ Fits bs target := by
    have hget : ∀ j (hj : j < (Utf8.encode target).length),
        (firstBlock bs (Buf.fromString target)).bytes j = if j < bs then (Utf8.encode target)[j] else 0 := by
      intro j hj
      show (if j < bs then (Utf8.encode target).getD j 0 else 0) = _
      rw [List.getD_eq_getElem _ _ hj]
    unfold Buf.toList
    constructor
    · intro heq b hb
      obtain ⟨k, hk, rfl⟩ := List.mem_drop_iff_getElem.mp hb
      have hlt : bs + k < (Utf8.encode target).length := by omega
      have hbyte := congrArg (fun l => l.getD (bs + k) 0) heq
      simp only [List.getD_eq_getElem _ _ hlt] at hbyte
      rw [← hbyte, List.getD_eq_getElem _ _ (by simpa [firstBlock, Buf.fromString] using hlt),
        List.getElem_map, List.getElem_range, hget _ hlt, if_neg (by omega)]
    · intro hfits
      refine List.ext_getElem (by simp [firstBlock, Buf.fromString]) fun j _ hj => ?_
      rw [List.getElem_map, List.getElem_range, hget j hj]
      split_ifs with hlt
      · rfl
      · refine (hfits _ (List.mem_drop_iff_getElem.mpr ⟨j - bs, by omega, ?_⟩)).symm
        congr 1
        omega
  unfold Buf.toString
  rw [← hlist]
  constructor
  · exact fun hdecode => (Utf8.encode_of_decode hdecode).symm
  · intro heq
    rw [heq, Utf8.decode_encode]

/-- A symlink reads back and leads on as if its target stood there exactly when the target fits in a block. -/
theorem readsThrough_iff (v : Volume) (target path : Str) (w w' : World) (u : Unit) (hx : WellAccounted v w.disk)
    (h : symlink v.toFs target path w = .ok u w') :
    ReadsThrough v path target w'.disk ↔ Fits v.blockSize target := by
  obtain ⟨p, nm, ino, hparent, hlinked⟩ := symlink_ok h hx
  have hread := hlinked.gives_readlink hx hparent
  constructor
  · intro hthrough
    have heq := hthrough.readlink.unique hread
    exact toString_firstBlock.mp (Except.ok.inj heq).symm
  · intro hfits
    rw [← toString_firstBlock] at hfits
    have htext := hlinked.text.trans hfits
    refine ⟨hfits ▸ hread, fun path₁ path₂ follow more h₁ h₂ hmore => ⟨?_, fun path₀ j k q r h₀ hj hk hlt => ?_⟩⟩
    · exact ⟨_, _, gives_resolve hlinked.accounted, gives_resolve hlinked.accounted,
        (hlinked.resolve_through hx hparent htext h₁ h₂ hmore).map _⟩
    · exact gives_resolveInode_iff.mpr
        ⟨_, hlt, hlinked.derives_through hx hparent htext h₀ h₁ h₂ hmore hj hk⟩

/-- A link with a target of `n` bytes on the sample image. -/
def sampleLink (n : Nat) : EStateM.Result Error World Unit :=
  symlink sampleVolume.toFs (List.replicate n 'a') "/l".toList sampleWorld

theorem value_sampleLink : value (sampleLink 1024) = some () ∧ value (sampleLink 1025) = some () := by
  decide +kernel

theorem readsThrough_iff_block : ReadsThrough sampleVolume "/l".toList (List.replicate 1024 'a')
    (final (sampleLink 1024)).disk ↔ Fits sampleVolume.blockSize (List.replicate 1024 'a') := by
  have hrun : sampleLink 1024 = .ok () (final (sampleLink 1024)) := eq_ok_of_value value_sampleLink.1
  exact readsThrough_iff sampleVolume _ _ sampleWorld _ () accounted_sample hrun

theorem encode_replicate (n : Nat) : Utf8.encode (List.replicate n 'a') = List.replicate n 97 := by
  induction n with
  | zero => rfl
  | succ n ih =>
      rw [List.replicate_succ, Utf8.encode_cons, ih]
      rfl

theorem not_fits_long : ¬Fits 1024 (List.replicate 1025 'a') := by
  intro hfits
  have hmem : (97 : UInt8) ∈ (Utf8.encode (List.replicate 1025 'a')).drop 1024 := by
    rw [encode_replicate, List.drop_replicate]
    exact List.mem_replicate.mpr ⟨by decide, rfl⟩
  exact absurd (hfits 97 hmem) (by decide)

/-- One byte more: `symlink!` returns, and the target does not read back. -/
theorem not_readsThrough_long : value (sampleLink 1025) = some () ∧
    ¬ReadsThrough sampleVolume "/l".toList (List.replicate 1025 'a') (final (sampleLink 1025)).disk := by
  have hvalue := value_sampleLink.2
  have hrun : sampleLink 1025 = .ok () (final (sampleLink 1025)) := eq_ok_of_value hvalue
  refine ⟨hvalue, fun hthrough => ?_⟩
  obtain ⟨p, nm, ino, hparent, hlinked⟩ := symlink_ok hrun accounted_sample
  have heq := hthrough.readlink.unique (hlinked.gives_readlink accounted_sample hparent)
  exact not_fits_long (toString_firstBlock.mp (Except.ok.inj heq).symm)

end Beeros.Ext2
