import Beeros.Ext2Image

/-! An operation on one inode takes several writes, and the image is not well-accounted between them.
`Editing` follows such a run: the accounts are kept with a row for the inode that the disk does not show
yet, and with the blocks that belong to nobody in between. -/

namespace Beeros.Ext2

open Memory Exec

variable {v : Volume} {x x' x'' : Vol} {p : Nat} {t : Node} {L l : List Nat} {δ δ' : Nat → Int}

/-! ### What other inodes keep -/

/-- The inodes in use outside `ps` keep their records and their blocks. -/
def Kept (v : Volume) (x x' : Vol) (ps : List Nat) : Prop :=
  ∀ i, v.inUse x i → i ∉ ps → x'.inode i = x.inode i ∧
    ∀ b ∈ (x.node v.toFs i).refs v.toFs x.block, x'.block b = x.block b

theorem kept_refl (v : Volume) (x : Vol) : Kept v x x [] := fun _ _ _ => ⟨rfl, fun _ _ => rfl⟩

theorem Accounted.kept (h : Accounted v x δ) (hf : Frame v x x' p) : Kept v x x' [p] := by
  intro i hi hip
  have hne : i ≠ p := fun he => hip (List.mem_singleton.mpr he)
  exact ⟨hf.inode i hne, fun b hb => h.frame_block hf hi hne hb⟩

section Kept

variable {ps qs : List Nat} {i : Nat}

theorem Kept.node (h : Kept v x x' ps) (hi : v.inUse x i) (hip : i ∉ ps) :
    x'.node v.toFs i = x.node v.toFs i := node_congr (h i hi hip).1

theorem Kept.inUse (h : Kept v x x' ps) (hi : v.inUse x i) (hip : i ∉ ps) : v.inUse x' i :=
  (inUse_congr (h i hi hip).1).mpr hi

theorem Kept.trans (h : Kept v x x' ps) (h' : Kept v x' x'' qs) : Kept v x x'' (ps ++ qs) := by
  intro i hi hip
  rw [List.mem_append, not_or] at hip
  obtain ⟨hin, hbl⟩ := h i hi hip.1
  obtain ⟨hin', hbl'⟩ := h' i (h.inUse hi hip.1) hip.2
  refine ⟨hin'.trans hin, fun b hb => ?_⟩
  rw [hbl' b, hbl b hb]
  rw [node_congr hin, refs_congr hbl]
  exact hb

theorem Kept.mono (h : Kept v x x' ps) (hps : ∀ i ∈ ps, i ∈ qs) : Kept v x x' qs :=
  fun i hi hip => h i hi fun hi' => hip (hps i hi')

end Kept

/-! ### An edit under way -/

/-- `x'` is reached from the accounted `x` by writes for the inode `p` alone. The accounts of `x'` are
right with `t` for the row of `p` and with the blocks `L` marked but in no map. -/
structure Editing (v : Volume) (x x' : Vol) (p : Nat) (t : Node) (L : List Nat) (δ : Nat → Int) :
    Prop where
  base : ∃ δ₀, Accounted v x δ₀
  books : Books v ((v.table x).set p (some t)) x' L δ
  frame : Frame v x x' p

theorem Frame.refl (v : Volume) (x : Vol) (p : Nat) : Frame v x x p :=
  ⟨fun _ _ => rfl, fun _ _ _ => rfl, rfl⟩

theorem Table.set_eq_self {s : Table} {o : Option Node} (h : s p = o) : s.set p o = s := by
  subst h
  exact Function.update_eq_self p s

theorem Accounted.edit (h : Accounted v x δ) (hp : v.inUse x p) :
    Editing v x x p (v.row x.block (x.node v.toFs p)) [] δ := by
  refine ⟨⟨δ, h⟩, ?_, Frame.refl v x p⟩
  rw [Table.set_eq_self (table_of_inUse hp)]
  exact h.books

/-- The row with other blocks. -/
def Node.withRefs (t : Node) (l : List Nat) : Node := { t with refs := l }

/-- A marked block of the old image that is not of `p` is nobody's to write. -/
theorem Editing.other (h : Editing v x x' p t L δ) {b : Nat} (hb : b ∉ (v.table x).refs p)
    (hbit : x.blockBit b = true) : x'.blockBit b = true ∧ b ∉ L ∧ b ∉ t.refs := by
  obtain ⟨δ₀, h₀⟩ := h.base
  obtain ⟨hr, hmeta | hL | ⟨j, hj⟩⟩ := (h₀.books.blocks.bit b).mp hbit
  · refine ⟨(h.books.blocks.bit b).mpr ⟨hr, .inl hmeta⟩, fun hL => ?_, fun ht => ?_⟩
    · exact hmeta (h.books.blocks.loose b hL)
    · refine hmeta (h.books.blocks.data p b ?_)
      rw [Table.refs_of Table.set_self]
      exact ht
  · cases hL
  · have hjp : j ≠ p := fun he => hb (he ▸ hj)
    have hj' : b ∈ ((v.table x).set p (some t)).refs j := by
      rwa [Table.refs_set, if_neg hjp]
    refine ⟨(h.books.blocks.bit_of_ref hj').2, fun hL => ?_, fun ht => ?_⟩
    · exact (List.nodup_append.mp (h.books.blocks.nodup j)).2.2 b hj' b hL rfl
    · refine hjp (h.books.blocks.apart j p b hj' ?_)
      rw [Table.refs_of Table.set_self]
      exact ht

/-- A new row on paper. -/
theorem Editing.set (h : Editing v x x' p t L δ) (t' : Node) (L' : List Nat) (hdir : t'.dir = t.dir)
    (hrefs : (t'.refs ++ L').Perm (t.refs ++ L))
    (hnames : ∀ i ∈ t'.names, i = p ∨ v.inUse x i)
    (hδ : ∀ i, δ' i = δ i + t.names.count i - t'.names.count i +
      if i = p then (t'.links : Int) - t.links else 0) : Editing v x x' p t' L' δ' := by
  refine ⟨h.base, ?_, h.frame⟩
  have hbooks := h.books.set (Table.set_self) hdir hrefs (fun i hi => ?_) hδ
  · unfold Table.set at hbooks
    rwa [Function.update_idem] at hbooks
  · by_cases hip : i = p
    · rw [hip, Table.set_self]
      rfl
    · rw [Table.set_of_ne hip, table_of_inUse ((hnames i hi).resolve_left hip)]
      rfl

theorem Editing.named (h : Editing v x x' p t L δ) : ∀ i ∈ t.names, i = p ∨ v.inUse x i := by
  intro i hi
  by_cases hip : i = p
  · exact .inl hip
  · have hsome := h.books.names.named p i (by rwa [Table.names_of Table.set_self])
    rw [Table.set_of_ne hip] at hsome
    exact .inr (inUse_of_isSome hsome)

/-- Other blocks on paper, the row as it is otherwise. -/
theorem Editing.setRefs (h : Editing v x x' p t L δ) (l L' : List Nat)
    (hrefs : (l ++ L').Perm (t.refs ++ L)) :
    Editing v x x' p (t.withRefs l) L' δ := by
  refine h.set _ _ rfl hrefs h.named fun i => ?_
  show δ i = δ i + t.names.count i - t.names.count i + if i = p then (t.links : Int) - t.links else 0
  split_ifs <;> omega

theorem Editing.free (h : Editing v x x' p t (l ++ L) δ) (ht : Taken v x'' x' l) :
    Editing v x x'' p t L δ := by
  refine ⟨h.base, h.books.free ht, fun i hi => ?_, fun b hb hbit => ?_, ?_⟩
  · rw [← h.frame.inode i hi, ht.inode]
  · rw [← h.frame.block b hb hbit, ht.block]
  · rw [← h.frame.static, ht.sbStatic]

theorem Editing.rewrote (h : Editing v x x' p t L δ) (hr : Rewrote x' x'' l)
    (hl : ∀ b ∈ l, b ∈ L ∨ b ∈ t.refs) : Editing v x x'' p t L δ := by
  refine ⟨h.base, hr.books h.books, fun i hi => ?_, fun b hb hbit => ?_, ?_⟩
  · rw [← h.frame.inode i hi, hr.rest]
    rfl
  · have hother := h.other hb hbit
    rw [← h.frame.block b hb hbit]
    exact hr.block b fun hbl => (hl b hbl).elim hother.2.1 hother.2.2
  · rw [← h.frame.static, hr.rest]
    rfl

theorem Editing.wrote (h : Editing v x x' p t L δ) (hw : Wrote v x' x'' l) :
    Editing v x x'' p t (l ++ L) δ := by
  obtain ⟨y, ht, hr⟩ := hw
  have hy : Editing v x y p t (l ++ L) δ := by
    refine ⟨h.base, h.books.take ht, fun i hi => ?_, fun b hb hbit => ?_, ?_⟩
    · rw [← h.frame.inode i hi, ht.inode]
    · rw [← h.frame.block b hb hbit, ht.block]
    · rw [← h.frame.static, ht.sbStatic]
  exact hy.rewrote hr fun b hb => .inl (List.mem_append_left _ hb)

theorem Editing.updated {i : Inode} (h : Editing v x x' p t L δ) (hu : Updated v x' x'' p i) :
    Editing v x x'' p t L δ := by
  refine ⟨h.base, hu.books h.books, fun j hj => ?_, fun b hb hbit => ?_, ?_⟩
  · rw [← h.frame.inode j hj, hu.inode hj]
  · rw [← h.frame.block b hb hbit, hu.block]
  · rw [← h.frame.static, hu.frame.static]

/-- The edit is over when the disk shows the row. -/
theorem Editing.done (h : Editing v x x' p t [] δ) (hp : v.inUse x' p)
    (hrow : v.row x'.block (x'.node v.toFs p) = t) (hsound : Sound v x'.block (x'.node v.toFs p))
    (hroot : p = rootIno → (x'.node v.toFs p).type = .dir) : Accounted v x' δ := by
  obtain ⟨δ₀, h₀⟩ := h.base
  refine h₀.close h.frame h.books ?_ (fun _ => hsound) hroot
  rw [table_of_inUse hp, hrow]

theorem Editing.kept (h : Editing v x x' p t L δ) : Kept v x x' [p] := by
  obtain ⟨δ₀, h₀⟩ := h.base
  exact h₀.kept h.frame

theorem Editing.metaMarked (h : Editing v x x' p t L δ) : MetaMarked v x' := h.books.metaMarked

end Beeros.Ext2
