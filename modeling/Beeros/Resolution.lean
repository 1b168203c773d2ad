import Mathlib.Tactic.SplitIfs

/-! Names looked up in a tree with symbolic links, by rules. What a node holds is a relation, so that
the tree can be one that is read from somewhere. -/

namespace Resolution

variable {Node Name : Type}

structure Tree (Node Name : Type) where
  root : Node
  isDir : Node → Prop
  isLink : Node → Prop
  /-- The directory has an entry of that name for the node. -/
  entry : Node → Name → Node → Prop
  /-- The target of a link: whether it is absolute, and its components. -/
  target : Node → Bool → List Name → Prop

/-- `Resolves T follow cur comps k r`: from `cur` the components lead to `r` over `k` links. A link in the
last place is followed only where `follow` says so. -/
inductive Resolves (T : Tree Node Name) (follow : Bool) : Node → List Name → Nat → Node → Prop
  | done {cur : Node} : Resolves T follow cur [] 0 cur
  | step {cur child r : Node} {nm : Name} {more : List Name} {k : Nat} (hdir : T.isDir cur)
      (hentry : T.entry cur nm child) (hlink : ¬(T.isLink child ∧ (follow ∨ more ≠ [])))
      (h : Resolves T follow child more k r) : Resolves T follow cur (nm :: more) k r
  | link {cur child r : Node} {nm : Name} {more comps : List Name} {absolute : Bool} {k : Nat}
      (hdir : T.isDir cur) (hentry : T.entry cur nm child)
      (hlink : T.isLink child ∧ (follow ∨ more ≠ [])) (htarget : T.target child absolute comps)
      (h : Resolves T follow (if absolute then T.root else cur) (comps ++ more) k r) :
      Resolves T follow cur (nm :: more) (k + 1) r

/-- A name leads to one node, and a link has one target. -/
structure Tree.Functional (T : Tree Node Name) : Prop where
  entry : ∀ {cur nm child child'}, T.entry cur nm child → T.entry cur nm child' → child = child'
  target : ∀ {n absolute absolute' comps comps'}, T.target n absolute comps →
    T.target n absolute' comps' → absolute = absolute' ∧ comps = comps'

variable {T : Tree Node Name} {follow : Bool} {cur r r' : Node} {comps : List Name} {k k' : Nat}

/-- The rules lead to one node. -/
theorem Resolves.unique (hT : T.Functional) (h : Resolves T follow cur comps k r)
    (h' : Resolves T follow cur comps k' r') : k = k' ∧ r = r' := by
  induction h generalizing k' with
  | done =>
      cases h'
      exact ⟨rfl, rfl⟩
  | step _ hentry hlink _ ih =>
      cases h' with
      | step _ hentry' _ h' =>
          obtain rfl := hT.entry hentry hentry'
          exact ih h'
      | link _ hentry' hlink' _ _ =>
          obtain rfl := hT.entry hentry hentry'
          exact absurd hlink' hlink
  | link _ hentry hlink htarget _ ih =>
      cases h' with
      | step _ hentry' hlink' _ =>
          obtain rfl := hT.entry hentry hentry'
          exact absurd hlink hlink'
      | link _ hentry' _ htarget' h' =>
          obtain rfl := hT.entry hentry hentry'
          obtain ⟨rfl, rfl⟩ := hT.target htarget htarget'
          obtain ⟨rfl, rfl⟩ := ih h'
          exact ⟨rfl, rfl⟩

section Append

variable {q : Node} {tail : List Name} (htail : follow = true ∨ tail ≠ [])

include htail

/-- One way after the other. -/
theorem Resolves.append (h : Resolves T true cur comps k q) (h' : Resolves T follow q tail k' r) :
    Resolves T follow cur (comps ++ tail) (k + k') r := by
  induction h with
  | done =>
      rw [Nat.zero_add]
      exact h'
  | step hdir hentry hlink _ ih =>
      exact .step hdir hentry (fun hl => hlink ⟨hl.1, .inl rfl⟩) (ih h')
  | link hdir hentry hlink htarget _ ih =>
      rw [Nat.add_right_comm, List.cons_append]
      refine .link hdir hentry ⟨hlink.1, htail.imp_right fun hne hnil => ?_⟩ htarget ?_
      · exact hne (List.append_eq_nil_iff.mp hnil).2
      · rw [← List.append_assoc]
        exact ih h'

/-- The rest of a longer way. -/
theorem Resolves.of_append (hT : T.Functional) (h : Resolves T true cur comps k q)
    (h' : Resolves T follow cur (comps ++ tail) k' r) :
    ∃ left, k' = k + left ∧ Resolves T follow q tail left r := by
  induction h generalizing k' with
  | done => exact ⟨k', (Nat.zero_add k').symm, h'⟩
  | @step cur child q nm more k _ hentry hlink _ ih =>
      cases h' with
      | step _ hentry' _ h' =>
          obtain rfl := hT.entry hentry hentry'
          exact ih h'
      | link _ hentry' hlink' _ _ =>
          obtain rfl := hT.entry hentry hentry'
          exact absurd ⟨hlink'.1, .inl rfl⟩ hlink
  | @link cur child q nm more comps absolute k _ hentry hlink htarget _ ih =>
      cases h' with
      | step _ hentry' hlink' _ =>
          obtain rfl := hT.entry hentry hentry'
          refine absurd ⟨hlink.1, htail.imp_right fun hne hnil => ?_⟩ hlink'
          exact hne (List.append_eq_nil_iff.mp hnil).2
      | link _ hentry' _ htarget' h' =>
          obtain rfl := hT.entry hentry hentry'
          obtain ⟨rfl, rfl⟩ := hT.target htarget htarget'
          rw [List.append_eq, ← List.append_assoc] at h'
          obtain ⟨left, rfl, hleft⟩ := ih h'
          exact ⟨left, Nat.add_right_comm _ _ _, hleft⟩

end Append

end Resolution
