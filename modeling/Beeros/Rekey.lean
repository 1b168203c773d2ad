import Mathlib.Data.List.AList

/-! Maps whose entries are put under new keys one after the other: of the entries that come to one key, the last in
the map's order stays. What holds for one order of the entries and what for every order. -/

namespace Rekey

variable {α β : Type} [DecidableEq α]

abbrev Table (α β : Type) [DecidableEq α] := AList fun _ : α => β

def place (f : α → α) (acc : Table α β) (e : Sigma fun _ : α => β) : Table α β := acc.insert (f e.1) e.2

/-- The table with every key `k` changed to `f k`. -/
def rekey (f : α → α) (m : Table α β) : Table α β := m.entries.foldl (place f) ∅

/-- The same entries, in an order of their own. -/
def Same (m m' : Table α β) : Prop := m'.entries.Perm m.entries

/-- The entry comes to `p`. -/
def Comes (f : α → α) (p : α) (e : Sigma fun _ : α => β) : Bool := decide (f e.1 = p)

variable {f : α → α} {m m' : Table α β} {k p : α} {v : β}

theorem Same.refl (m : Table α β) : Same m m := List.Perm.refl _

theorem Same.lookup (h : Same m m') (k : α) : m'.lookup k = m.lookup k := AList.perm_lookup h

theorem mem_of_lookup (h : m.lookup k = some v) : k ∈ m := by
  rw [← AList.lookup_isSome, h]
  rfl

theorem lookup_of_mem (h : k ∈ m) : ∃ v, m.lookup k = some v :=
  Option.isSome_iff_exists.mp (AList.lookup_isSome.mpr h)

theorem lookup_iff : m.lookup k = some v ↔ ⟨k, v⟩ ∈ m.entries := AList.mem_lookup_iff

/-! ### What comes to a key -/

theorem lookup_foldl (es : List (Sigma fun _ : α => β)) (acc : Table α β) :
    (es.foldl (place f) acc).lookup p =
      ((es.reverse.find? (Comes f p)).map Sigma.snd).or (acc.lookup p) := by
  induction es generalizing acc with
  | nil => rfl
  | cons e es ih =>
      rw [List.foldl_cons, ih, List.reverse_cons, List.find?_append]
      cases es.reverse.find? (Comes f p) with
      | some _ => rfl
      | none =>
          rw [Option.map_none, Option.none_or, Option.none_or, List.find?_singleton]
          by_cases he : f e.1 = p
          · rw [show Comes f p e = true from decide_eq_true he, if_pos rfl, place, he, AList.lookup_insert]
            rfl
          · rw [show Comes f p e = false from decide_eq_false he, if_neg Bool.false_ne_true, place,
              AList.lookup_insert_ne (Ne.symm he)]
            rfl

theorem lookup_rekey :
    (rekey f m).lookup p = (m.entries.reverse.find? (Comes f p)).map Sigma.snd := by
  unfold rekey
  rw [lookup_foldl, AList.lookup_empty, Option.or_none]

theorem source_of_lookup (h : (rekey f m).lookup p = some v) : ∃ k, m.lookup k = some v ∧ f k = p := by
  rw [lookup_rekey] at h
  obtain ⟨e, he, rfl⟩ := Option.map_eq_some_iff.mp h
  exact ⟨e.1, lookup_iff.mpr (List.mem_reverse.mp (List.mem_of_find?_eq_some he)),
    of_decide_eq_true (List.find?_some he : Comes f p e = true)⟩

theorem exists_lookup (h : m.lookup k = some v) : ∃ v', (rekey f m).lookup (f k) = some v' := by
  rw [lookup_rekey]
  cases hf : m.entries.reverse.find? (Comes f (f k)) with
  | some e => exact ⟨e.2, rfl⟩
  | none =>
      have hmem : (⟨k, v⟩ : Sigma fun _ : α => β) ∈ m.entries.reverse := List.mem_reverse.mpr (lookup_iff.mp h)
      have hne := List.find?_eq_none.mp hf _ hmem
      exact absurd (decide_eq_true rfl) hne

/-- All that comes to a key is the same. -/
theorem lookup_of_agree (h : m.lookup k = some v)
    (hagree : ∀ k' v', m.lookup k' = some v' → f k' = f k → v' = v) : (rekey f m).lookup (f k) = some v := by
  obtain ⟨v', hv'⟩ := exists_lookup (f := f) h
  obtain ⟨k', hk', hf⟩ := source_of_lookup hv'
  rw [hv', hagree k' v' hk' hf]

theorem mem_rekey : p ∈ rekey f m ↔ ∃ k ∈ m, f k = p := by
  constructor
  · intro h
    obtain ⟨v, hv⟩ := lookup_of_mem h
    obtain ⟨k, hk, hf⟩ := source_of_lookup hv
    exact ⟨k, mem_of_lookup hk, hf⟩
  · rintro ⟨k, hk, rfl⟩
    obtain ⟨v, hv⟩ := lookup_of_mem hk
    obtain ⟨v', hv'⟩ := exists_lookup (f := f) hv
    exact mem_of_lookup hv'

/-! ### The choice of an order -/

/-- The entries with `q` come last. -/
theorem exists_order (f : α → α) (m : Table α β) (q : α → β → Bool) :
    ∃ m', Same m m' ∧ ∀ p v, (rekey f m').lookup p = some v →
      ∃ k, m.lookup k = some v ∧ f k = p ∧
        (q k v = true ∨ ∀ k' v', m.lookup k' = some v' → f k' = p → q k' v' = false) := by
  have hperm : (m.entries.filter (fun e => !q e.1 e.2) ++ m.entries.filter fun e => q e.1 e.2).Perm m.entries :=
    List.perm_append_comm.trans (List.filter_append_perm (fun e => q e.1 e.2) m.entries)
  refine ⟨⟨_, (List.perm_nodupKeys hperm).mpr m.nodupKeys⟩, hperm, fun p v h => ?_⟩
  rw [lookup_rekey, List.reverse_append, List.find?_append] at h
  cases hlast : (m.entries.filter fun e => q e.1 e.2).reverse.find? (Comes f p) with
  | some e =>
      rw [hlast] at h
      cases h
      have hmem := List.mem_filter.mp (List.mem_reverse.mp (List.mem_of_find?_eq_some hlast))
      exact ⟨e.1, lookup_iff.mpr hmem.1,
        of_decide_eq_true (List.find?_some hlast : Comes f p e = true), .inl hmem.2⟩
  | none =>
      rw [hlast, Option.none_or] at h
      obtain ⟨e, he, rfl⟩ := Option.map_eq_some_iff.mp h
      have hmem := List.mem_filter.mp (List.mem_reverse.mp (List.mem_of_find?_eq_some he))
      refine ⟨e.1, lookup_iff.mpr hmem.1,
        of_decide_eq_true (List.find?_some he : Comes f p e = true), .inr fun k' v' hk' hf => ?_⟩
      by_contra hq
      have hin : ⟨k', v'⟩ ∈ (m.entries.filter fun e => q e.1 e.2).reverse :=
        List.mem_reverse.mpr (List.mem_filter.mpr ⟨lookup_iff.mp hk', eq_true_of_ne_false hq⟩)
      exact List.find?_eq_none.mp hlast _ hin (decide_eq_true hf)

/-- An order in which the entry of `k` stays. -/
theorem exists_order_keeping (f : α → α) (h : m.lookup k = some v) :
    ∃ m', Same m m' ∧ (rekey f m').lookup (f k) = some v := by
  obtain ⟨m', hsame, hm'⟩ := exists_order f m fun k' _ => decide (k' = k)
  refine ⟨m', hsame, ?_⟩
  obtain ⟨v', hv'⟩ := exists_lookup (f := f) ((hsame.lookup k).trans h)
  obtain ⟨k', hk', -, hlast⟩ := hm' (f k) v' hv'
  rcases hlast with heq | hnone
  · rw [of_decide_eq_true heq, h] at hk'
    rw [hv', hk']
  · exact absurd rfl (of_decide_eq_false (hnone k v h rfl))

end Rekey
