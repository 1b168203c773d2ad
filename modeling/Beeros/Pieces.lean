import Mathlib.Data.List.Basic

/-! Texts made of pieces, each after a separator: which pieces a text has, and when the pieces of one text are
the first ones of another's. -/

namespace Pieces

variable {α : Type} {sep : α}

/-- The pieces, each after a separator. -/
def joined (sep : α) (cs : List (List α)) : List α := cs.flatMap (sep :: ·)

/-- No piece has a separator in it. -/
def Plain (sep : α) (cs : List (List α)) : Prop := ∀ c ∈ cs, sep ∉ c

/-- Where a piece ends. -/
def Stops (sep : α) (r : List α) : Prop := r = [] ∨ ∃ t, r = sep :: t

variable {c d r r' : List α} {cs ds : List (List α)}

theorem joined_cons (sep : α) (c : List α) (cs : List (List α)) :
    joined sep (c :: cs) = sep :: (c ++ joined sep cs) := rfl

theorem joined_append (sep : α) (cs ds : List (List α)) :
    joined sep (cs ++ ds) = joined sep cs ++ joined sep ds := List.flatMap_append

theorem stops_joined (sep : α) (cs : List (List α)) : Stops sep (joined sep cs) := by
  cases cs with
  | nil => exact Or.inl rfl
  | cons c cs => exact Or.inr ⟨c ++ joined sep cs, rfl⟩

theorem Stops.append (h : Stops sep r) (h' : Stops sep r') : Stops sep (r ++ r') := by
  rcases h with rfl | ⟨t, rfl⟩
  · exact h'
  · exact Or.inr ⟨t ++ r', rfl⟩

/-- Two pieces are the same when what follows each of them starts with a separator. -/
theorem append_unique (hc : sep ∉ c) (hd : sep ∉ d) (hr : Stops sep r) (hr' : Stops sep r')
    (h : c ++ r = d ++ r') : c = d ∧ r = r' := by
  induction c generalizing d with
  | nil =>
      cases d with
      | nil => exact ⟨rfl, h⟩
      | cons a d =>
          rw [List.nil_append] at h
          rcases hr with rfl | ⟨t, rfl⟩
          · cases h
          · cases h
            exact absurd List.mem_cons_self hd
  | cons a c ih =>
      cases d with
      | nil =>
          rw [List.nil_append] at h
          rcases hr' with rfl | ⟨t, rfl⟩
          · cases h
          · cases h
            exact absurd List.mem_cons_self hc
      | cons b d =>
          obtain ⟨rfl, htail⟩ := List.cons.inj h
          obtain ⟨rfl, heq⟩ := ih (fun hmem => hc (List.mem_cons_of_mem a hmem))
            (fun hmem => hd (List.mem_cons_of_mem a hmem)) htail
          exact ⟨rfl, heq⟩

/-- The text goes on after the pieces `cs` with the rest of its own. -/
theorem exists_rest (hcs : Plain sep cs) (hds : Plain sep ds) (hr : Stops sep r)
    (h : joined sep cs ++ r = joined sep ds) : ∃ es, ds = cs ++ es ∧ r = joined sep es := by
  induction cs generalizing ds with
  | nil => exact ⟨ds, rfl, h⟩
  | cons c cs ih =>
      cases ds with
      | nil => cases h
      | cons d ds =>
          rw [joined_cons, joined_cons, List.cons_append, List.append_assoc] at h
          obtain ⟨rfl, heq⟩ := append_unique (hcs c List.mem_cons_self) (hds d List.mem_cons_self)
            ((stops_joined sep cs).append hr) (stops_joined sep ds) (List.cons.inj h).2
          obtain ⟨es, rfl, hes⟩ := ih (fun c hc => hcs c (List.mem_cons_of_mem _ hc))
            (fun d hd => hds d (List.mem_cons_of_mem _ hd)) heq
          exact ⟨es, rfl, hes⟩

theorem joined_inj (hcs : Plain sep cs) (hds : Plain sep ds) (h : joined sep cs = joined sep ds) : cs = ds := by
  obtain ⟨es, rfl, hes⟩ := exists_rest (r := []) hcs hds (Or.inl rfl) (by rw [List.append_nil]; exact h)
  cases es with
  | nil => rw [List.append_nil]
  | cons e es => cases hes

variable [BEq α] [LawfulBEq α]

theorem plain_splitOn (sep : α) (s : List α) : Plain sep (s.splitOn sep) := by
  induction s with
  | nil =>
      intro c hc
      rw [List.splitOn_nil, List.mem_singleton] at hc
      rw [hc]
      exact List.not_mem_nil
  | cons a s ih =>
      intro c hc
      rw [List.splitOn_cons_eq_if_modifyHead] at hc
      split_ifs at hc with ha
      · rcases List.mem_cons.mp hc with rfl | hc
        · exact List.not_mem_nil
        · exact ih c hc
      · cases hs : s.splitOn sep with
        | nil => exact absurd hs (List.splitOn_ne_nil sep s)
        | cons b bs =>
            rw [hs, List.modifyHead_cons] at hc
            rw [hs] at ih
            rcases List.mem_cons.mp hc with rfl | hc
            · intro hmem
              rcases List.mem_cons.mp hmem with rfl | hmem
              · exact ha (beq_self_eq_true _)
              · exact ih b List.mem_cons_self hmem
            · exact ih c (List.mem_cons_of_mem _ hc)

theorem joined_splitOn (sep : α) (s : List α) : joined sep (s.splitOn sep) = sep :: s := by
  induction s with
  | nil => rfl
  | cons a s ih =>
      rw [List.splitOn_cons_eq_if_modifyHead]
      split_ifs with ha
      · rw [joined_cons, ih, List.nil_append, eq_of_beq ha]
      · cases hs : s.splitOn sep with
        | nil => exact absurd hs (List.splitOn_ne_nil sep s)
        | cons b bs =>
            rw [hs, joined_cons] at ih
            rw [List.modifyHead_cons, joined_cons, List.cons_append, (List.cons.inj ih).2]

theorem splitOn_of_joined (hcs : Plain sep cs) {s : List α} (h : joined sep cs = sep :: s) : s.splitOn sep = cs :=
  joined_inj (plain_splitOn sep s) hcs ((joined_splitOn sep s).trans h.symm)

end Pieces
