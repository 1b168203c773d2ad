import Mathlib.Data.List.Induction
import Beeros.Pieces
import Beeros.TarCache
import Beeros.UstarPax

/-! Listing and stat inside an archive (`tar-op` in `lib/fs.beer`). Directories are entries, or begins of the names
of entries; `:ls` and `:stat` work them out anew from the names that `beer.ustar/index` kept. -/

namespace Beeros.TarCache

open Pieces

/-- A path with components that are not empty. -/
def Neat (k : Str) : Prop := ∀ c ∈ k.splitOn '/', c ≠ []

/-- A path inside an archive, as `split-tar` makes it. -/
def Inner (inner : Str) : Prop := inner = [] ∨ Neat inner

/-- `inner/n`. -/
def child (inner n : Str) : Str := if inner = [] then n else inner ++ '/' :: n

variable {t : Cached} {inner n : Str} {ns : List Str}

/-- `pre` of `:ls`. -/
def preOf (inner : Str) : Str := if inner = [] then [] else inner ++ ['/']

/-- What `:ls` of a directory gives. -/
def namesBelow (t : Cached) (inner : Str) : List Str :=
  (((t.index.keys.filter fun n => (preOf inner).isPrefixOf n && n != preOf inner).map fun n =>
    ((n.drop (preOf inner).length).splitOn '/').headD []).eraseDups).mergeSort fun a b => decide (a ≤ b)

/-- `:ls` gives the names. -/
def Lists (t : Cached) (inner : Str) (ns : List Str) : Prop :=
  ∀ (ε : Type) (path tp : Str), tarResult (ε := ε) .ls path tp inner t = .ok (.names ns)

/-- `:stat` succeeds. -/
def Stats (t : Cached) (inner : Str) : Prop :=
  ∀ (ε : Type) (path tp : Str), ∃ st, tarResult (ε := ε) .stat path tp inner t = .ok (.stat st)

/-- What is found by descending from the archive's top. -/
inductive Reached (t : Cached) : Str → Prop
  | top : Reached t []
  | child {inner n : Str} {ns : List Str} (h : Reached t inner) (hls : Lists t inner ns) (hn : n ∈ ns) :
      Reached t (child inner n)

/-- Listing and stat agree. -/
structure Consistent (t : Cached) : Prop where
  listed : ∀ inner ns n, Inner inner → Lists t inner ns → n ∈ ns → n ≠ [] ∧ Stats t (child inner n)
  reached : ∀ k ∈ t.index.keys, Reached t k
  parent : ∀ inner n, Inner inner → n ≠ [] → '/' ∉ n → Stats t (child inner n) → ∃ ns, Lists t inner ns ∧ n ∈ ns

/-! ### Components -/

/-- The components of a path inside an archive; the top has none. -/
def parts (inner : Str) : List Str := if inner = [] then [] else inner.splitOn '/'

theorem joined_parts (inner : Str) : joined '/' (parts inner) ++ ['/'] = '/' :: preOf inner := by
  unfold parts preOf
  split_ifs
  · rfl
  · rw [joined_splitOn]
    rfl

theorem plain_parts (inner : Str) : Plain '/' (parts inner) := by
  unfold parts
  split_ifs
  · exact fun c hc => absurd hc List.not_mem_nil
  · exact plain_splitOn '/' inner

theorem splitOn_child (hn : '/' ∉ n) (inner : Str) : (child inner n).splitOn '/' = parts inner ++ [n] := by
  apply splitOn_of_joined
  · intro c hc
    rcases List.mem_append.mp hc with hc | hc
    · exact plain_parts inner c hc
    · rw [List.mem_singleton.mp hc]
      exact hn
  · have htext := joined_parts inner
    have hlast : joined '/' [n] = '/' :: n := by
      show '/' :: (n ++ []) = '/' :: n
      rw [List.append_nil]
    have happend : ['/'] ++ n = '/' :: n := rfl
    rw [joined_append, hlast, ← happend, ← List.append_assoc, htext]
    unfold child preOf
    split_ifs
    · rfl
    · rw [List.cons_append, List.append_assoc]
      rfl

theorem child_ne_nil (hn : n ≠ []) (inner : Str) : child inner n ≠ [] := by
  unfold child
  split_ifs
  · exact hn
  · intro heq
    exact absurd (List.append_eq_nil_iff.mp heq).2 nofun

theorem parts_child (hn : n ≠ []) (hslash : '/' ∉ n) (inner : Str) :
    parts (child inner n) = parts inner ++ [n] := by
  rw [← splitOn_child hslash, parts, if_neg (child_ne_nil hn inner)]

theorem splitOn_inj {k k' : Str} (h : k.splitOn '/' = k'.splitOn '/') : k = k' := by
  have htext := joined_splitOn '/' k
  rw [h, joined_splitOn] at htext
  exact (List.cons.inj htext).2.symm

theorem neat_child (h : Inner inner) (hn : n ≠ []) (hslash : '/' ∉ n) : Neat (child inner n) := by
  unfold Neat
  rw [splitOn_child hslash]
  intro c hc
  rcases List.mem_append.mp hc with hc | hc
  · unfold parts at hc
    split_ifs at hc with hnil
    · exact absurd hc List.not_mem_nil
    · exact h.resolve_left hnil c hc
  · rw [List.mem_singleton.mp hc]
    exact hn

/-- The name starts with `inner/`; what follows are more components. -/
theorem pre_iff (inner k : Str) :
    preOf inner <+: k ↔ ∃ n es, k.splitOn '/' = parts inner ++ n :: es := by
  have hpre : preOf inner <+: k ↔ joined '/' (parts inner) ++ ['/'] <+: '/' :: k := by
    rw [joined_parts, List.cons_prefix_cons]
    exact ⟨fun h => ⟨rfl, h⟩, fun h => h.2⟩
  rw [hpre, ← joined_splitOn '/' k]
  constructor
  · rintro ⟨s, hs⟩
    rw [List.append_assoc] at hs
    obtain ⟨es, hes, hrest⟩ := exists_rest (plain_parts inner) (plain_splitOn '/' k) (Or.inr ⟨s, rfl⟩) hs
    cases es with
    | nil => cases hrest
    | cons n es => exact ⟨n, es, hes⟩
  · rintro ⟨n, es, hes⟩
    refine ⟨n ++ joined '/' es, ?_⟩
    rw [hes, joined_append, joined_cons, List.append_assoc]
    rfl

/-- The first component after `inner/`. -/
theorem drop_pre {k : Str} {es : List Str} (h : k.splitOn '/' = parts inner ++ n :: es) :
    ((k.drop (preOf inner).length).splitOn '/').headD [] = n := by
  have htext := joined_splitOn '/' k
  have hrest : joined '/' (n :: es) = '/' :: (n ++ joined '/' es) := rfl
  have hslash : ['/'] ++ (n ++ joined '/' es) = '/' :: (n ++ joined '/' es) := rfl
  rw [h, joined_append, hrest, ← hslash, ← List.append_assoc, joined_parts, List.cons_append] at htext
  have hk := (List.cons.inj htext).2
  rw [← hk, List.drop_left]
  have hplain : Plain '/' (n :: es) := by
    intro c hc
    have hall := plain_splitOn '/' k
    rw [h] at hall
    exact hall c (List.mem_append_right _ hc)
  rw [splitOn_of_joined hplain hrest]
  rfl

/-- The name is `inner/` itself. -/
theorem eq_pre_iff {k : Str} {es : List Str} (h : k.splitOn '/' = parts inner ++ n :: es) :
    k = preOf inner ↔ n = [] ∧ es = [] := by
  have hpre : (preOf inner).splitOn '/' = parts inner ++ [[]] := by
    apply splitOn_of_joined
    · intro c hc
      rcases List.mem_append.mp hc with hc | hc
      · exact plain_parts inner c hc
      · rw [List.mem_singleton.mp hc]
        exact List.not_mem_nil
    · rw [joined_append]
      exact joined_parts inner
  constructor
  · intro heq
    rw [heq, hpre] at h
    have hlast := List.append_cancel_left h
    cases hlast
    exact ⟨rfl, rfl⟩
  · rintro ⟨rfl, rfl⟩
    exact splitOn_inj (h.trans hpre.symm)

/-! ### What `:ls` and `:stat` give -/

theorem tarDir_iff (t : Cached) (inner : Str) : tarDir t.index inner = true ↔
    inner = [] ∨ (∃ e, t.index.lookup inner = some e ∧ e.type = .dir) ∨
      ∃ k ∈ t.index.keys, ∃ n es, k.splitOn '/' = parts inner ++ n :: es := by
  unfold tarDir
  rw [Bool.or_eq_true, Bool.or_eq_true, beq_iff_eq, Option.any_eq_true, List.any_eq_true, or_assoc]
  by_cases hnil : inner = []
  · exact ⟨fun _ => Or.inl hnil, fun _ => Or.inl hnil⟩
  · have hpre : ∀ k : Str, (inner ++ "/".toList).isPrefixOf k = true ↔
        ∃ n es, k.splitOn '/' = parts inner ++ n :: es := by
      intro k
      rw [List.isPrefixOf_iff_prefix, ← pre_iff, preOf, if_neg hnil]
      rfl
    constructor
    · rintro (h | ⟨e, he, htype⟩ | ⟨k, hk, hprefix⟩)
      · exact Or.inl h
      · exact Or.inr (Or.inl ⟨e, he, of_decide_eq_true htype⟩)
      · exact Or.inr (Or.inr ⟨k, hk, (hpre k).mp hprefix⟩)
    · rintro (h | ⟨e, he, htype⟩ | ⟨k, hk, hparts⟩)
      · exact Or.inl h
      · exact Or.inr (Or.inl ⟨e, he, decide_eq_true htype⟩)
      · exact Or.inr (Or.inr ⟨k, hk, (hpre k).mpr hparts⟩)

theorem tarLs_eq {ε : Type} (path inner : Str) (t : Cached) : tarLs (ε := ε) .ls path inner t =
    if tarDir t.index inner then .ok (.names (namesBelow t inner))
      else .error (.tar .ls path .notADirectory) := rfl

theorem lists_iff : Lists t inner ns ↔ tarDir t.index inner = true ∧ ns = namesBelow t inner := by
  constructor
  · intro h
    have hls := h Unit [] []
    change tarLs .ls [] inner t = _ at hls
    rw [tarLs_eq] at hls
    by_cases hdir : tarDir t.index inner = true
    · rw [if_pos hdir] at hls
      cases hls
      exact ⟨hdir, rfl⟩
    · rw [if_neg hdir] at hls
      cases hls
  · rintro ⟨hdir, rfl⟩ ε path tp
    exact (tarLs_eq path inner t).trans (if_pos hdir)

/-- The components that follow `inner` in the names of the archive. -/
theorem mem_namesBelow (t : Cached) (inner n : Str) : n ∈ namesBelow t inner ↔
    ∃ k ∈ t.index.keys, ∃ es, k.splitOn '/' = parts inner ++ n :: es ∧ ¬ (n = [] ∧ es = []) := by
  unfold namesBelow
  rw [List.mem_mergeSort, List.mem_eraseDups, List.mem_map]
  constructor
  · rintro ⟨k, hk, rfl⟩
    obtain ⟨hmem, hbelow⟩ := List.mem_filter.mp hk
    rw [Bool.and_eq_true, List.isPrefixOf_iff_prefix, bne_iff_ne] at hbelow
    obtain ⟨n, es, hparts⟩ := (pre_iff inner k).mp hbelow.1
    refine ⟨k, hmem, es, ?_⟩
    rw [drop_pre hparts, ← eq_pre_iff hparts]
    exact ⟨hparts, hbelow.2⟩
  · rintro ⟨k, hmem, es, hparts, hne⟩
    refine ⟨k, List.mem_filter.mpr ⟨hmem, ?_⟩, drop_pre hparts⟩
    rw [Bool.and_eq_true, List.isPrefixOf_iff_prefix, bne_iff_ne, Ne, eq_pre_iff hparts]
    exact ⟨(pre_iff inner k).mpr ⟨n, es, hparts⟩, hne⟩

/-- `:stat` finds the entries and the begins of their names. -/
theorem stats_iff (t : Cached) (inner : Str) : Stats t inner ↔
    inner = [] ∨ inner ∈ t.index.keys ∨ ∃ k ∈ t.index.keys, ∃ n es, k.splitOn '/' = parts inner ++ n :: es := by
  have hstat : Stats t inner ↔ tarDir t.index inner = true ∨ inner ∈ t.index.keys := by
    constructor
    · intro h
      obtain ⟨st, hst⟩ := h Unit [] []
      change tarStat .stat [] [] inner t = _ at hst
      unfold tarStat at hst
      cases hlookup : t.index.lookup inner with
      | some e => exact Or.inr (AList.mem_keys.mp (Rekey.mem_of_lookup hlookup))
      | none =>
          rw [hlookup] at hst
          by_cases hdir : tarDir t.index inner = true
          · exact Or.inl hdir
          · simp only [Option.filter_none, if_neg hdir] at hst
            cases hst
    · intro h ε path tp
      show ∃ st, tarStat .stat path tp inner t = _
      unfold tarStat
      cases hlookup : (t.index.lookup inner).filter fun e => decide (e.type ≠ .dir) with
      | some e => exact ⟨_, rfl⟩
      | none =>
          have hdir : tarDir t.index inner = true := by
            rcases h with h | h
            · exact h
            · obtain ⟨e, he⟩ := Rekey.lookup_of_mem (AList.mem_keys.mpr h)
              rw [he, Option.filter_some] at hlookup
              split_ifs at hlookup with htype
              have hisdir : e.type = .dir := by_contra fun hne => htype (decide_eq_true hne)
              exact (tarDir_iff t inner).mpr (Or.inr (Or.inl ⟨e, he, hisdir⟩))
          simp only [if_pos hdir]
          exact ⟨_, rfl⟩
  rw [hstat, tarDir_iff]
  constructor
  · rintro ((h | ⟨e, he, -⟩ | h) | h)
    · exact Or.inl h
    · exact Or.inr (Or.inl (AList.mem_keys.mp (Rekey.mem_of_lookup he)))
    · exact Or.inr (Or.inr h)
    · exact Or.inr (Or.inl h)
  · rintro (h | h | h)
    · exact Or.inl (Or.inl h)
    · exact Or.inr h
    · exact Or.inl (Or.inr (Or.inr h))

/-! ### Neat names -/

theorem inner_of_reached (h : Consistent t) {k : Str} (hk : Reached t k) : Inner k := by
  induction hk with
  | top => exact Or.inl rfl
  | @child inner n ns hreach hls hn ih =>
      obtain ⟨hne, -⟩ := h.listed inner ns n ih hls hn
      obtain ⟨-, rfl⟩ := lists_iff.mp hls
      obtain ⟨k, -, es, hparts, -⟩ := (mem_namesBelow t inner n).mp hn
      have hslash : '/' ∉ n := by
        have hplain := plain_splitOn '/' k
        rw [hparts] at hplain
        exact hplain n (List.mem_append_right _ List.mem_cons_self)
      exact Or.inr (neat_child ih hne hslash)

/-- What the first components of a name make is a directory, and lists the next one. -/
theorem lists_parts {k : Str} {es : List Str} (hk : k ∈ t.index.keys) (hneat : Neat k)
    (hparts : k.splitOn '/' = parts inner ++ n :: es) :
    n ≠ [] ∧ '/' ∉ n ∧ Lists t inner (namesBelow t inner) ∧ n ∈ namesBelow t inner := by
  have hmem : n ∈ k.splitOn '/' := by
    rw [hparts]
    exact List.mem_append_right _ List.mem_cons_self
  refine ⟨hneat n hmem, plain_splitOn '/' k n hmem, lists_iff.mpr ⟨?_, rfl⟩, ?_⟩
  · exact (tarDir_iff t inner).mpr (Or.inr (Or.inr ⟨k, hk, n, es, hparts⟩))
  · exact (mem_namesBelow t inner n).mpr ⟨k, hk, es, hparts, fun h => hneat n hmem h.1⟩

theorem stats_child {k : Str} {es : List Str} (hk : k ∈ t.index.keys) (hn : n ≠ []) (hslash : '/' ∉ n)
    (hparts : k.splitOn '/' = parts inner ++ n :: es) : Stats t (child inner n) := by
  refine (stats_iff t _).mpr (Or.inr ?_)
  cases es with
  | nil =>
      left
      rw [← splitOn_inj (hparts.trans (splitOn_child hslash inner).symm)]
      exact hk
  | cons e es =>
      right
      refine ⟨k, hk, e, es, ?_⟩
      rw [hparts, parts_child hn hslash, List.append_assoc]
      rfl

/-- What `:stat` finds is listed in its parent, whatever the names are. -/
theorem lists_of_stats (hn : n ≠ []) (hslash : '/' ∉ n) (h : Stats t (child inner n)) :
    ∃ ns, Lists t inner ns ∧ n ∈ ns := by
  have hbelow : ∃ k ∈ t.index.keys, ∃ es, k.splitOn '/' = parts inner ++ n :: es := by
    rcases (stats_iff t _).mp h with hnil | hmem | ⟨k, hk, e, es, hparts⟩
    · exact absurd hnil (child_ne_nil hn inner)
    · exact ⟨_, hmem, [], splitOn_child hslash inner⟩
    · rw [parts_child hn hslash, List.append_assoc] at hparts
      exact ⟨k, hk, e :: es, hparts⟩
  obtain ⟨k, hk, es, hparts⟩ := hbelow
  refine ⟨_, lists_iff.mpr ⟨?_, rfl⟩, (mem_namesBelow t inner n).mpr ⟨k, hk, es, hparts, fun h => hn h.1⟩⟩
  exact (tarDir_iff t inner).mpr (Or.inr (Or.inr ⟨k, hk, n, es, hparts⟩))

/-- A neat name is reached component by component. -/
theorem reached_of_neat (h : ∀ k ∈ t.index.keys, Neat k) {k : Str} (hk : k ∈ t.index.keys) : Reached t k := by
  have hdescend : ∀ is es, k.splitOn '/' = is ++ es → ∃ inner, parts inner = is ∧ Reached t inner := by
    intro is
    induction is using List.reverseRecOn with
    | nil => exact fun _ _ => ⟨[], rfl, .top⟩
    | append_singleton is n ih =>
        intro es hes
        rw [List.append_assoc] at hes
        obtain ⟨inner, rfl, hreach⟩ := ih (n :: es) hes
        obtain ⟨hne, hslash, hls, hn⟩ := lists_parts hk (h k hk) hes
        exact ⟨child inner n, parts_child hne hslash inner, .child hreach hls hn⟩
  obtain ⟨inner, hparts, hreach⟩ := hdescend (k.splitOn '/') [] (List.append_nil _).symm
  unfold parts at hparts
  split_ifs at hparts
  · exact absurd hparts.symm (List.splitOn_ne_nil _ _)
  · rw [← splitOn_inj hparts]
    exact hreach

theorem consistent_of_neat (h : ∀ k ∈ t.index.keys, Neat k) : Consistent t := by
  refine ⟨?_, fun k hk => reached_of_neat h hk, fun inner n _ hn hslash hstats => lists_of_stats hn hslash hstats⟩
  intro inner ns n _ hls hn
  obtain ⟨-, rfl⟩ := lists_iff.mp hls
  obtain ⟨k, hk, es, hparts, -⟩ := (mem_namesBelow t inner n).mp hn
  obtain ⟨hne, hslash, -, -⟩ := lists_parts hk (h k hk) hparts
  exact ⟨hne, stats_child hk hne hslash hparts⟩

/-! ### The names of an archive -/

section Archive

open Ustar

variable {buf : List UInt8} {readString : Str → Except Ustar.Failure Form} {toStringLossy : List UInt8 → Str}

theorem readHeader_names {st st' : Ustar.State} {flag : UInt8} {size : Int}
    (h : readHeader buf readString toStringLossy st flag size = .ok st') (hold : [] ∉ st.acc) : [] ∉ st'.acc := by
  unfold readHeader at h
  dsimp only at h
  split_ifs at h
  · obtain ⟨text, -, h⟩ := Beerlang.bind_eq_ok.mp h
    obtain ⟨nextSize, -, h⟩ := Beerlang.bind_eq_ok.mp h
    cases h
    exact hold
  · cases h
    exact hold
  · obtain ⟨name, -, h⟩ := Beerlang.bind_eq_ok.mp h
    cases h
    exact hold
  · obtain ⟨own, -, h⟩ := Beerlang.bind_eq_ok.mp h
    cases h
    dsimp only
    split_ifs with hskip
    · exact hold
    · intro hmem
      rcases (AList.mem_insert st.acc).mp hmem with heq | hmem
      · exact hskip (Or.inl heq.symm)
      · exact hold hmem

theorem loop_names {fuel : Nat} {st : Ustar.State} {acc : Index}
    (h : loop buf readString toStringLossy fuel st = some (.ok acc)) (hold : [] ∉ st.acc) : [] ∉ acc := by
  induction fuel generalizing st with
  | zero => cases h
  | succ fuel ih =>
      unfold loop at h
      split at h
      · cases h
      · rename_i acc' hround
        cases h
        rw [round_done hround]
        exact hold
      · rename_i st' hround
        obtain ⟨flag, size, -, -, -, -, hread⟩ := round_next hround
        exact ih h (readHeader_names hread hold)

/-- For every archive that `index` reads: listing and stat agree exactly when no name that it keeps starts or ends
with a slash or has two in a row. -/
theorem consistent_iff (buf : List UInt8) (readString : Str → Except Ustar.Failure Form)
    (toStringLossy : List UInt8 → Str) (fuel : Nat) (t : Cached)
    (hindex : Ustar.index buf readString toStringLossy fuel = some (.ok t.index)) :
    Consistent t ↔ ∀ k ∈ t.index.keys, Neat k := by
  refine ⟨fun h k hk => ?_, consistent_of_neat⟩
  have hne : k ≠ [] := by
    rintro rfl
    exact loop_names hindex (AList.notMem_empty []) (AList.mem_keys.mpr hk)
  exact (inner_of_reached h (h.reached k hk)).resolve_left hne

/-- The index of an archive that is the header of one empty file. -/
theorem index_single (h : Header) (hsize : OctalField h.size 0) (hflag : OfEntry h.flag) (full : Str)
    (hlisted : Listed full) (hfull : cleanName (h.own lossy) = full) :
    ∃ t : Cached, Ustar.index h.bytes readInt lossy 2 = some (.ok t.index) ∧ t.index.keys = [full] := by
  have hbuf : ([] : List UInt8) ++ (h.bytes ++ (padded [] ++ [])) = h.bytes := List.append_nil _
  have hround : Ustar.round ([] ++ (h.bytes ++ (padded [] ++ []))) readInt lossy Ustar.start = _ :=
    round_entry rfl hsize hflag hlisted hfull rfl
  rw [hbuf] at hround
  refine ⟨⟨(none, none, 0), h.bytes, (∅ : Index).insert full ⟨entryType h.flag, 0 + block, 0⟩⟩, ?_, rfl⟩
  unfold Ustar.index loop
  rw [hround]
  unfold loop Ustar.round
  rw [h.length_bytes]
  rfl

def emptyFile (name : List UInt8) (hname : name.length ≤ 100) : Header :=
  plainHeader name (sizeField "00000000000") 48 hname length_sizeField_zero

theorem octalField_emptyFile (name : List UInt8) (hname : name.length ≤ 100) :
    OctalField (emptyFile name hname).size 0 :=
  octalField_sizeField (by decide) (by decide) (by decide)

theorem consistent_note : ∃ t : Cached,
    Ustar.index (emptyFile (Utf8.encode "a/x".toList) (by decide)).bytes readInt lossy 2 = some (.ok t.index) ∧
      Consistent t := by
  obtain ⟨t, hindex, hkeys⟩ := index_single (emptyFile (Utf8.encode "a/x".toList) (by decide))
    (octalField_emptyFile _ _) ⟨by decide, by decide, by decide⟩ "a/x".toList ⟨by decide, by decide⟩
    (by decide)
  refine ⟨t, hindex, (consistent_iff _ readInt lossy 2 t hindex).mpr ?_⟩
  rw [hkeys]
  intro k hk
  rw [List.mem_singleton.mp hk]
  unfold Neat
  decide

/-- The top of the archive lists an empty name. -/
theorem not_consistent_slash : ∃ t : Cached,
    Ustar.index (emptyFile (Utf8.encode "/x".toList) (by decide)).bytes readInt lossy 2 = some (.ok t.index) ∧
      ¬ Consistent t := by
  obtain ⟨t, hindex, hkeys⟩ := index_single (emptyFile (Utf8.encode "/x".toList) (by decide))
    (octalField_emptyFile _ _) ⟨by decide, by decide, by decide⟩ "/x".toList ⟨by decide, by decide⟩
    (by decide)
  refine ⟨t, hindex, fun h => ?_⟩
  have hlists : Lists t [] (namesBelow t []) := lists_iff.mpr ⟨(tarDir_iff t []).mpr (Or.inl rfl), rfl⟩
  have hempty : [] ∈ namesBelow t [] := by
    refine (mem_namesBelow t [] []).mpr ⟨"/x".toList, ?_, ["x".toList], ?_, nofun⟩
    · rw [hkeys]
      exact List.mem_singleton_self _
    · decide
  exact (h.listed [] _ [] (Or.inl rfl) hlists hempty).1 rfl

end Archive

/-! ### Paths that go through an archive -/

section Split

variable {σ ε : Type} {ops : Ops σ ε} {fs : σ}

theorem inner_intercalate {ps : List Str} (h : Plain '/' ps) : Inner (['/'].intercalate (ps.filter (· ≠ []))) := by
  by_cases hnil : ps.filter (· ≠ []) = []
  · rw [hnil]
    exact Or.inl rfl
  · right
    unfold Neat
    rw [List.splitOn_intercalate _ (fun c hc => h c (List.mem_of_mem_filter hc)) hnil]
    exact fun c hc => of_decide_eq_true (List.mem_filter.mp hc).2

/-- What `tar-op` is called with. -/
theorem inner_splitTar {path tp inner : Str} (h : splitTar ops fs path = some (tp, inner)) : Inner inner := by
  have hloop : ∀ (ps : List Str) (pre : Str), Plain '/' ps → splitLoop ops fs path pre ps = some (tp, inner) →
      Inner inner := by
    intro ps
    induction ps with
    | nil => exact fun _ _ h => by cases h
    | cons p more ih =>
        intro pre hplain h
        have hmore : Plain '/' more := fun c hc => hplain c (List.mem_cons_of_mem p hc)
        unfold splitLoop at h
        dsimp only at h
        split_ifs at h
        · cases h
          exact inner_intercalate hmore
        · cases h
          exact Or.inl rfl
        · exact ih _ hmore h
  exact hloop _ [] (fun c hc => plain_splitOn '/' path c (List.mem_of_mem_tail hc)) h

end Split

end Beeros.TarCache
