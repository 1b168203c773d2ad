import Mathlib.Data.List.Induction
import Mathlib.Data.List.Infix
import Mathlib.Tactic.SplitIfs
import Beeros.Beerlang
import Beeros.Pieces
import Beeros.Rekey

/-! The mount table of `lib/fs.beer`: `mount!`, `umount!` and `locate`. The table is a map from mount points to
file systems, with its keys in an order of its own; a path belongs to the longest mount point above it. -/

namespace Beeros.FsMount

open Pieces Rekey

variable {φ : Type}

/-- The map in the atom `mount-table`. -/
abbrev Mounts (φ : Type) := Table Str φ

inductive Failure
  /-- `fs: no ops for filesystem type …`. -/
  | noOps
  /-- `fs: path must be absolute: …`. -/
  | relativePath (path : Str)
  /-- `fs: nothing mounted for …`. -/
  | notMounted (path : Str)
  deriving DecidableEq

def root : Str := ['/']

def normalizeMountPoint (p : Str) : Str := if p ≠ root ∧ root <:+ p then p.dropLast else p

/-- `mount!`; `known`: does `types` have the type of the file system. -/
def mount (known : φ → Bool) (point : Str) (fs : φ) (m : Mounts φ) : Except Failure (Mounts φ) :=
  if known fs then .ok (m.insert (normalizeMountPoint point) fs) else .error .noOps

def umount (point : Str) (m : Mounts φ) : Mounts φ := m.erase (normalizeMountPoint point)

def under (point path : Str) : Bool := point == root || path == point || (point ++ root).isPrefixOf path

/-- The function that `locate` reduces the keys with. -/
def better (path : Str) (best : Option Str) (p : Str) : Option Str :=
  if under p path && best.all fun b => decide (p.length > b.length) then some p else best

def locate (m : Mounts φ) (path : Str) : Except Failure (φ × Str) :=
  if ¬ root <+: path then .error (.relativePath path)
  else
    match m.keys.foldl (better path) none with
    | none => .error (.notMounted path)
    | some point =>
        match m.lookup point with
        -- the table is read once more; in one task it has the key
        | none => .error (.notMounted path)
        | some fs =>
            .ok (fs, if point = root then path
              else if path.drop point.length = [] then root else path.drop point.length)

/-! ### Runs -/

inductive Op (φ : Type)
  | mount (point : Str) (fs : φ)
  | umount (point : Str)

def Op.point : Op φ → Str
  | .mount p _ => p
  | .umount p => p

/-- A call; `mount!` leaves the table as it is when it throws. -/
def step (known : φ → Bool) (m : Mounts φ) : Op φ → Mounts φ
  | .mount p fs => (mount known p fs m).toOption.getD m
  | .umount p => umount p m

def run (known : φ → Bool) (ops : List (Op φ)) : Mounts φ := ops.foldl (step known) ∅

/-! ### What the table is for -/

/-- The components of a mount point, a trailing slash or none. -/
def pointParts (p : Str) : List Str := (p.splitOn '/').filter (· ≠ [])

/-- The components of an absolute path; two slashes have an empty one between them. -/
def pathParts (path : Str) : List Str := path.tail.splitOn '/'

def mountedStep (known : φ → Bool) (at' : List Str → Option φ) : Op φ → List Str → Option φ
  | .mount p fs => if known fs then Function.update at' (pointParts p) (some fs) else at'
  | .umount p => Function.update at' (pointParts p) none

/-- What was last mounted on the components and not unmounted since. -/
def mounted (known : φ → Bool) (ops : List (Op φ)) : List Str → Option φ :=
  ops.foldl (mountedStep known) fun _ => none

/-- `/`, or `/a/…/z` with components that are not empty, and perhaps one more slash. -/
def IsPoint (p : Str) : Prop :=
  p = root ∨ ∃ cs, cs ≠ [] ∧ (∀ c ∈ cs, c ≠ [] ∧ '/' ∉ c) ∧ (p = joined '/' cs ∨ p = joined '/' cs ++ root)

/-- The text of a mount point in the table. -/
def pointText (cs : List Str) : Str := if cs = [] then root else joined '/' cs

/-- The path in the file system that is mounted on `cs`. -/
def IsRest (cs : List Str) (path rel : Str) : Prop :=
  if cs = [] then rel = path else if path = pointText cs then rel = root else path = pointText cs ++ rel

/-- `cs` is the longest mounted point above the path, with `fs` on it. -/
structure Longest (known : φ → Bool) (ops : List (Op φ)) (path : Str) (cs : List Str) (fs : φ) : Prop where
  above : cs <+: pathParts path
  mounted : mounted known ops cs = some fs
  longest : ∀ cs', cs' <+: pathParts path → FsMount.mounted known ops cs' ≠ none → cs'.length ≤ cs.length

/-! ### Texts and components -/

def Good (cs : List Str) : Prop := ∀ c ∈ cs, c ≠ [] ∧ '/' ∉ c

variable {cs cs' : List Str} {path p : Str} {known : φ → Bool} {ops : List (Op φ)} {m : Mounts φ} {fs : φ}

theorem Good.plain (h : Good cs) : Plain '/' cs := fun c hc => (h c hc).2

theorem joined_pathParts (h : root <+: path) : joined '/' (pathParts path) = path := by
  obtain ⟨t, rfl⟩ := h
  exact joined_splitOn '/' t

theorem length_joined_cons (h : Good (c :: cs)) : 2 ≤ (joined '/' (c :: cs)).length := by
  have hc := List.length_pos_of_ne_nil (h c List.mem_cons_self).1
  rw [joined_cons, List.length_cons, List.length_append]
  omega

theorem joined_ne_root (h : Good cs) : joined '/' cs ≠ root := by
  cases cs with
  | nil => exact nofun
  | cons c cs =>
      intro heq
      have hlen := length_joined_cons h
      rw [heq] at hlen
      exact absurd hlen (by decide)

theorem pointText_inj (h : Good cs) (h' : Good cs') (heq : pointText cs = pointText cs') : cs = cs' := by
  unfold pointText at heq
  split_ifs at heq with hnil hnil' hnil'
  · rw [hnil, hnil']
  · exact absurd heq.symm (joined_ne_root h')
  · exact absurd heq (joined_ne_root h)
  · exact joined_inj h.plain h'.plain heq

theorem not_root_suffix (h : Good cs) : ¬ root <:+ joined '/' cs := by
  intro hsuffix
  rcases List.eq_nil_or_concat cs with rfl | ⟨init, c, rfl⟩
  · exact absurd hsuffix (by decide)
  · rw [List.concat_eq_append] at h hsuffix
    obtain ⟨hne, hslash⟩ := h c (List.mem_append_right _ (List.mem_singleton_self c))
    obtain ⟨t, ht⟩ := hsuffix
    have hlast := congrArg List.getLast? ht
    rw [joined_append, List.getLast?_append, List.getLast?_append] at hlast
    have hc : (joined '/' [c]).getLast? = c.getLast? := by
      show ('/' :: (c ++ [])).getLast? = c.getLast?
      rw [List.append_nil, List.getLast?_cons, List.getLast?_eq_some_getLast hne]
      rfl
    rw [hc, List.getLast?_eq_some_getLast hne] at hlast
    have hslash' : '/' = c.getLast hne := Option.some.inj hlast
    apply hslash
    rw [hslash']
    exact List.getLast_mem hne

theorem splitOn_joined (h : Good cs) : (joined '/' cs).splitOn '/' = [] :: cs := by
  apply splitOn_of_joined
  · intro c hc
    rcases List.mem_cons.mp hc with rfl | hc
    · exact List.not_mem_nil
    · exact h.plain c hc
  · rfl

theorem filter_good (h : Good cs) : cs.filter (· ≠ []) = cs :=
  List.filter_eq_self.mpr fun c hc => decide_eq_true (h c hc).1

/-- The table has a point without its trailing slash. -/
theorem normalize_point (h : IsPoint p) :
    Good (pointParts p) ∧ normalizeMountPoint p = pointText (pointParts p) := by
  rcases h with rfl | ⟨cs, hne, hgood, rfl | rfl⟩
  · exact ⟨nofun, rfl⟩
  · have hparts : pointParts (joined '/' cs) = cs := by
      unfold pointParts
      rw [splitOn_joined hgood]
      exact filter_good hgood
    rw [hparts]
    refine ⟨hgood, ?_⟩
    unfold normalizeMountPoint pointText
    rw [if_neg fun h => not_root_suffix hgood h.2, if_neg hne]
  · have hparts : pointParts (joined '/' cs ++ root) = cs := by
      have hsplit : (joined '/' cs ++ root).splitOn '/' = [] :: cs ++ [[]] := by
        apply splitOn_of_joined
        · intro c hc
          rcases List.mem_append.mp hc with hc | hc
          · rcases List.mem_cons.mp hc with rfl | hc
            · exact List.not_mem_nil
            · exact (hgood c hc).2
          · rw [List.mem_singleton.mp hc]
            exact List.not_mem_nil
        · rw [List.cons_append, joined_cons, joined_append]
          rfl
      unfold pointParts
      rw [hsplit, List.filter_append]
      show cs.filter (· ≠ []) ++ [] = cs
      rw [List.append_nil, filter_good hgood]
    rw [hparts]
    refine ⟨hgood, ?_⟩
    unfold normalizeMountPoint pointText
    rw [if_pos, if_neg hne]
    · exact List.dropLast_concat
    · refine ⟨?_, List.suffix_append _ _⟩
      intro heq
      have hnil : joined '/' cs = [] := List.append_cancel_right (heq.trans (List.nil_append root).symm)
      cases cs with
      | nil => exact hne rfl
      | cons c cs => cases hnil

/-- `under?` compares whole components. -/
theorem under_iff (h : Good cs) (hpath : root <+: path) :
    under (pointText cs) path = true ↔ cs <+: pathParts path := by
  have htext := joined_pathParts hpath
  have hplain : Plain '/' (pathParts path) := plain_splitOn '/' _
  unfold under pointText
  rw [Bool.or_eq_true, Bool.or_eq_true, beq_iff_eq, beq_iff_eq, List.isPrefixOf_iff_prefix]
  by_cases hnil : cs = []
  · rw [if_pos hnil, hnil]
    exact ⟨fun _ => List.nil_prefix, fun _ => Or.inl (Or.inl rfl)⟩
  · rw [if_neg hnil]
    constructor
    · rintro ((heq | heq) | ⟨t, ht⟩)
      · exact absurd heq (joined_ne_root h)
      · obtain ⟨es, hes, -⟩ := exists_rest (r := []) h.plain hplain (Or.inl rfl)
          (by rw [List.append_nil, htext, heq])
        exact ⟨es, hes.symm⟩
      · obtain ⟨es, hes, -⟩ := exists_rest (r := '/' :: t) h.plain hplain (Or.inr ⟨t, rfl⟩)
          (by rw [htext, ← ht, List.append_assoc]; rfl)
        exact ⟨es, hes.symm⟩
    · rintro ⟨es, hes⟩
      rw [← hes, joined_append] at htext
      cases es with
      | nil => exact Or.inl (Or.inr (by rw [← htext]; exact List.append_nil _))
      | cons e es =>
          refine Or.inr ⟨e ++ joined '/' es, ?_⟩
          rw [← htext, List.append_assoc]
          rfl

theorem length_le_of_prefix (h : Good cs) (h' : Good cs') (hpre : cs <+: cs') :
    (pointText cs).length ≤ (pointText cs').length := by
  obtain ⟨es, rfl⟩ := hpre
  cases cs with
  | nil =>
      cases es with
      | nil => exact Nat.le_refl _
      | cons e es =>
          have hlen := length_joined_cons h'
          exact Nat.le_trans (by decide : root.length ≤ 2) hlen
  | cons c cs =>
      show (joined '/' (c :: cs)).length ≤ (joined '/' (c :: cs ++ es)).length
      rw [joined_append, List.length_append]
      exact Nat.le_add_right _ _

/-- Of two points above a path the one with the longer text has the more components. -/
theorem length_le_of_above (h : Good cs) (h' : Good cs') (habove : cs <+: pathParts path)
    (habove' : cs' <+: pathParts path) (hlen : (pointText cs').length ≤ (pointText cs).length) :
    cs'.length ≤ cs.length := by
  rcases List.prefix_or_prefix_of_prefix habove habove' with hpre | hpre
  · have heq : pointText cs = pointText cs' := by
      have hle := length_le_of_prefix h h' hpre
      obtain ⟨es, rfl⟩ := hpre
      cases es with
      | nil => rw [List.append_nil]
      | cons e es =>
          exfalso
          have hmore : (pointText cs).length < (pointText (cs ++ e :: es)).length := by
            cases cs with
            | nil => exact Nat.lt_of_lt_of_le (by decide : root.length < 2) (length_joined_cons h')
            | cons c cs =>
                show (joined '/' (c :: cs)).length < (joined '/' (c :: cs ++ e :: es)).length
                rw [joined_append, joined_cons '/' e, List.length_append, List.length_cons]
                omega
          omega
    rw [pointText_inj h h' heq]
  · exact hpre.length_le

/-! ### The table -/

/-- The table holds what is mounted, under the texts of the points. -/
structure Holds (known : φ → Bool) (ops : List (Op φ)) (m : Mounts φ) : Prop where
  lookup : ∀ cs, Good cs → m.lookup (pointText cs) = mounted known ops cs
  keys : ∀ p ∈ m, ∃ cs, Good cs ∧ p = pointText cs
  good : ∀ cs, mounted known ops cs ≠ none → Good cs

theorem Holds.insert (h : Holds known ops m) {op : Op φ} (hgood : Good cs)
    (hmounted : mounted known (ops ++ [op]) = Function.update (mounted known ops) cs (some fs)) :
    Holds known (ops ++ [op]) (m.insert (pointText cs) fs) := by
  refine ⟨?_, ?_, ?_⟩
  · intro cs' hgood'
    rw [hmounted]
    by_cases heq : cs' = cs
    · rw [heq, AList.lookup_insert, Function.update_self]
    · rw [AList.lookup_insert_ne fun ht => heq (pointText_inj hgood' hgood ht), Function.update_of_ne heq]
      exact h.lookup cs' hgood'
  · intro p hp
    rcases (AList.mem_insert m).mp hp with rfl | hp
    · exact ⟨cs, hgood, rfl⟩
    · exact h.keys p hp
  · intro cs' hne
    rw [hmounted] at hne
    by_cases heq : cs' = cs
    · rw [heq]
      exact hgood
    · rw [Function.update_of_ne heq] at hne
      exact h.good cs' hne

theorem Holds.erase (h : Holds known ops m) {op : Op φ} (hgood : Good cs)
    (hmounted : mounted known (ops ++ [op]) = Function.update (mounted known ops) cs none) :
    Holds known (ops ++ [op]) (m.erase (pointText cs)) := by
  refine ⟨?_, ?_, ?_⟩
  · intro cs' hgood'
    rw [hmounted]
    by_cases heq : cs' = cs
    · rw [heq, AList.lookup_erase, Function.update_self]
    · rw [AList.lookup_erase_ne fun ht => heq (pointText_inj hgood' hgood ht), Function.update_of_ne heq]
      exact h.lookup cs' hgood'
  · exact fun p hp => h.keys p (AList.mem_erase.mp hp).2
  · intro cs' hne
    rw [hmounted] at hne
    by_cases heq : cs' = cs
    · rw [heq, Function.update_self] at hne
      exact absurd rfl hne
    · rw [Function.update_of_ne heq] at hne
      exact h.good cs' hne

theorem holds_run (known : φ → Bool) (hops : ∀ op ∈ ops, IsPoint op.point) : Holds known ops (run known ops) := by
  induction ops using List.reverseRecOn with
  | nil =>
      refine ⟨fun _ _ => AList.lookup_empty _, ?_, fun _ h => absurd rfl h⟩
      exact fun p hp => absurd hp (AList.notMem_empty p)
  | append_singleton ops op ih =>
      have hold := ih fun op' hop' => hops op' (List.mem_append_left _ hop')
      obtain ⟨hgood, htext⟩ := normalize_point (hops op (List.mem_append_right _ (List.mem_singleton_self op)))
      have hrun : run known (ops ++ [op]) = step known (run known ops) op := by
        unfold run
        rw [List.foldl_append]
        rfl
      have hmounted : mounted known (ops ++ [op]) = mountedStep known (mounted known ops) op := by
        unfold mounted
        rw [List.foldl_append]
        rfl
      rw [hrun]
      cases op with
      | mount p fs =>
          by_cases hknown : known fs = true
          · have hstep : step known (run known ops) (.mount p fs) =
                (run known ops).insert (normalizeMountPoint p) fs := by
              simp only [step, mount, hknown]
              rfl
            rw [hstep]
            change normalizeMountPoint p = _ at htext
            rw [htext]
            exact hold.insert hgood (hmounted.trans (if_pos hknown))
          · have hstep : step known (run known ops) (.mount p fs) = run known ops := by
              simp only [step, mount, hknown]
              rfl
            rw [hstep]
            have hsame : mounted known (ops ++ [.mount p fs]) = mounted known ops := hmounted.trans (if_neg hknown)
            refine ⟨?_, hold.keys, ?_⟩
            · rw [hsame]
              exact hold.lookup
            · rw [hsame]
              exact hold.good
      | umount p =>
          change normalizeMountPoint p = _ at htext
          show Holds known _ ((run known ops).erase (normalizeMountPoint p))
          rw [htext]
          exact hold.erase hgood hmounted

theorem Holds.same (h : Holds known ops m) {m' : Mounts φ} (hm : Same m m') : Holds known ops m' := by
  refine ⟨?_, ?_, h.good⟩
  · intro cs hgood
    rw [hm.lookup]
    exact h.lookup cs hgood
  · intro p hp
    apply h.keys p
    rw [← AList.lookup_isSome, ← hm.lookup, AList.lookup_isSome]
    exact hp

/-! ### The fold over the keys -/

/-- The longest of the keys above the path, and of one more. -/
structure Best (path : Str) (ks : List Str) (best r : Option Str) : Prop where
  none : r = none → best = none ∧ ∀ p ∈ ks, under p path = false
  some : ∀ p, r = some p → (best = some p ∨ p ∈ ks ∧ under p path = true) ∧
    (∀ q, best = some q → q.length ≤ p.length) ∧ ∀ q ∈ ks, under q path = true → q.length ≤ p.length

theorem best_foldl (path : Str) (ks : List Str) (best : Option Str) :
    Best path ks best (ks.foldl (better path) best) := by
  induction ks generalizing best with
  | nil =>
      refine ⟨fun h => ⟨h, nofun⟩, fun p h => ⟨Or.inl h, fun q hq => ?_, nofun⟩⟩
      rw [List.foldl_nil, hq] at h
      cases h
      exact Nat.le_refl _
  | cons k ks ih =>
      rw [List.foldl_cons]
      have hrest := ih (better path best k)
      unfold better at hrest ⊢
      by_cases htake : (under k path && best.all fun b => decide (k.length > b.length)) = true
      · rw [if_pos htake] at hrest ⊢
        obtain ⟨hunder, hlonger⟩ := Bool.and_eq_true_iff.mp htake
        refine ⟨fun h => absurd (hrest.none h).1 nofun, fun p h => ?_⟩
        obtain ⟨hfrom, hbest, hks⟩ := hrest.some p h
        have hk := hbest k rfl
        refine ⟨?_, ?_, ?_⟩
        · rcases hfrom with heq | ⟨hmem, hp⟩
          · cases heq
            exact Or.inr ⟨List.mem_cons_self, hunder⟩
          · exact Or.inr ⟨List.mem_cons_of_mem k hmem, hp⟩
        · intro q hq
          rw [hq] at hlonger
          have hlt : q.length < k.length := of_decide_eq_true hlonger
          omega
        · intro q hq hunder'
          rcases List.mem_cons.mp hq with rfl | hq
          · exact hk
          · exact hks q hq hunder'
      · rw [if_neg htake] at hrest ⊢
        have hskip : under k path = true → ∃ b, best = some b ∧ k.length ≤ b.length := by
          intro hunder
          cases hb : best with
          | none =>
              rw [hb, hunder] at htake
              exact absurd rfl htake
          | some b =>
              rw [hb, hunder, Bool.true_and] at htake
              refine ⟨b, rfl, Nat.le_of_not_lt fun hlt => htake ?_⟩
              exact decide_eq_true hlt
        refine ⟨fun h => ?_, fun p h => ?_⟩
        · obtain ⟨hbest, hks⟩ := hrest.none h
          refine ⟨hbest, fun q hq => ?_⟩
          rcases List.mem_cons.mp hq with rfl | hq
          · rw [Bool.eq_false_iff]
            intro hunder
            obtain ⟨b, hb, -⟩ := hskip hunder
            rw [hbest] at hb
            cases hb
          · exact hks q hq
        · obtain ⟨hfrom, hbest, hks⟩ := hrest.some p h
          refine ⟨?_, hbest, ?_⟩
          · rcases hfrom with heq | ⟨hmem, hp⟩
            · exact Or.inl heq
            · exact Or.inr ⟨List.mem_cons_of_mem k hmem, hp⟩
          · intro q hq hunder
            rcases List.mem_cons.mp hq with rfl | hq
            · obtain ⟨b, hb, hle⟩ := hskip hunder
              exact Nat.le_trans hle (hbest b hb)
            · exact hks q hq hunder

/-- What `locate` reduces the keys to: nothing, or the text of the longest point. -/
theorem longest_of_foldl (h : Holds known ops m) (hpath : root <+: path) :
    (m.keys.foldl (better path) none = none ∧ ∀ cs, cs <+: pathParts path → mounted known ops cs = none) ∨
      ∃ cs fs, m.keys.foldl (better path) none = some (pointText cs) ∧ Good cs ∧ Longest known ops path cs fs := by
  have hbest := best_foldl path m.keys none
  have hkey : ∀ cs, mounted known ops cs ≠ none → cs <+: pathParts path →
      pointText cs ∈ m.keys ∧ under (pointText cs) path = true := by
    intro cs hne habove
    have hgood := h.good cs hne
    refine ⟨?_, (under_iff hgood hpath).mpr habove⟩
    rw [← h.lookup cs hgood] at hne
    exact AList.mem_keys.mp (AList.lookup_isSome.mp (Option.isSome_iff_ne_none.mpr hne))
  cases hr : m.keys.foldl (better path) none with
  | none =>
      refine Or.inl ⟨rfl, fun cs habove => ?_⟩
      by_contra hne
      obtain ⟨hmem, hunder⟩ := hkey cs hne habove
      rw [(hbest.none hr).2 _ hmem] at hunder
      cases hunder
  | some p =>
      obtain ⟨hfrom, -, hks⟩ := hbest.some p hr
      rcases hfrom with hnone | ⟨hmem, hunder⟩
      · cases hnone
      · obtain ⟨cs, hgood, rfl⟩ := h.keys p (AList.mem_keys.mpr hmem)
        obtain ⟨fs, hfs⟩ := lookup_of_mem (AList.mem_keys.mpr hmem)
        have habove := (under_iff hgood hpath).mp hunder
        rw [h.lookup cs hgood] at hfs
        refine Or.inr ⟨cs, fs, rfl, hgood, habove, hfs, fun cs' habove' hne => ?_⟩
        obtain ⟨hmem', hunder'⟩ := hkey cs' hne habove'
        exact length_le_of_above hgood (h.good cs' hne) habove habove' (hks _ hmem' hunder')

theorem ne_none_of_longest (h : Longest known ops path cs fs) : mounted known ops cs ≠ none := by
  rw [h.mounted]
  exact nofun

theorem longest_unique {fs' : φ} (h : Longest known ops path cs fs) (h' : Longest known ops path cs' fs') :
    cs = cs' ∧ fs = fs' := by
  have hlen := Nat.le_antisymm (h'.longest cs h.above (ne_none_of_longest h))
    (h.longest cs' h'.above (ne_none_of_longest h'))
  have hpre := List.prefix_of_prefix_length_le h.above h'.above (Nat.le_of_eq hlen)
  have heq : cs = cs' := hpre.eq_of_length hlen
  refine ⟨heq, ?_⟩
  have hmounted := h.mounted
  rw [heq, h'.mounted] at hmounted
  exact (Option.some.inj hmounted).symm

theorem isRest_unique {rel rel' : Str} (h : IsRest cs path rel) (h' : IsRest cs path rel') : rel = rel' := by
  unfold IsRest at h h'
  split_ifs at h h'
  · rw [h, h']
  · rw [h, h']
  · exact List.append_cancel_left (h.symm.trans h')

/-- Whatever was mounted and unmounted, and in whatever order the table has its keys: `locate` throws when no
mounted point is above the path, and else gives the longest one's file system and the rest of the path. -/
theorem locate_longest (known : φ → Bool) (ops : List (Op φ)) (hops : ∀ op ∈ ops, IsPoint op.point) (m : Mounts φ)
    (hm : Same (run known ops) m) (path : Str) (hpath : root <+: path) :
    ((∃ e, locate m path = .error e) ↔ ∀ cs, cs <+: pathParts path → mounted known ops cs = none) ∧
      ∀ fs rel, locate m path = .ok (fs, rel) ↔ ∃ cs, Longest known ops path cs fs ∧ IsRest cs path rel := by
  have hholds := (holds_run known hops).same hm
  unfold locate
  rw [if_neg (not_not_intro hpath)]
  rcases longest_of_foldl hholds hpath with ⟨hnone, hnothing⟩ | ⟨cs, fs, hsome, hgood, hlongest⟩
  · rw [hnone]
    refine ⟨⟨fun _ => hnothing, fun _ => ⟨_, rfl⟩⟩, fun fs rel => ⟨nofun, ?_⟩⟩
    rintro ⟨cs, hlongest, -⟩
    have hmounted := hlongest.mounted
    rw [hnothing cs hlongest.above] at hmounted
    cases hmounted
  · have hlookup : m.lookup (pointText cs) = some fs := (hholds.lookup cs hgood).trans hlongest.mounted
    rw [hsome]
    simp only [hlookup]
    have hrest : IsRest cs path (if pointText cs = root then path
        else if path.drop (pointText cs).length = [] then root else path.drop (pointText cs).length) := by
      unfold IsRest
      by_cases hnil : cs = []
      · rw [if_pos hnil, hnil]
        exact if_pos rfl
      · have htext : pointText cs = joined '/' cs := if_neg hnil
        have hpre : ∃ r, path = pointText cs ++ r := by
          obtain ⟨es, hes⟩ := hlongest.above
          refine ⟨joined '/' es, ?_⟩
          rw [htext, ← joined_append, hes, joined_pathParts hpath]
        obtain ⟨r, hr⟩ := hpre
        have hdrop : path.drop (pointText cs).length = r := by rw [hr, List.drop_left]
        have hne : pointText cs ≠ root := by
          rw [htext]
          exact joined_ne_root hgood
        rw [if_neg hnil, if_neg hne, hdrop]
        by_cases hr' : r = []
        · rw [if_pos hr', if_pos (by rw [hr, hr', List.append_nil])]
        · rw [if_neg hr', if_neg]
          · exact hr
          · intro heq
            rw [heq] at hr
            exact hr' (List.append_cancel_left (hr.symm.trans (List.append_nil _).symm))
    refine ⟨⟨?_, fun hnothing => ?_⟩, fun fs' rel => ⟨fun heq => ?_, ?_⟩⟩
    · rintro ⟨e, he⟩
      cases he
    · have hmounted := hlongest.mounted
      rw [hnothing cs hlongest.above] at hmounted
      cases hmounted
    · cases heq
      exact ⟨cs, hlongest, hrest⟩
    · rintro ⟨cs', hlongest', hrest'⟩
      obtain ⟨rfl, rfl⟩ := longest_unique hlongest hlongest'
      rw [isRest_unique hrest' hrest]

def sampleOps : List (Op Nat) :=
  [.mount "/".toList 0, .mount "/a/b/".toList 1, .mount "/a".toList 2, .umount "/a/".toList]

/-- `/a/bc` is not below `/a/b`, and `/a` is not mounted any more. -/
theorem locate_longest_sample :
    locate (run (fun _ => true) sampleOps) "/a/bc".toList = .ok (0, "/a/bc".toList) := by
  have hops : ∀ op ∈ sampleOps, IsPoint op.point := by
    have hab : IsPoint "/a/b/".toList := Or.inr ⟨["a".toList, "b".toList], by decide, by decide, Or.inr rfl⟩
    have ha : IsPoint "/a".toList := Or.inr ⟨["a".toList], by decide, by decide, Or.inl rfl⟩
    have ha' : IsPoint "/a/".toList := Or.inr ⟨["a".toList], by decide, by decide, Or.inr rfl⟩
    intro op hop
    simp only [sampleOps, List.mem_cons, List.not_mem_nil, or_false] at hop
    rcases hop with rfl | rfl | rfl | rfl
    · exact Or.inl rfl
    · exact hab
    · exact ha
    · exact ha'
  refine ((locate_longest (fun _ => true) sampleOps hops _ (Same.refl _) "/a/bc".toList ⟨"a/bc".toList, rfl⟩).2 0
    "/a/bc".toList).mpr ⟨[], ⟨List.nil_prefix, by decide, ?_⟩, rfl⟩
  intro cs habove hne
  have hmem : cs ∈ (pathParts "/a/bc".toList).inits := (List.mem_inits _ _).mpr habove
  have hall : ∀ cs ∈ (pathParts "/a/bc".toList).inits, mounted (fun _ => true) sampleOps cs = none ∨ cs = [] := by
    decide
  rcases hall cs hmem with hnone | rfl
  · exact absurd hnone hne
  · exact Nat.le_refl _

end Beeros.FsMount
