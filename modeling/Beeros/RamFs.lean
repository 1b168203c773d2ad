import Mathlib.Tactic.SplitIfs
import Beeros.Beerlang
import Beeros.Interleave
import Beeros.Rekey
import Beeros.Utf8

/-! The RAM file system of `lib/fs.beer`: a map from paths to texts in an atom. Directories are the paths of their
files, or `:dir` entries. When no path is both a file and a directory, and which calls keep it so. -/

namespace Beeros.RamFs

open Interleave Rekey

inductive Entry
  | text (s : Str)
  | dir
  deriving DecidableEq

/-- The map in the atom `:files`; its entries come in an order of the map's own. -/
abbrev Files := Table Str Entry

inductive Reason
  | notFound
  | notADirectory
  | isADirectory
  | exists
  | notEmpty
  deriving DecidableEq

def Reason.name : Reason → Str
  | notFound => "not-found".toList
  | notADirectory => "not-a-directory".toList
  | isADirectory => "is-a-directory".toList
  | .exists => "exists".toList
  | notEmpty => "not-empty".toList

/-- What `ram-fail!` throws. -/
structure Failure where
  path : Str
  reason : Reason
  deriving DecidableEq

def Failure.message (e : Failure) : Str := "fs: ".toList ++ e.path ++ ": ".toList ++ e.reason.name

inductive Kind
  | file
  | dir
  deriving DecidableEq

structure Stat where
  type : Kind
  size : Nat
  deriving DecidableEq

def root : Str := ['/']

/-- `(str path "/")`. -/
def slashed (path : Str) : Str := path ++ ['/']

def ramNew : Files := ∅

def ramDir (m : Files) (path : Str) : Bool :=
  path == root || m.lookup path == some .dir || m.keys.any fun p => (slashed path).isPrefixOf p

def ramStat (m : Files) (path : Str) : Except Failure Stat :=
  match m.lookup path with
  | some (.text s) => .ok ⟨.file, (Utf8.encode s).length⟩
  | _ => if ramDir m path then .ok ⟨.dir, 0⟩ else .error ⟨path, .notFound⟩

/-- `pre` of `ram-ls`. -/
def dirPrefix (path : Str) : Str := if path = root then root else slashed path

def ramLs (m : Files) (path : Str) : Except Failure (List Str) :=
  if ramDir m path then
    let below := m.keys.filter fun p => (dirPrefix path).isPrefixOf p
    let names := below.map fun p => ((p.drop (dirPrefix path).length).splitOn '/').headD []
    .ok (names.eraseDups.mergeSort fun a b => decide (a ≤ b))
  else .error ⟨path, .notADirectory⟩

def ramSlurp (m : Files) (path : Str) : Except Failure Str :=
  match m.lookup path with
  | some (.text s) => .ok s
  | _ => .error ⟨path, if ramDir m path then .isADirectory else .notFound⟩

/-- The text that `append?` adds to. -/
def Files.old (m : Files) (path : Str) : Str :=
  match m.lookup path with
  | some (.text s) => s
  | _ => []

def ramWrite (m : Files) (path s : Str) (append : Bool) : Except Failure Files :=
  if ramDir m path then .error ⟨path, .isADirectory⟩
  else .ok (m.insert path (.text (if append then m.old path ++ s else s)))

def ramMkdir (m : Files) (path : Str) : Except Failure Files :=
  if (m.lookup path).isSome then .error ⟨path, .exists⟩ else .ok (m.insert path .dir)

def ramRm (m : Files) (path : Str) : Except Failure Files :=
  match m.lookup path with
  | some (.text _) => .ok (m.erase path)
  | _ => .error ⟨path, .notFound⟩

def ramRmdir (m : Files) (path : Str) : Except Failure Files :=
  if ramDir m path = false then .error ⟨path, .notADirectory⟩
  else do
    let names ← ramLs m path
    if names = [] then .ok (m.erase path) else .error ⟨path, .notEmpty⟩

/-- The key that `ram-mv!` gives to an entry. -/
def mvKey (from' to' k : Str) : Str :=
  if k = from' then to'
  else if (slashed from').isPrefixOf k then to' ++ '/' :: k.drop (slashed from').length
  else k

def ramMv (m : Files) (from' to' : Str) : Except Failure Files :=
  if (m.lookup from').isNone ∧ ramDir m from' = false then .error ⟨from', .notFound⟩
  else .ok (rekey (mvKey from' to') m)

/-! ### Runs -/

inductive Event
  | write (path s : Str) (append : Bool)
  | mkdir (path : Str)
  | rm (path : Str)
  | rmdir (path : Str)
  | mv (from' to' : Str)
  /-- The entries of the map come in another order. -/
  | reorder (m : Files)

def Event.call : Event → Files → Except Failure Files
  | .write path s append, m => ramWrite m path s append
  | .mkdir path, m => ramMkdir m path
  | .rm path, m => ramRm m path
  | .rmdir path, m => ramRmdir m path
  | .mv from' to', m => ramMv m from' to'
  | .reorder m', m => .ok (if m'.entries.isPerm m.entries then m' else m)

/-- A call that throws changes nothing. -/
def step (e : Event) (m : Files) : Option Files :=
  match e.call m with
  | .ok m' => some m'
  | .error _ => some m

/-- No path is both a file and a directory. -/
structure Sound (m : Files) : Prop where
  rootless : root ∉ m
  leaf : ∀ k s, m.lookup k = some (.text s) → ∀ k' ∈ m, ¬slashed k <+: k'

/-- `ram-stat`, `ram-slurp` and `ram-ls` agree on what the path is. -/
def Agree (m : Files) (p : Str) : Prop :=
  (∃ s, ramStat m p = .ok ⟨.file, (Utf8.encode s).length⟩ ∧ ramSlurp m p = .ok s ∧
      ramLs m p = .error ⟨p, .notADirectory⟩) ∨
    (ramStat m p = .ok ⟨.dir, 0⟩ ∧ ramSlurp m p = .error ⟨p, .isADirectory⟩ ∧ ∃ names, ramLs m p = .ok names) ∨
    (ramStat m p = .error ⟨p, .notFound⟩ ∧ ramSlurp m p = .error ⟨p, .notFound⟩ ∧
      ramLs m p = .error ⟨p, .notADirectory⟩)

/-- No file on the way to the path. -/
def Open (m : Files) (p : Str) : Prop := ∀ k s, m.lookup k = some (.text s) → ¬slashed k <+: p

/-- At the path or below it. -/
def Under (p k : Str) : Prop := k = p ∨ slashed p <+: k

/-- The calls that keep every path a file or a directory: what they make has no file on the way to it, nothing is
made at `/`, and a rename puts nothing below a file that stays and no file above what stays. -/
def Keeps : Event → Files → Prop
  | .write path _ _, m => ramDir m path = false → Open m path
  | .mkdir path, m => m.lookup path = none → path ≠ root ∧ Open m path
  | .mv from' to', m => (from' ∈ m ∨ ramDir m from' = true) →
      (∀ k ∈ m, Under from' k → mvKey from' to' k ≠ root) ∧
      (∀ k s, m.lookup k = some (.text s) → ¬Under from' k → ∀ k' ∈ m, Under from' k' →
        ¬slashed k <+: mvKey from' to' k') ∧
      ∀ k s, m.lookup k = some (.text s) → Under from' k → ∀ k' ∈ m, ¬Under from' k' →
        ¬slashed (mvKey from' to' k) <+: k'
  | _, _ => True

variable {m m' : Files} {p k k' path from' to' : Str} {e : Event} {es : List Event}

/-! ### Paths -/

theorem length_lt_of_slashed (h : slashed k <+: p) : k.length < p.length := by
  have hlen := h.length_le
  rw [slashed, List.length_append] at hlen
  exact hlen

theorem isPrefixOf_iff : (slashed p).isPrefixOf k = true ↔ slashed p <+: k := List.isPrefixOf_iff_prefix

theorem under_iff : Under p k ↔ ∃ r, k = p ++ r ∧ (r = [] ∨ r.head? = some '/') := by
  constructor
  · rintro (rfl | ⟨r, rfl⟩)
    · exact ⟨[], (List.append_nil k).symm, .inl rfl⟩
    · exact ⟨'/' :: r, List.append_assoc p ['/'] r, .inr rfl⟩
  · rintro ⟨r, rfl, hr⟩
    cases r with
    | nil => exact .inl (List.append_nil p)
    | cons c r =>
        obtain rfl : c = '/' := Option.some.inj (hr.resolve_left (List.cons_ne_nil c r))
        exact .inr ⟨r, List.append_assoc p ['/'] r⟩

theorem mvKey_append {r : Str} (hr : r = [] ∨ r.head? = some '/') : mvKey from' to' (from' ++ r) = to' ++ r := by
  cases r with
  | nil =>
      rw [List.append_nil, List.append_nil]
      exact if_pos rfl
  | cons c r =>
      obtain rfl : c = '/' := Option.some.inj (hr.resolve_left (List.cons_ne_nil c r))
      have heq : from' ++ '/' :: r = slashed from' ++ r := (List.append_assoc from' ['/'] r).symm
      unfold mvKey
      rw [if_neg fun h => List.cons_ne_nil _ _ (List.append_right_eq_self.mp h),
        if_pos (isPrefixOf_iff.mpr ⟨r, heq.symm⟩), heq, List.drop_left]

/-- A moved key keeps what follows `from`. -/
theorem mvKey_under (to' : Str) (h : Under from' k) : ∃ r, k = from' ++ r ∧ mvKey from' to' k = to' ++ r := by
  obtain ⟨r, rfl, hr⟩ := under_iff.mp h
  exact ⟨r, rfl, mvKey_append hr⟩

theorem mvKey_of_not_under (h : ¬Under from' k) : mvKey from' to' k = k := by
  unfold mvKey
  rw [if_neg fun heq => h (.inl heq), if_neg fun hp => h (.inr (isPrefixOf_iff.mp hp))]

/-! ### Directories -/

theorem ramDir_iff : ramDir m p = true ↔ p = root ∨ m.lookup p = some .dir ∨ ∃ k ∈ m, slashed p <+: k := by
  unfold ramDir
  rw [Bool.or_eq_true, Bool.or_eq_true, List.any_eq_true, beq_iff_eq, beq_iff_eq, or_assoc]
  refine or_congr_right (or_congr_right (exists_congr fun k => ?_))
  rw [isPrefixOf_iff, AList.mem_keys]

theorem Sound.ramDir_of_text (h : Sound m) {s : Str} (hs : m.lookup p = some (.text s)) : ramDir m p = false := by
  by_contra hne
  rcases ramDir_iff.mp (eq_true_of_ne_false hne) with rfl | hdir | ⟨k, hk, hp⟩
  · exact h.rootless (mem_of_lookup hs)
  · rw [hs] at hdir
    cases hdir
  · exact h.leaf p s hs k hk hp

theorem Sound.agree (h : Sound m) (p : Str) : Agree m p := by
  unfold Agree ramStat ramSlurp ramLs
  cases hl : m.lookup p with
  | none =>
      cases hd : ramDir m p with
      | true => exact .inr (.inl ⟨rfl, rfl, _, rfl⟩)
      | false => exact .inr (.inr ⟨rfl, rfl, rfl⟩)
  | some e =>
      cases e with
      | text s => exact .inl ⟨s, rfl, rfl, by rw [h.ramDir_of_text hl]; rfl⟩
      | dir =>
          rw [ramDir_iff.mpr (.inr (.inl hl))]
          exact .inr (.inl ⟨rfl, rfl, _, rfl⟩)

/-! ### Calls -/

theorem sound_ramNew : Sound ramNew :=
  ⟨AList.notMem_empty root, fun _ _ h => by cases h⟩

/-- A new entry with no file above it, and with nothing below it when it is a file. -/
theorem Sound.insert {v : Entry} (h : Sound m) (hroot : p ≠ root) (hopen : Open m p)
    (hleaf : ∀ s, v = .text s → ∀ k ∈ m, ¬slashed p <+: k) : Sound (m.insert p v) := by
  refine ⟨fun hmem => ?_, fun k s hk k' hk' hp => ?_⟩
  · rcases (AList.mem_insert m).mp hmem with heq | hmem
    · exact hroot heq.symm
    · exact h.rootless hmem
  · have hlt := length_lt_of_slashed hp
    by_cases hkp : k = p
    · subst hkp
      rw [AList.lookup_insert] at hk
      rcases (AList.mem_insert m).mp hk' with rfl | hk'
      · exact absurd hlt (Nat.lt_irrefl _)
      · exact hleaf s (Option.some.inj hk) k' hk' hp
    · rw [AList.lookup_insert_ne hkp] at hk
      rcases (AList.mem_insert m).mp hk' with rfl | hk'
      · exact hopen k s hk hp
      · exact h.leaf k s hk k' hk' hp

theorem Sound.erase (h : Sound m) (p : Str) : Sound (m.erase p) := by
  refine ⟨fun hmem => h.rootless (AList.mem_erase.mp hmem).2, fun k s hk k' hk' => ?_⟩
  have hne : k ≠ p := by
    rintro rfl
    rw [AList.lookup_erase] at hk
    cases hk
  rw [AList.lookup_erase_ne hne] at hk
  exact h.leaf k s hk k' (AList.mem_erase.mp hk').2

theorem Sound.same (h : Sound m) (hsame : Same m m') : Sound m' :=
  ⟨fun hmem => h.rootless ((AList.mem_of_perm hsame).mp hmem),
    fun k s hk k' hk' => h.leaf k s ((hsame.lookup k).symm.trans hk) k' ((AList.mem_of_perm hsame).mp hk')⟩

theorem Sound.ramWrite {s : Str} {append : Bool} (h : Sound m) (hkeeps : Keeps (.write p s append) m)
    (hw : ramWrite m p s append = .ok m') : Sound m' := by
  unfold RamFs.ramWrite at hw
  split_ifs at hw with hdir
  all_goals
    cases hw
    have hfalse := eq_false_of_ne_true hdir
    refine h.insert ?_ (hkeeps hfalse) fun _ _ k hk hp => hdir (ramDir_iff.mpr (.inr (.inr ⟨k, hk, hp⟩)))
    rintro rfl
    exact hdir (ramDir_iff.mpr (.inl rfl))

theorem Sound.ramMkdir (h : Sound m) (hkeeps : Keeps (.mkdir p) m) (hw : ramMkdir m p = .ok m') : Sound m' := by
  unfold RamFs.ramMkdir at hw
  split_ifs at hw with hsome
  cases hw
  obtain ⟨hroot, hopen⟩ := hkeeps (Option.not_isSome_iff_eq_none.mp hsome)
  exact h.insert hroot hopen nofun

theorem Sound.ramRm (h : Sound m) (hw : ramRm m p = .ok m') : Sound m' := by
  unfold RamFs.ramRm at hw
  split at hw
  · cases hw
    exact h.erase p
  · cases hw

theorem Sound.ramRmdir (h : Sound m) (hw : ramRmdir m p = .ok m') : Sound m' := by
  unfold RamFs.ramRmdir at hw
  split_ifs at hw
  cases hls : ramLs m p with
  | error e =>
      rw [hls] at hw
      cases hw
  | ok names =>
      rw [hls] at hw
      change (if names = [] then _ else _) = Except.ok m' at hw
      split_ifs at hw
      cases hw
      exact h.erase p

/-- Below one moved key lies only what lay below it before. -/
theorem slashed_mvKey (hk : Under from' k) (hk' : Under from' k')
    (h : slashed (mvKey from' to' k) <+: mvKey from' to' k') : slashed k <+: k' := by
  obtain ⟨r, rfl, heq⟩ := mvKey_under to' hk
  obtain ⟨r', rfl, heq'⟩ := mvKey_under to' hk'
  rw [heq, heq', slashed, List.append_assoc, List.prefix_append_right_inj] at h
  rw [slashed, List.append_assoc, List.prefix_append_right_inj]
  exact h

theorem Sound.ramMv (h : Sound m) (hkeeps : Keeps (.mv from' to') m) (hw : ramMv m from' to' = .ok m') :
    Sound m' := by
  unfold RamFs.ramMv at hw
  split_ifs at hw with hnone
  cases hw
  have hthere : from' ∈ m ∨ ramDir m from' = true := by
    by_contra hno
    rw [not_or, Bool.not_eq_true, ← AList.lookup_eq_none, ← Option.isNone_iff_eq_none] at hno
    exact hnone hno
  obtain ⟨hroot, hstays, hmoves⟩ := hkeeps hthere
  refine ⟨fun hmem => ?_, fun p s hp p' hp' hbelow => ?_⟩
  · obtain ⟨k, hk, heq⟩ := mem_rekey.mp hmem
    by_cases hu : Under from' k
    · exact hroot k hk hu heq
    · rw [mvKey_of_not_under hu] at heq
      exact h.rootless (heq ▸ hk)
  · obtain ⟨k, hk, rfl⟩ := source_of_lookup hp
    obtain ⟨k', hk', rfl⟩ := mem_rekey.mp hp'
    by_cases hu : Under from' k
    · by_cases hu' : Under from' k'
      · exact h.leaf k s hk k' hk' (slashed_mvKey hu hu' hbelow)
      · rw [mvKey_of_not_under hu'] at hbelow
        exact hmoves k s hk hu k' hk' hu' hbelow
    · rw [mvKey_of_not_under hu] at hbelow
      by_cases hu' : Under from' k'
      · exact hstays k s hk hu k' hk' hu' hbelow
      · rw [mvKey_of_not_under hu'] at hbelow
        exact h.leaf k s hk k' hk' hbelow

/-- What one event keeps. -/
theorem Sound.step (h : Sound m) (hkeeps : Keeps e m) (hstep : step e m = some m') : Sound m' := by
  unfold RamFs.step at hstep
  cases hcall : e.call m with
  | error f =>
      rw [hcall] at hstep
      cases hstep
      exact h
  | ok m₁ =>
      rw [hcall] at hstep
      cases hstep
      cases e with
      | write path s append => exact h.ramWrite hkeeps hcall
      | mkdir path => exact h.ramMkdir hkeeps hcall
      | rm path => exact h.ramRm hcall
      | rmdir path => exact h.ramRmdir hcall
      | mv from' to' => exact h.ramMv hkeeps hcall
      | reorder m₂ =>
          cases hcall
          split_ifs with hperm
          · exact h.same (List.isPerm_iff.mp hperm)
          · exact h

theorem sound_of_run (h : Run step Keeps ramNew es m) : Sound m :=
  h.keeps sound_ramNew fun _ _ _ _ hok hstep hs => hs.step hok hstep

/-- In every state that calls with `Keeps` lead to, no path is both a file and a directory. -/
theorem agree_of_run (h : Run step Keeps ramNew es m) : Sound m ∧ ∀ p, Agree m p :=
  ⟨sound_of_run h, (sound_of_run h).agree⟩

/-- A directory is made, a file is written into it, and the directory is renamed. -/
def renamed : List Event :=
  [.mkdir "/d".toList, .write "/d/x".toList "one".toList false, .mv "/d".toList "/e".toList]

theorem run_renamed : ∃ m, Run step Keeps ramNew renamed m := by
  have hmade : step (.mkdir "/d".toList) ramNew = some (ramNew.insert "/d".toList .dir) := rfl
  have hwritten : step (.write "/d/x".toList "one".toList false) (ramNew.insert "/d".toList .dir) =
      some ((ramNew.insert "/d".toList .dir).insert "/d/x".toList (.text "one".toList)) := rfl
  have hall : ∀ k ∈ (ramNew.insert "/d".toList .dir).insert "/d/x".toList (.text "one".toList),
      Under "/d".toList k ∧ mvKey "/d".toList "/e".toList k ≠ root := by
    intro k hk
    rcases (AList.mem_insert _).mp hk with rfl | hk
    · exact ⟨.inr ⟨"x".toList, rfl⟩, by decide⟩
    · rcases (AList.mem_insert _).mp hk with rfl | hk
      · exact ⟨.inl rfl, by decide⟩
      · exact absurd hk (AList.notMem_empty k)
  refine ⟨_, .snoc (.snoc (.snoc .nil ?_ hmade) ?_ hwritten) ?_ rfl⟩
  · exact fun _ => ⟨by decide, fun k s hk => by cases hk⟩
  · intro _ k s hk
    by_cases hd : k = "/d".toList
    · subst hd
      cases hk
    · rw [AList.lookup_insert_ne hd] at hk
      cases hk
  · exact fun _ => ⟨fun k hk _ => (hall k hk).2,
      fun k s hk hu => absurd (hall k (mem_of_lookup hk)).1 hu, fun _ _ _ _ k' hk' hu => absurd (hall k' hk').1 hu⟩

theorem agree_of_run_renamed : ∃ m, Run step Keeps ramNew renamed m ∧ Sound m ∧ ∀ p, Agree m p := by
  obtain ⟨m, hm⟩ := run_renamed
  exact ⟨m, hm, agree_of_run hm⟩

/-- A file below a file: `ram-write!` looks at the path and below it, not at what is above it. -/
def fileBelowFile : List Event :=
  [.write "/a".toList "one".toList false, .write "/a/b".toList "two".toList false]

theorem not_agree_fileBelowFile :
    ∃ m, Run step (fun _ _ => True) ramNew fileBelowFile m ∧ ¬Sound m ∧ ¬Agree m "/a".toList := by
  refine ⟨_, run_of_runEvents rfl, fun h => ?_, ?_⟩
  · refine h.leaf "/a".toList "one".toList rfl "/a/b".toList ?_ ⟨"b".toList, rfl⟩
    exact (AList.mem_insert _).mpr (.inl rfl)
  · rintro (⟨s, -, -, hls⟩ | ⟨hstat, -⟩ | ⟨hstat, -⟩)
    · cases hls
    · cases hstat
    · cases hstat

end Beeros.RamFs
