import Beeros.Interleave
import Beeros.RamFs
import Beeros.UstarArchive
import Mathlib.Data.List.Infix

/-! Paths through tar files in `lib/fs.beer`: an archive is read and indexed once, and kept until the inode number,
modification time and size of its file change. When do reads see what the file holds now? -/

namespace Beeros.TarCache

open Interleave

inductive Kind
  | file
  | dir
  | link
  | other
  deriving DecidableEq

/-- What `:stat` gives; a field that a file system does not have is nil. -/
structure Stat where
  type : Kind
  size : Int
  ino : Option Nat
  mtime : Option Nat
  tar : Option Str

inductive Op
  | ls
  | slurp
  | readBytes
  | stat
  | lstat

inductive Value
  | names (ns : List Str)
  | text (s : Str)
  | bytes (bs : List UInt8)
  | stat (st : Stat)

inductive Reason
  | notFound
  | notADirectory
  | isADirectory
  | notUtf8

inductive Failure (ε : Type)
  /-- Thrown by the file system's operation. -/
  | fs (e : ε)
  /-- Thrown by `beer.ustar`. -/
  | ustar (e : Ustar.Failure)
  /-- Thrown by `tar-fail!`. -/
  | tar (op : Op) (path : Str) (reason : Reason)
  /-- The archive has more headers than the rounds that `index` was given. -/
  | endless

/-- `(op k path)` for the mounted file systems in their state. -/
structure Ops (σ ε : Type) where
  ls : σ → Str → Except ε (List Str)
  slurp : σ → Str → Except ε Str
  readBytes : σ → Str → Except ε (List UInt8)
  stat : σ → Str → Except ε Stat
  lstat : σ → Str → Except ε Stat

/-- An archive in `tar-cache`, under `[(:ino st) (:mtime st) (:size st)]`. -/
structure Cached where
  key : Option Nat × Option Nat × Int
  bytes : List UInt8
  index : Ustar.Index

/-- The file systems and `tar-cache`. -/
structure State (σ : Type) where
  fs : σ
  cache : AList fun _ : Str => Cached

def Stat.key (st : Stat) : Option Nat × Option Nat × Int := (st.ino, st.mtime, st.size)

section Reads

variable {σ ε : Type} (ops : Ops σ ε) (readString : Str → Except Ustar.Failure Ustar.Form)
  (toStringLossy : List UInt8 → Str) (fuel : Nat)

def Ops.op (fs : σ) : Op → Str → Except (Failure ε) Value
  | .ls, path => ((ops.ls fs path).map Value.names).mapError .fs
  | .slurp, path => ((ops.slurp fs path).map Value.text).mapError .fs
  | .readBytes, path => ((ops.readBytes fs path).map Value.bytes).mapError .fs
  | .stat, path => ((ops.stat fs path).map Value.stat).mapError .fs
  | .lstat, path => ((ops.lstat fs path).map Value.stat).mapError .fs

def tarFile (fs : σ) (path : Str) : Bool :=
  ".tar".toList.isSuffixOf path &&
    match ops.stat fs path with
    | .ok st => decide (st.type = .file)
    | .error _ => false

/-- The loop of `split-tar`, with the parts that are left. -/
def splitLoop (fs : σ) (path : Str) : Str → List Str → Option (Str × Str)
  | _, [] => none
  | pre, p :: more =>
      let pre := pre ++ "/".toList ++ p
      if more ≠ [] ∧ tarFile ops fs pre then some (pre, ['/'].intercalate (more.filter (· ≠ [])))
      else if more = [] ∧ ".tar/".toList.isSuffixOf path ∧ tarFile ops fs pre then some (pre, [])
      else splitLoop fs path pre more

def splitTar (fs : σ) (path : Str) : Option (Str × Str) := splitLoop ops fs path [] (path.splitOn '/').tail

/-- `(beer.ustar/index b)`. -/
def indexOf (b : List UInt8) : Except (Failure ε) Ustar.Index :=
  match Ustar.index b readString toStringLossy fuel with
  | none => .error .endless
  | some r => r.mapError .ustar

/-- The archive of `tar-open`, and `tar-cache` after it. -/
def tarOpen (st : State σ) (tp : Str) : Except (Failure ε) (Cached × State σ) := do
  let s ← (ops.stat st.fs tp).mapError .fs
  match (st.cache.lookup tp).filter fun c => decide (c.key = s.key) with
  | some c => return (c, st)
  | none =>
      let b ← (ops.readBytes st.fs tp).mapError .fs
      let c : Cached := ⟨s.key, b, ← indexOf readString toStringLossy fuel b⟩
      return (c, { st with cache := st.cache.insert tp c })

def tarDir (index : Ustar.Index) (inner : Str) : Bool :=
  inner == [] || (index.lookup inner).any (fun e => decide (e.type = .dir)) ||
    index.keys.any fun n => (inner ++ "/".toList).isPrefixOf n

def kindOf : Ustar.EntryType → Kind
  | .file => .file
  | .dir => .dir
  | .link => .link
  | .other => .other

def tarStat (k : Op) (path tp inner : Str) (t : Cached) : Except (Failure ε) Value :=
  match (t.index.lookup inner).filter fun e => decide (e.type ≠ .dir) with
  | some e => .ok (.stat ⟨kindOf e.type, e.size, none, none, some tp⟩)
  | none =>
      if tarDir t.index inner then .ok (.stat ⟨.dir, 0, none, none, some tp⟩)
      else .error (.tar k path .notFound)

def tarLs (k : Op) (path inner : Str) (t : Cached) : Except (Failure ε) Value :=
  if tarDir t.index inner then
    let pre := if inner = [] then [] else inner ++ "/".toList
    let below := t.index.keys.filter fun n => pre.isPrefixOf n && n != pre
    let names := below.map fun n => ((n.drop pre.length).splitOn '/').headD []
    .ok (.names (names.eraseDups.mergeSort fun a b => decide (a ≤ b)))
  else .error (.tar k path .notADirectory)

/-- The entry's data, for `:read-bytes` and `:slurp`. -/
def tarData (k : Op) (path inner : Str) (t : Cached) : Except (Failure ε) (List UInt8) :=
  match t.index.lookup inner with
  | none => .error (.tar k path .notFound)
  | some e =>
      if e.type = .dir then .error (.tar k path .isADirectory)
      else (Ustar.entryBytes t.bytes e).mapError .ustar

/-- What `tar-op` makes of the opened archive. -/
def tarResult (k : Op) (path tp inner : Str) (t : Cached) : Except (Failure ε) Value :=
  match k with
  | .stat => tarStat k path tp inner t
  | .lstat => tarStat k path tp inner t
  | .ls => tarLs k path inner t
  | .readBytes => return .bytes (← tarData k path inner t)
  | .slurp => do
      match Utf8.decode (← tarData k path inner t) with
      | some s => return .text s
      | none => .error (.tar k path .notUtf8)

/-- A read: what it gives, and the state after it. -/
def pathOp (k : Op) (path : Str) (st : State σ) : Except (Failure ε) Value × State σ :=
  match if ".tar/".toList <:+: path then splitTar ops st.fs path else none with
  | none => (ops.op st.fs k path, st)
  | some (tp, inner) =>
      match tarOpen ops readString toStringLossy fuel st tp with
      | .error e => (.error e, st)
      | .ok (t, st') => (tarResult k path tp inner t, st')

/-- The archive as the bytes that are there now give it. -/
def archiveNow (fs : σ) (tp : Str) : Except (Failure ε) Cached := do
  let s ← (ops.stat fs tp).mapError .fs
  let b ← (ops.readBytes fs tp).mapError .fs
  return ⟨s.key, b, ← indexOf readString toStringLossy fuel b⟩

/-- What a read gives that indexes the archive again. -/
def pathNow (k : Op) (path : Str) (fs : σ) : Except (Failure ε) Value :=
  match if ".tar/".toList <:+: path then splitTar ops fs path else none with
  | none => ops.op fs k path
  | some (tp, inner) => do tarResult k path tp inner (← archiveNow ops readString toStringLossy fuel fs tp)

/-! ### Runs -/

inductive Event (σ : Type)
  /-- Writes, renames, removals and the passing of time lead to another state of the file systems. -/
  | change (fs : σ)
  | read (k : Op) (path : Str)

def step : Event σ → State σ → Option (State σ)
  | .change fs, st => some { st with fs := fs }
  | .read k path, st => some (pathOp ops readString toStringLossy fuel k path st).2

/-- A change leaves no archive that was indexed under the key that its path has then, except with the bytes it
had. -/
def NewKeys : Event σ → State σ → Prop
  | .change fs, st => ∀ tp c s, st.cache.lookup tp = some c → ops.stat fs tp = .ok s → s.key = c.key →
      ops.readBytes fs tp = .ok c.bytes
  | .read _ _, _ => True

/-- What the cache holds is the index of the bytes that are there now, as long as the key is the same. -/
structure Coherent (st : State σ) : Prop where
  index : ∀ tp c, st.cache.lookup tp = some c →
    indexOf (ε := ε) readString toStringLossy fuel c.bytes = .ok c.index
  bytes : ∀ tp c s, st.cache.lookup tp = some c → ops.stat st.fs tp = .ok s → s.key = c.key →
    ops.readBytes st.fs tp = .ok c.bytes

variable {ops readString toStringLossy fuel} {st st' : State σ} {tp : Str} {c : Cached}

theorem mapError_ok {α ε' : Type} (f : ε → ε') (a : α) : (Except.ok a).mapError f = .ok a := rfl

theorem mapError_eq_ok {α ε' : Type} {f : ε → ε'} {x : Except ε α} {a : α} :
    x.mapError f = .ok a ↔ x = .ok a := by
  cases x with
  | error e => exact ⟨nofun, nofun⟩
  | ok b =>
      constructor
      · exact fun h => congrArg Except.ok (Except.ok.inj h)
      · exact fun h => congrArg Except.ok (Except.ok.inj h)

/-- Opening finds the cached archive under the same key, or reads and indexes the file. -/
theorem tarOpen_cases (h : tarOpen ops readString toStringLossy fuel st tp = .ok (c, st')) :
    ∃ s, ops.stat st.fs tp = .ok s ∧ c.key = s.key ∧
      ((st.cache.lookup tp = some c ∧ st' = st) ∨
        (ops.readBytes st.fs tp = .ok c.bytes ∧
          indexOf (ε := ε) readString toStringLossy fuel c.bytes = .ok c.index ∧
          st' = { st with cache := st.cache.insert tp c })) := by
  obtain ⟨s, hs, h⟩ := Beerlang.bind_eq_ok.mp h
  refine ⟨s, mapError_eq_ok.mp hs, ?_⟩
  split at h
  case h_1 c' hc =>
    obtain ⟨rfl, rfl⟩ := Prod.mk.inj (Except.ok.inj h)
    obtain ⟨hc, hkey⟩ := Option.filter_eq_some_iff.mp hc
    exact ⟨of_decide_eq_true hkey, .inl ⟨hc, rfl⟩⟩
  case h_2 =>
    obtain ⟨b, hb, h⟩ := Beerlang.bind_eq_ok.mp h
    obtain ⟨i, hi, h⟩ := Beerlang.bind_eq_ok.mp h
    obtain ⟨rfl, rfl⟩ := Prod.mk.inj (Except.ok.inj h)
    exact ⟨rfl, .inr ⟨mapError_eq_ok.mp hb, hi, rfl⟩⟩

theorem newKeys_empty (fs fs' : σ) : NewKeys ops (.change fs') ⟨fs, ∅⟩ := fun _ _ _ hc => nomatch hc

/-- A change, a read and another change. -/
theorem run_rewrite {ok : Event σ → State σ → Prop} {fs m m' : σ} {k : Op} {path : Str}
    (hst : (pathOp ops readString toStringLossy fuel k path ⟨m, ∅⟩).2 = st) (hok : ok (.change m) ⟨fs, ∅⟩)
    (hread : ok (.read k path) ⟨m, ∅⟩) (hok' : ok (.change m') st) :
    Run (step ops readString toStringLossy fuel) ok ⟨fs, ∅⟩ [.change m, .read k path, .change m']
      { st with fs := m' } := by
  subst hst
  exact .snoc (.snoc (.snoc .nil hok rfl) hread rfl) hok' rfl

theorem coherent_empty (fs : σ) : Coherent ops readString toStringLossy fuel ⟨fs, ∅⟩ :=
  ⟨nofun, nofun⟩

/-- An opened archive holds the bytes that are there now and their index. -/
theorem Coherent.tarOpen_ok (h : Coherent ops readString toStringLossy fuel st)
    (hopen : tarOpen ops readString toStringLossy fuel st tp = .ok (c, st')) :
    ∃ s, ops.stat st.fs tp = .ok s ∧ c.key = s.key ∧ ops.readBytes st.fs tp = .ok c.bytes ∧
      indexOf (ε := ε) readString toStringLossy fuel c.bytes = .ok c.index := by
  obtain ⟨s, hs, hkey, ⟨hc, -⟩ | ⟨hb, hi, -⟩⟩ := tarOpen_cases hopen
  · exact ⟨s, hs, hkey, h.bytes tp c s hc hs hkey.symm, h.index tp c hc⟩
  · exact ⟨s, hs, hkey, hb, hi⟩

theorem Coherent.insert (h : Coherent ops readString toStringLossy fuel st)
    (hb : ops.readBytes st.fs tp = .ok c.bytes)
    (hi : indexOf (ε := ε) readString toStringLossy fuel c.bytes = .ok c.index) :
    Coherent ops readString toStringLossy fuel { st with cache := st.cache.insert tp c } := by
  constructor
  · intro tp' c' hc'
    rcases eq_or_ne tp' tp with rfl | hne
    · obtain rfl := Option.some.inj ((AList.lookup_insert st.cache).symm.trans hc')
      exact hi
    · exact h.index tp' c' ((AList.lookup_insert_ne hne).symm.trans hc')
  · intro tp' c' s' hc' hs' hkey'
    rcases eq_or_ne tp' tp with rfl | hne
    · obtain rfl := Option.some.inj ((AList.lookup_insert st.cache).symm.trans hc')
      exact hb
    · exact h.bytes tp' c' s' ((AList.lookup_insert_ne hne).symm.trans hc') hs' hkey'

theorem pathOp_fs (k : Op) (path : Str) :
    (pathOp ops readString toStringLossy fuel k path st).2.fs = st.fs := by
  unfold TarCache.pathOp
  split
  case h_1 => rfl
  case h_2 tp inner _ =>
    split
    case h_1 => rfl
    case h_2 c st' hopen =>
      obtain ⟨s, hs, hkey, ⟨-, rfl⟩ | ⟨hb, hi, rfl⟩⟩ := tarOpen_cases hopen
      · rfl
      · rfl

/-- Reads change the cache only, and keep it coherent. -/
theorem Coherent.pathOp (h : Coherent ops readString toStringLossy fuel st) (k : Op) (path : Str) :
    Coherent ops readString toStringLossy fuel (pathOp ops readString toStringLossy fuel k path st).2 := by
  unfold TarCache.pathOp
  split
  case h_1 => exact h
  case h_2 tp inner _ =>
    split
    case h_1 => exact h
    case h_2 c st' hopen =>
      obtain ⟨s, hs, hkey, ⟨-, rfl⟩ | ⟨hb, hi, rfl⟩⟩ := tarOpen_cases hopen
      · exact h
      · exact h.insert hb hi

theorem Coherent.step {e : Event σ} (h : Coherent ops readString toStringLossy fuel st) (hnew : NewKeys ops e st)
    (hstep : step ops readString toStringLossy fuel e st = some st') :
    Coherent ops readString toStringLossy fuel st' := by
  cases e with
  | change fs =>
      obtain rfl := Option.some.inj hstep
      exact ⟨h.index, hnew⟩
  | read k path =>
      obtain rfl := Option.some.inj hstep
      exact h.pathOp k path

/-- An archive opens as indexing the bytes that are there now gives it. -/
theorem Coherent.tarOpen_now (h : Coherent ops readString toStringLossy fuel st) (tp : Str) :
    (tarOpen ops readString toStringLossy fuel st tp).map Prod.fst =
      archiveNow ops readString toStringLossy fuel st.fs tp := by
  unfold tarOpen archiveNow
  cases hs : ops.stat st.fs tp with
  | error e => rfl
  | ok s =>
      rw [mapError_ok, Beerlang.ok_bind, Beerlang.ok_bind]
      split
      case h_1 c hc =>
        obtain ⟨hc, hkey⟩ := Option.filter_eq_some_iff.mp hc
        have hkey := of_decide_eq_true hkey
        rw [h.bytes tp c s hc hs hkey.symm, mapError_ok, Beerlang.ok_bind, h.index tp c hc, ← hkey]
        rfl
      case h_2 =>
        cases hb : ops.readBytes st.fs tp with
        | error e => rfl
        | ok b =>
            rw [mapError_ok, Beerlang.ok_bind, Beerlang.ok_bind]
            cases indexOf (ε := ε) readString toStringLossy fuel b with
            | error e => rfl
            | ok i => rfl

theorem Coherent.pathOp_now (h : Coherent ops readString toStringLossy fuel st) (k : Op) (path : Str) :
    (TarCache.pathOp ops readString toStringLossy fuel k path st).1 =
      pathNow ops readString toStringLossy fuel k path st.fs := by
  unfold TarCache.pathOp pathNow
  split
  case h_1 => rfl
  case h_2 tp inner _ =>
    rw [← h.tarOpen_now tp]
    cases tarOpen ops readString toStringLossy fuel st tp with
    | error e => rfl
    | ok r => rfl

/-- In a run whose changes leave no archive another content under its old key, every read gives what indexing the
archive again gives. -/
theorem pathOp_of_run {fs : σ} {es : List (Event σ)}
    (h : Run (step ops readString toStringLossy fuel) (NewKeys ops) ⟨fs, ∅⟩ es st) (k : Op) (path : Str) :
    (pathOp ops readString toStringLossy fuel k path st).1 =
      pathNow ops readString toStringLossy fuel k path st.fs := by
  apply Coherent.pathOp_now
  exact h.keeps (coherent_empty fs) fun e s s' _ hok hstep hs => hs.step hok hstep

end Reads

/-! ### A RAM file system at `/` -/

inductive RamFailure
  /-- `path must be absolute`. -/
  | relative (path : Str)
  | ram (e : RamFs.Failure)

def ramAt {α : Type} (path : Str) (r : Except RamFs.Failure α) : Except RamFailure α :=
  if path.head? = some '/' then r.mapError .ram else .error (.relative path)

/-- The stat of `ram-stat`: no inode number and no time. -/
def ramStat (m : RamFs.Files) (path : Str) : Except RamFs.Failure Stat := do
  let s ← RamFs.ramStat m path
  return ⟨if s.type = .file then .file else .dir, s.size, none, none, none⟩

def ramOps : Ops RamFs.Files RamFailure where
  ls m path := ramAt path (RamFs.ramLs m path)
  slurp m path := ramAt path (RamFs.ramSlurp m path)
  readBytes m path := ramAt path ((RamFs.ramSlurp m path).map Utf8.encode)
  stat m path := ramAt path (ramStat m path)
  lstat m path := ramAt path (ramStat m path)

/-- A change that a call of the RAM file system makes. -/
def ByCall : Event RamFs.Files → State RamFs.Files → Prop
  | .change m, st => ∃ e, RamFs.step e st.fs = some m
  | .read _ _, _ => True

def nulText (n : Nat) : Str := List.replicate n '\x00'

/-- The text of an archive with one empty entry whose name has four letters. -/
def entryText (name : String) : Str := name.toList ++ nulText 120 ++ "00000000000".toList ++ nulText 377

def archivePath : Str := "/a.tar".toList

@[irreducible] def written (s : Str) : RamFs.Files := (∅ : RamFs.Files).insert archivePath (.text s)

def notePath : Str := "/a.tar/note".toList

@[irreducible] def indexed : State RamFs.Files :=
  (pathOp ramOps Ustar.readInt Ustar.lossy 2 .stat notePath ⟨written (entryText "note"), ∅⟩).2

theorem indexed_eq :
    (pathOp ramOps Ustar.readInt Ustar.lossy 2 .stat notePath ⟨written (entryText "note"), ∅⟩).2 = indexed := by
  unfold indexed
  rfl

theorem indexed_fs : indexed.fs = written (entryText "note") := by
  rw [← indexed_eq, pathOp_fs]

theorem step_write_new (t : Str) : RamFs.step (.write archivePath t false) RamFs.ramNew = some (written t) := by
  unfold written
  rfl

theorem step_write_over (s t : Str) : RamFs.step (.write archivePath t false) (written s) = some (written t) := by
  unfold written
  rfl

/-- The cache after the first call, and the stat of a longer archive. -/
theorem cache_indexed : indexed.cache.keys = [archivePath] ∧
    (indexed.cache.lookup archivePath).map Cached.key = some (none, none, 512) ∧
      (ramOps.stat (written (nulText 1024)) archivePath).toOption.map Stat.key = some (none, none, 1024) := by
  decide +kernel

theorem eq_archivePath {tp : Str} {c : Cached} (hc : indexed.cache.lookup tp = some c) : tp = archivePath := by
  have hmem : tp ∈ indexed.cache.keys := AList.lookup_isSome.mp (Option.isSome_of_mem hc)
  rw [cache_indexed.1] at hmem
  exact List.mem_singleton.mp hmem

theorem newKeys_longer : NewKeys ramOps (.change (written (nulText 1024))) indexed := by
  intro tp c s hc hs hkey
  obtain rfl := eq_archivePath hc
  have hold : c.key = (none, none, 512) := by
    have h := cache_indexed.2.1
    rw [hc] at h
    exact Option.some.inj h
  have hlonger := cache_indexed.2.2
  rw [hs] at hlonger
  have hnew : s.key = (none, none, 1024) := Option.some.inj hlonger
  rw [hold, hnew] at hkey
  exact absurd hkey (by decide)

theorem pathOp_of_run_longer :
    (pathOp ramOps Ustar.readInt Ustar.lossy 2 .stat notePath { indexed with fs := written (nulText 1024) }).1 =
      pathNow ramOps Ustar.readInt Ustar.lossy 2 .stat notePath (written (nulText 1024)) :=
  pathOp_of_run (run_rewrite indexed_eq (newKeys_empty RamFs.ramNew _) trivial newKeys_longer) .stat notePath

/-- The entry is still there after an archive of the same size without it is written over the first. -/
theorem not_pathOp_sameSize :
    ¬∀ es st, Run (step ramOps Ustar.readInt Ustar.lossy 2) ByCall ⟨RamFs.ramNew, ∅⟩ es st →
      ∀ k path, (pathOp ramOps Ustar.readInt Ustar.lossy 2 k path st).1 =
        pathNow ramOps Ustar.readInt Ustar.lossy 2 k path st.fs := by
  intro h
  have hnew : ByCall (.change (written (entryText "note"))) ⟨RamFs.ramNew, ∅⟩ :=
    ⟨_, step_write_new (entryText "note")⟩
  have hover : ByCall (.change (written (entryText "memo"))) indexed :=
    ⟨_, indexed_fs ▸ step_write_over (entryText "note") (entryText "memo")⟩
  have hrun := run_rewrite indexed_eq hnew trivial hover
  have heq := congrArg Except.isOk (h _ _ hrun .stat notePath)
  have hcached : (pathOp ramOps Ustar.readInt Ustar.lossy 2 .stat notePath
      { indexed with fs := written (entryText "memo") }).1.isOk = true := by decide +kernel
  have hnow :
      (pathNow ramOps Ustar.readInt Ustar.lossy 2 .stat notePath (written (entryText "memo"))).isOk = false := by
    decide +kernel
  rw [hcached, hnow] at heq
  exact Bool.noConfusion heq

end Beeros.TarCache
