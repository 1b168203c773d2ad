import Beeros.Ext2Scan
import Beeros.Resolution

/-! Path resolution on any image. `resolve-inode` comes to an end whatever the links are, and the inode
that it finds is the one that the rules of resolution give over at most 40 links. -/

namespace Beeros.Ext2

open Memory Exec Resolution

/-! ### Programs that only read -/

/-- On every disk, `m` ends in one way and leaves the disk as it is, unless a transfer fails. -/
def Reads {α : Type} (m : Io α) : Prop := ∀ d, ∃ r, Gives m d r

section Reads

variable {α β : Type} {m m' : Io α} {f : α → Io β} {d : Bytes}

theorem reads_pure (a : α) : Reads (pure a : Io α) := fun _ => ⟨_, gives_pure a⟩

theorem reads_throw (e : Error) : Reads (throw e : Io α) := fun _ => ⟨_, gives_throw e⟩

theorem Reads.bind (h : Reads m) (hf : ∀ a, Reads (f a)) : Reads (m >>= f) := by
  intro d
  obtain ⟨r, hr⟩ := h d
  cases r with
  | ok a =>
      obtain ⟨r', hr'⟩ := hf a d
      exact ⟨r', hr.bind hr'⟩
  | error e => exact ⟨.error e, hr.bind_error⟩

theorem Reads.ite {c : Prop} [Decidable c] (h : Reads m) (h' : Reads m') :
    Reads (if c then m else m') := by
  split_ifs
  · exact h
  · exact h'

/-- A sequence gives what its second part gives on what its first part gives. -/
theorem Reads.bind_ok_iff (h : Reads m) (hf : ∀ a, Reads (f a)) {b : β} :
    Gives (m >>= f) d (.ok b) ↔ ∃ a, Gives m d (.ok a) ∧ Gives (f a) d (.ok b) := by
  constructor
  · intro hb
    obtain ⟨r, hr⟩ := h d
    cases r with
    | error e => cases hr.bind_error.unique hb
    | ok a =>
        obtain ⟨r', hr'⟩ := hf a d
        rw [← (hr.bind hr').unique hb]
        exact ⟨a, hr, hr'⟩
  · rintro ⟨a, ha, hb⟩
    exact ha.bind hb

theorem gives_pure_iff {a b : α} : Gives (pure a) d (.ok b) ↔ a = b := by
  constructor
  · intro h
    exact Except.ok.inj ((gives_pure a).unique h)
  · rintro rfl
    exact gives_pure a

theorem not_gives_throw {e : Error} {b : α} : ¬Gives (throw e) d (.ok b) := by
  intro h
  cases (gives_throw e).unique h

theorem gives_failWhen_iff {c : Prop} [Decidable c] {op : Op} {s : Subject} {r : Reason} :
    Gives (failWhen c op s r) d (.ok ()) ↔ ¬c := by
  refine ⟨fun h hc => ?_, gives_failWhen⟩
  cases (gives_failWhen_error hc).unique h

theorem reads_failWhen {c : Prop} [Decidable c] {op : Op} {s : Subject} {r : Reason} :
    Reads (failWhen c op s r) := (reads_throw _).ite (reads_pure _)

theorem reads_nth {l : List α} {i : Nat} : Reads (nth l i) := by
  unfold nth
  cases l[i]? with
  | none => exact reads_throw _
  | some a => exact reads_pure a

theorem reads_quot {a b : Nat} : Reads (quot a b) := (reads_throw _).ite (reads_pure _)

theorem reads_load {n o : Nat} {b : Buf} : Reads (load n b o) := (reads_pure _).ite (reads_throw _)

theorem reads_slice {start len : Nat} {b : Buf} : Reads (slice b start len) :=
  (reads_pure _).ite (reads_throw _)

theorem reads_u32s {b : Buf} {o n : Nat} : Reads (u32s b o n) := by
  induction n generalizing o with
  | zero => exact reads_pure _
  | succ n ih => exact reads_load.bind fun x => ih.bind fun xs => reads_pure _

theorem reads_read {dev : Device} {lba n off : Nat} {buf : Buf} : Reads (dev.read lba n buf off) := by
  intro d
  by_cases h : n < 1 ∨ dev.sectors < lba + n ∨ buf.capacity < off + n * dev.sectorSize
  · exact ⟨_, gives_read_error h⟩
  · exact ⟨_, gives_read (by omega) (by omega) (by omega)⟩

theorem reads_readBlock {fs : Fs} {b : Nat} : Reads (readBlock fs b) := reads_read.ite (reads_pure _)

end Reads

section Readers

variable {fs : Fs}

theorem reads_readInode (ino : Nat) : Reads (readInode fs ino) :=
  reads_failWhen.bind fun _ => reads_quot.bind fun _ => reads_nth.bind fun _ =>
    reads_readBlock.bind fun _ => reads_load.bind fun _ => reads_load.bind fun _ =>
    (reads_load.ite (reads_pure _)).bind fun _ => reads_load.bind fun _ => reads_load.bind fun _ =>
    reads_load.bind fun _ => reads_load.bind fun _ => reads_load.bind fun _ => reads_load.bind fun _ =>
    reads_load.bind fun _ => reads_u32s.bind fun _ => reads_slice.bind fun _ => reads_pure _

theorem reads_collect (depth blk need : Nat) : Reads (collect fs depth blk need) := by
  induction depth generalizing blk need with
  | zero => exact reads_pure _
  | succ depth ih =>
      have hloop : ∀ (ptr : Nat → Io Nat), (∀ i, Reads (ptr i)) → ∀ span fuel i acc left,
          Reads (collectLoop ptr (collect fs depth) span fuel i acc left) := by
        intro ptr hptr span fuel
        induction fuel with
        | zero => exact fun _ _ _ => reads_pure _
        | succ fuel ihf =>
            intro i acc left
            exact (reads_pure _).ite ((hptr i).bind fun p => (ih p _).bind fun s => ihf _ _ _)
      exact (reads_readBlock.bind fun buf => hloop _ (fun _ => reads_load) _ _ _ _ _).ite
        (hloop _ (fun _ => reads_pure _) _ _ _ _ _)

theorem reads_fileBlocks (i : Inode) : Reads (fileBlocks fs i) := by
  unfold fileBlocks
  generalize ([] : List Nat) = acc, ceilDiv i.size fs.blockSize = left
  induction tops i.block generalizing acc left with
  | nil => exact reads_pure _
  | cons t ts ih => exact (reads_pure _).ite ((reads_collect _ _ _).bind fun s => ih _ _)

theorem reads_readInodeData (i : Inode) : Reads (readInodeData fs i) := by
  have hruns : ∀ blocks fuel i buf, Reads (readRuns fs blocks fuel i buf) := by
    intro blocks fuel
    induction fuel with
    | zero => exact fun _ _ => reads_pure _
    | succ fuel ih =>
        intro i buf
        exact (reads_nth.bind fun start => (reads_read.bind fun _ => ih _ _).ite (ih _ _)).ite
          (reads_pure _)
  exact (reads_fileBlocks i).bind fun blocks => (hruns _ _ _ _).bind fun buf =>
    (reads_pure _).ite reads_slice

theorem reads_lookup (dir : Inode) (name : Str) : Reads (lookup fs dir name) := by
  have hloop : ∀ dirIno buf size fuel o acc, Reads (entriesLoop fs dirIno buf size fuel o acc) := by
    intro dirIno buf size fuel
    induction fuel with
    | zero => exact fun _ _ => reads_throw _
    | succ fuel ih =>
        intro o acc
        exact (reads_pure _).ite (reads_load.bind fun ino => reads_load.bind fun len =>
          (reads_load.ite reads_load).bind fun nl => reads_failWhen.bind fun _ => (ih _ _).ite
          (reads_slice.bind fun nm => (reads_load.bind fun ft => ih _ _).ite (ih _ _)))
  exact ((reads_readInodeData dir).bind fun buf => hloop _ _ _ _ _ _).bind fun es => reads_pure _

theorem reads_linkTarget (i : Inode) : Reads (linkTarget fs i) :=
  (reads_slice.bind fun _ => reads_pure _).ite ((reads_readInodeData i).bind fun _ => reads_pure _)

theorem ends_readInode (ino : Nat) : Ends (readInode fs ino) := by
  have hwords : ∀ b o n, Ends (u32s b o n) := by
    intro b o n
    induction n generalizing o with
    | zero => exact ends_pure _
    | succ n ih => exact ends_load.bind fun x => (ih _).bind fun xs => ends_pure _
  exact ends_failWhen.bind fun _ => ends_quot.bind fun _ => ends_nth.bind fun _ =>
    ends_readBlock.bind fun _ => ends_load.bind fun _ => ends_load.bind fun _ =>
    (ends_load.ite (ends_pure _)).bind fun _ => ends_load.bind fun _ => ends_load.bind fun _ =>
    ends_load.bind fun _ => ends_load.bind fun _ => ends_load.bind fun _ => ends_load.bind fun _ =>
    ends_load.bind fun _ => (hwords _ _ _).bind fun _ => ends_slice.bind fun _ => ends_pure _

theorem ends_lookup (dir : Inode) (name : Str) : Ends (lookup fs dir name) :=
  (ends_dirEntries dir).bind fun _ => ends_pure _

theorem ends_linkTarget (i : Inode) : Ends (linkTarget fs i) :=
  (ends_slice.bind fun _ => ends_pure _).ite ((ends_readInodeData i).bind fun _ => ends_pure _)

end Readers

/-! ### The end of the loop -/

/-- The loop of `resolve-inode` as it stands, with the number of links followed so far. A round behind
the last one that the fuel allows counts as going on for ever. -/
def resolveLoop (fs : Fs) (path : Str) (follow : Bool) (root : Inode) :
    Nat → Inode → List Str → Nat → Io Inode
  | 0, _, _, _ => throw .diverges
  | _ + 1, cur, [], _ => pure cur
  | fuel + 1, cur, nm :: more, hops => do
      failWhen (cur.type ≠ .dir) .lookup (.path path) .notADirectory
      match ← lookup fs cur nm with
      | none => fail .lookup (.path path) .notFound
      | some ino =>
          let child ← readInode fs ino
          if child.type = .symlink ∧ (follow ∨ more ≠ []) then
            let target ← linkTarget fs child
            failWhen (hops ≥ maxSymlinkHops) .lookup (.path path) .tooManyLinks
            let target ← needString target
            resolveLoop fs path follow root fuel (if target.head? = some '/' then root else cur)
              (splitPath target ++ more) (hops + 1)
          else resolveLoop fs path follow root fuel child more hops

def resolveInodeLoop (fs : Fs) (path : Str) (follow : Bool) (fuel : Nat) : Io Inode := do
  let root ← readInode fs rootIno
  resolveLoop fs path follow root fuel root (splitPath path) 0

section Resolve

variable {fs : Fs} {d : Bytes} {path : Str} {follow : Bool} {root cur r : Inode} {comps : List Str}

theorem resolveHops_cons (nm : Str) (more : List Str) (hops : Nat) :
    resolveHops fs path follow root hops cur (nm :: more) = (do
      failWhen (cur.type ≠ .dir) .lookup (.path path) .notADirectory
      match ← lookup fs cur nm with
      | none => fail .lookup (.path path) .notFound
      | some ino =>
          let child ← readInode fs ino
          if child.type = .symlink ∧ (follow ∨ more ≠ []) then
            let target ← linkTarget fs child
            match hops with
            | 0 => fail .lookup (.path path) .tooManyLinks
            | hops + 1 => do
                let target ← needString target
                resolveHops fs path follow root hops
                  (if target.head? = some '/' then root else cur) (splitPath target ++ more)
          else resolveHops fs path follow root hops child more) := by
  cases hops with
  | zero => rfl
  | succ hops => rfl

/-- The measure is the number of links left, then the number of components. -/
theorem settles_resolveLoop {hops left : Nat} (h : hops + left = maxSymlinkHops) :
    Settles (fun fuel => resolveLoop fs path follow root fuel cur comps hops)
      (resolveHops fs path follow root left cur comps) := by
  induction left generalizing hops cur comps with
  | zero =>
      have hmax : hops ≥ maxSymlinkHops := by omega
      induction comps generalizing cur with
      | nil => exact Settles.succ (settles_const _)
      | cons nm more ih =>
          rw [resolveHops_cons]
          refine Settles.succ (Settles.bind fun _ => Settles.bind fun found => ?_)
          cases found with
          | none => exact settles_const _
          | some ino =>
              refine Settles.bind fun child => Settles.ite (Settles.bind fun target => ?_) ih
              rw [failWhen, if_pos hmax]
              exact settles_const _
  | succ left ihl =>
      have hmax : ¬hops ≥ maxSymlinkHops := by omega
      induction comps generalizing cur with
      | nil => exact Settles.succ (settles_const _)
      | cons nm more ih =>
          rw [resolveHops_cons]
          refine Settles.succ (Settles.bind fun _ => Settles.bind fun found => ?_)
          cases found with
          | none => exact settles_const _
          | some ino =>
              refine Settles.bind fun child => Settles.ite (Settles.bind fun target => ?_) ih
              rw [failWhen, if_neg hmax]
              exact Settles.bind fun t => ihl (by omega)

theorem settles_resolveInodeLoop :
    Settles (resolveInodeLoop fs path follow) (resolveInode fs path follow) :=
  Settles.bind fun _ => settles_resolveLoop (Nat.zero_add _)

theorem ends_needString (s : Option Str) : Ends (needString s) := by
  cases s with
  | none => exact ends_throw (by decide)
  | some s => exact ends_pure s

theorem ends_resolveWith {next : Inode → Option Str → List Str → Io Inode}
    (hnext : ∀ cur target more, Ends (next cur target more)) :
    Ends (resolveWith fs path follow next cur comps) := by
  induction comps generalizing cur with
  | nil => exact ends_pure _
  | cons nm more ih =>
      refine ends_failWhen.bind fun _ => (ends_lookup _ _).bind fun found => ?_
      cases found with
      | none => exact ends_fail _ _ _
      | some ino =>
          exact (ends_readInode _).bind fun child =>
            ((ends_linkTarget _).bind fun _ => hnext _ _ _).ite ih

theorem ends_resolveHops (hops : Nat) : Ends (resolveHops fs path follow root hops cur comps) := by
  induction hops generalizing cur comps with
  | zero => exact ends_resolveWith fun _ _ _ => ends_fail _ _ _
  | succ hops ih => exact ends_resolveWith fun _ _ _ => (ends_needString _).bind fun _ => ih

theorem ends_resolveInode : Ends (resolveInode fs path follow) :=
  (ends_readInode _).bind fun _ => ends_resolveHops _

/-! ### The rules -/

/-- The tree of the image on the disk `d`, as the functions below `resolve-inode` read it. -/
def Fs.tree (fs : Fs) (d : Bytes) (root : Inode) : Tree Inode Str where
  root := root
  isDir n := n.type = .dir
  isLink n := n.type = .symlink
  entry dir nm child := ∃ ino, Gives (lookup fs dir nm) d (.ok (some ino)) ∧
    Gives (readInode fs ino) d (.ok child)
  target n absolute comps := ∃ t, Gives (linkTarget fs n) d (.ok (some t)) ∧
    absolute = decide (t.head? = some '/') ∧ comps = splitPath t

/-- By the rules, the path leads from the root inode to `r` over `k` links. -/
def Derives (fs : Fs) (d : Bytes) (path : Str) (follow : Bool) (k : Nat) (r : Inode) : Prop :=
  ∃ root, Gives (readInode fs rootIno) d (.ok root) ∧
    Resolves (fs.tree d root) follow root (splitPath path) k r

theorem functional_tree : (fs.tree d root).Functional where
  entry := by
    rintro cur nm child child' ⟨ino, hlook, hread⟩ ⟨ino', hlook', hread'⟩
    obtain rfl : ino = ino' := Option.some.inj (Except.ok.inj (hlook.unique hlook'))
    exact Except.ok.inj (hread.unique hread')
  target := by
    rintro n a a' comps comps' ⟨t, ht, rfl, rfl⟩ ⟨t', ht', rfl, rfl⟩
    obtain rfl : t = t' := Option.some.inj (Except.ok.inj (ht.unique ht'))
    exact ⟨rfl, rfl⟩

theorem reads_needString (s : Option Str) : Reads (needString s) := by
  cases s with
  | none => exact reads_throw _
  | some s => exact reads_pure s

theorem reads_resolveWith {next : Inode → Option Str → List Str → Io Inode}
    (hnext : ∀ cur target more, Reads (next cur target more)) :
    Reads (resolveWith fs path follow next cur comps) := by
  induction comps generalizing cur with
  | nil => exact reads_pure _
  | cons nm more ih =>
      refine reads_failWhen.bind fun _ => (reads_lookup _ _).bind fun found => ?_
      cases found with
      | none => exact reads_throw _
      | some ino =>
          exact (reads_readInode _).bind fun child =>
            ((reads_linkTarget _).bind fun _ => hnext _ _ _).ite ih

theorem reads_resolveHops (hops : Nat) : Reads (resolveHops fs path follow root hops cur comps) := by
  induction hops generalizing cur comps with
  | zero => exact reads_resolveWith fun _ _ _ => reads_throw _
  | succ hops ih => exact reads_resolveWith fun _ _ _ => (reads_needString _).bind fun _ => ih

theorem gives_needString_iff {s : Option Str} {t : Str} :
    Gives (needString s) d (.ok t) ↔ s = some t := by
  cases s with
  | none => exact ⟨fun h => absurd h not_gives_throw, nofun⟩
  | some s => exact gives_pure_iff.trans (Option.some_inj).symm

/-- One component: its entry is followed into the node, and `next` carries on where that is a link. -/
theorem gives_resolveWith_cons (root : Inode) {next : Inode → Option Str → List Str → Io Inode} {nm : Str}
    {more : List Str} (hnext : ∀ cur target more, Reads (next cur target more)) :
    Gives (resolveWith fs path follow next cur (nm :: more)) d (.ok r) ↔
      cur.type = .dir ∧ ∃ child, (fs.tree d root).entry cur nm child ∧
        if child.type = .symlink ∧ (follow ∨ more ≠ []) then
          ∃ target, Gives (linkTarget fs child) d (.ok target) ∧
            Gives (next cur target more) d (.ok r)
        else Gives (resolveWith fs path follow next child more) d (.ok r) := by
  have hchild : ∀ child, Reads (if child.type = .symlink ∧ (follow ∨ more ≠ []) then do
        let target ← linkTarget fs child
        next cur target more
      else resolveWith fs path follow next child more) := fun child =>
    ((reads_linkTarget _).bind fun _ => hnext _ _ _).ite (reads_resolveWith hnext)
  have hfound : ∀ found : Option Nat, Reads (match found with
      | none => fail .lookup (.path path) .notFound
      | some ino => do
          let child ← readInode fs ino
          if child.type = .symlink ∧ (follow ∨ more ≠ []) then
            let target ← linkTarget fs child
            next cur target more
          else resolveWith fs path follow next child more) := by
    intro found
    cases found with
    | none => exact reads_throw _
    | some ino => exact (reads_readInode _).bind hchild
  refine (reads_failWhen.bind_ok_iff fun _ => (reads_lookup _ _).bind hfound).trans ?_
  constructor
  · rintro ⟨⟨⟩, hdir, h⟩
    refine ⟨not_ne_iff.mp (gives_failWhen_iff.mp hdir), ?_⟩
    obtain ⟨found, hlook, h⟩ := ((reads_lookup _ _).bind_ok_iff hfound).mp h
    cases found with
    | none => exact absurd h not_gives_throw
    | some ino =>
        obtain ⟨child, hread, h⟩ := ((reads_readInode _).bind_ok_iff hchild).mp h
        refine ⟨child, ⟨ino, hlook, hread⟩, ?_⟩
        split_ifs at h ⊢
        · exact ((reads_linkTarget _).bind_ok_iff fun _ => hnext _ _ _).mp h
        · exact h
  · rintro ⟨hdir, child, ⟨ino, hlook, hread⟩, h⟩
    refine ⟨(), gives_failWhen (not_ne_iff.mpr hdir), hlook.bind (hread.bind ?_)⟩
    split_ifs at h ⊢
    · obtain ⟨target, htarget, h⟩ := h
      exact htarget.bind h
    · exact h

theorem gives_resolveHops_cons {nm : Str} {more : List Str} {hops : Nat} :
    Gives (resolveHops fs path follow root hops cur (nm :: more)) d (.ok r) ↔
      cur.type = .dir ∧ ∃ child, (fs.tree d root).entry cur nm child ∧
        if child.type = .symlink ∧ (follow ∨ more ≠ []) then
          ∃ t left, Gives (linkTarget fs child) d (.ok (some t)) ∧ hops = left + 1 ∧
            Gives (resolveHops fs path follow root left
              (if t.head? = some '/' then root else cur) (splitPath t ++ more)) d (.ok r)
        else Gives (resolveHops fs path follow root hops child more) d (.ok r) := by
  cases hops with
  | zero =>
      refine (gives_resolveWith_cons root fun _ _ _ => reads_throw _).trans ?_
      refine and_congr_right fun _ => exists_congr fun child => and_congr_right fun _ => ?_
      split_ifs
      · constructor
        · rintro ⟨target, -, h⟩
          exact absurd h not_gives_throw
        · rintro ⟨t, left, -, h, -⟩
          cases h
      · exact Iff.rfl
  | succ hops =>
      refine (gives_resolveWith_cons root fun _ _ _ =>
        (reads_needString _).bind fun _ => reads_resolveHops _).trans ?_
      refine and_congr_right fun _ => exists_congr fun child => and_congr_right fun _ => ?_
      split_ifs
      · constructor
        · rintro ⟨target, htarget, h⟩
          obtain ⟨t, ht, h⟩ :=
            ((reads_needString _).bind_ok_iff fun _ => reads_resolveHops _).mp h
          obtain rfl := gives_needString_iff.mp ht
          exact ⟨t, hops, htarget, rfl, h⟩
        · rintro ⟨t, left, htarget, hleft, h⟩
          obtain rfl := Nat.succ.inj hleft
          exact ⟨some t, htarget, (gives_pure t).bind h⟩
      · exact Iff.rfl

/-- `resolve-inode` with `hops` links left finds what the rules give over at most as many. -/
theorem gives_resolveHops_iff {hops : Nat} :
    Gives (resolveHops fs path follow root hops cur comps) d (.ok r) ↔
      ∃ k ≤ hops, Resolves (fs.tree d root) follow cur comps k r := by
  constructor
  · intro h
    induction hops using Nat.strong_induction_on generalizing cur comps with
    | _ hops ihh =>
        induction comps generalizing cur with
        | nil =>
            obtain rfl : cur = r := by
              cases hops with
              | zero => exact gives_pure_iff.mp h
              | succ hops => exact gives_pure_iff.mp h
            exact ⟨0, Nat.zero_le _, .done⟩
        | cons nm more ih =>
            obtain ⟨hdir, child, hentry, h⟩ := gives_resolveHops_cons.mp h
            split_ifs at h with hlink
            · obtain ⟨t, left, htarget, rfl, hleft⟩ := h
              obtain ⟨k, hk, hr⟩ := ihh left (Nat.lt_succ_self left) hleft
              refine ⟨k + 1, Nat.succ_le_succ hk, .link hdir hentry hlink ⟨t, htarget, rfl, rfl⟩ ?_⟩
              simp only [decide_eq_true_eq]
              exact hr
            · obtain ⟨k, hk, hr⟩ := ih h
              exact ⟨k, hk, .step hdir hentry hlink hr⟩
  · rintro ⟨k, hk, hr⟩
    induction hr generalizing hops with
    | done =>
        cases hops with
        | zero => exact gives_pure _
        | succ hops => exact gives_pure _
    | step hdir hentry hlink _ ih =>
        refine gives_resolveHops_cons.mpr ⟨hdir, _, hentry, ?_⟩
        change ¬(Inode.type _ = .symlink ∧ _) at hlink
        rw [if_neg hlink]
        exact ih hk
    | link hdir hentry hlink htarget _ ih =>
        obtain ⟨t, htarget, rfl, rfl⟩ := htarget
        obtain ⟨left, rfl⟩ : ∃ left, hops = left + 1 := ⟨hops - 1, by omega⟩
        refine gives_resolveHops_cons.mpr ⟨hdir, _, hentry, ?_⟩
        change Inode.type _ = .symlink ∧ _ at hlink
        rw [if_pos hlink]
        simp only [decide_eq_true_eq] at ih
        exact ⟨t, left, htarget, rfl, ih (Nat.le_of_succ_le_succ hk)⟩

theorem gives_resolveInode_iff : Gives (resolveInode fs path follow) d (.ok r) ↔
    ∃ k ≤ maxSymlinkHops, Derives fs d path follow k r := by
  refine ((reads_readInode _).bind_ok_iff fun _ => reads_resolveHops _).trans ?_
  constructor
  · rintro ⟨root, hroot, h⟩
    obtain ⟨k, hk, hr⟩ := gives_resolveHops_iff.mp h
    exact ⟨k, hk, root, hroot, hr⟩
  · rintro ⟨k, hk, root, hroot, hr⟩
    exact ⟨root, hroot, gives_resolveHops_iff.mpr ⟨k, hk, hr⟩⟩

theorem Derives.unique {k k' : Nat} {r' : Inode} (h : Derives fs d path follow k r)
    (h' : Derives fs d path follow k' r') : k = k' ∧ r = r' := by
  obtain ⟨root, hroot, hr⟩ := h
  obtain ⟨root', hroot', hr'⟩ := h'
  obtain rfl : root = root' := Except.ok.inj (hroot.unique hroot')
  exact hr.unique functional_tree hr'

/-- On any image and for any path, `resolve-inode` comes to an end; an inode that it returns is the one
that the rules give, over at most 40 links; and an inode that they give so is returned, unless a
transfer fails. -/
theorem resolveInode_rules (fs : Fs) (path : Str) (follow : Bool) (w : World) :
    (∃ n, ∀ fuel, n ≤ fuel →
      resolveInodeLoop fs path follow fuel w = resolveInode fs path follow w) ∧
    thrown (resolveInode fs path follow w) ≠ some .diverges ∧
    (∀ r w', resolveInode fs path follow w = .ok r w' →
      (∃ k ≤ maxSymlinkHops, Derives fs w.disk path follow k r) ∧
      ∀ k' r', Derives fs w.disk path follow k' r' → r' = r) ∧
    (∀ k r, k ≤ maxSymlinkHops → Derives fs w.disk path follow k r →
      (∃ w', resolveInode fs path follow w = .ok r w') ∨
      (∃ n, w.fails n = true) ∧ ∃ w', resolveInode fs path follow w = .error .device w') := by
  refine ⟨settles_resolveInodeLoop w, ends_resolveInode w, fun r w' hw => ?_, fun k r hk hr => ?_⟩
  · have hreads : Reads (resolveInode fs path follow) :=
      (reads_readInode _).bind fun _ => reads_resolveHops _
    obtain ⟨res, hres⟩ := hreads w.disk
    obtain ⟨rfl, -⟩ := hres.of_ok rfl hw
    obtain ⟨k, hk, hr⟩ := gives_resolveInode_iff.mp hres
    exact ⟨⟨k, hk, hr⟩, fun k' r' hr' => (hr'.unique hr).2⟩
  · obtain ⟨w', -, -, h | ⟨h, hn⟩⟩ := gives_resolveInode_iff.mpr ⟨k, hk, hr⟩ w rfl
    · exact .inl ⟨w', h⟩
    · exact .inr ⟨hn, w', h⟩

end Resolve

end Beeros.Ext2
