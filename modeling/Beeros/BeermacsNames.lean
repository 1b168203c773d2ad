import Mathlib.Data.List.Perm.Subperm
import Beeros.BeermacsKin

/-! The current buffer, the names of the buffers and the files they visit, over every run of the
command loop. -/

namespace Beeros.Beermacs

open Beerlang
open Exec
open Lines (Pos Valid)

namespace Editor

/-- Every buffer has the name of its key, and no two visit one file. -/
structure Keyed (ed : Editor) : Prop where
  name : ∀ k b, ed.buffers.lookup k = some b → b.name = k
  file : ∀ k k' b b' f, ed.buffers.lookup k = some b → ed.buffers.lookup k' = some b' →
    b.file = some f → b'.file = some f → k = k'

theorem Keyed.of_empty {ed : Editor} (h : ∀ k, ed.buffers.lookup k = none) : Keyed ed :=
  ⟨fun k _ hb => absurd ((h k).symm.trans hb) nofun, fun k _ _ _ _ hb => absurd ((h k).symm.trans hb) nofun⟩

/-- And there is a current buffer. -/
structure Named (ed : Editor) : Prop extends Keyed ed where
  current : ed.current ∈ ed.buffers

variable {ed ed' : Editor}

theorem Kin.back (h : Kin ed ed') {k : Str} {b' : Buffer} (hb' : ed'.buffers.lookup k = some b') :
    ∃ b, ed.buffers.lookup k = some b ∧ b.Sib b' := by
  have hk := h.same k
  rw [hb'] at hk
  exact rel_some hk

theorem Kin.mem (h : Kin ed ed') (k : Str) : k ∈ ed'.buffers ↔ k ∈ ed.buffers := by
  have hk := h.same k
  rw [← AList.lookup_isSome, ← AList.lookup_isSome]
  generalize ed.buffers.lookup k = o at hk
  generalize ed'.buffers.lookup k = o' at hk
  cases hk with
  | none => exact Iff.rfl
  | some s => exact Iff.rfl

theorem Kin.keyed (h : Kin ed ed') (hn : Keyed ed) : Keyed ed' := by
  refine ⟨fun k b' hb' => ?_, fun k k' b₁ b₂ f h₁ h₂ hf₁ hf₂ => ?_⟩
  · obtain ⟨b, hb, hs⟩ := h.back hb'
    rw [hs.name]
    exact hn.name k b hb
  · obtain ⟨c₁, hc₁, hs₁⟩ := h.back h₁
    obtain ⟨c₂, hc₂, hs₂⟩ := h.back h₂
    rw [hs₁.file] at hf₁
    rw [hs₂.file] at hf₂
    exact hn.file k k' c₁ c₂ f hc₁ hc₂ hf₁ hf₂

theorem Kin.named (h : Kin ed ed') (hn : Named ed) : Named ed' := by
  refine ⟨h.keyed hn.toKeyed, ?_⟩
  rw [h.current, h.mem]
  exact hn.current

/-! ### Buffers come and go -/

/-- The names `nm<2>`, `nm<3>`, ... -/
def numbered (nm : Str) (i : Nat) : Str := nm ++ ['<'] ++ decimal i ++ ['>']

theorem numbered_injective (nm : Str) : Function.Injective (numbered nm) := by
  intro i j h
  exact decimal_injective (List.append_cancel_left (List.append_cancel_right h))

/-- With `n` buffers one of the first `n + 1` numbered names is free. -/
theorem exists_free_number (ed : Editor) (nm : Str) :
    ∃ j, 2 ≤ j ∧ j < 2 + (ed.buffers.keys.length + 1) ∧ (ed.buffers.lookup (numbered nm j)).isSome = false := by
  by_contra hall
  push Not at hall
  have hsub : (List.range' 2 (ed.buffers.keys.length + 1)).map (numbered nm) ⊆ ed.buffers.keys := by
    intro x hx
    obtain ⟨j, hj, rfl⟩ := List.mem_map.mp hx
    rw [List.mem_range'_1] at hj
    rw [← AList.mem_keys, ← AList.lookup_isSome]
    exact Bool.of_not_eq_false (hall j hj.1 (by omega))
  have hnodup : ((List.range' 2 (ed.buffers.keys.length + 1)).map (numbered nm)).Nodup :=
    List.Nodup.map (numbered_injective nm) List.nodup_range'
  have hlen := (List.subperm_of_subset hnodup hsub).length_le
  rw [List.length_map, List.length_range'] at hlen
  omega

theorem uniqueName_ok (ed : Editor) (nm : Str) :
    ∃ nm', ed.uniqueName nm = .ok nm' ∧ ed.buffers.lookup nm' = none := by
  unfold uniqueName
  by_cases hnm : (ed.buffers.lookup nm).isNone = true
  · exact ⟨nm, if_pos hnm, Option.isNone_iff_eq_none.mp hnm⟩
  · rw [if_neg hnm]
    obtain ⟨j, h₂, hlt, hfree⟩ := exists_free_number ed nm
    obtain ⟨k, hk, hnone⟩ := loop_search (p := fun i => (ed.buffers.lookup (numbered nm i)).isSome)
      (g := numbered nm) h₂ hlt hfree
    exact ⟨_, hk, Option.isSome_eq_false_iff.mp hnone |> Option.isNone_iff_eq_none.mp⟩

theorem lookup_addBuffer {bf : Buffer} (h : ed.addBuffer bf = .ok ed') :
    ∃ nm, ed.buffers.lookup nm = none ∧ ed'.current = nm ∧
      ∀ k, ed'.buffers.lookup k = if k = nm then some { bf with name := nm } else ed.buffers.lookup k := by
  unfold addBuffer at h
  obtain ⟨nm, hnm, hnone⟩ := uniqueName_ok ed bf.name
  rw [hnm] at h
  cases h
  refine ⟨nm, hnone, rfl, fun k => ?_⟩
  split_ifs with hk
  · rw [hk]
    exact AList.lookup_insert _
  · exact AList.lookup_insert_ne hk

/-- No buffer visits the file. -/
def Unvisited (ed : Editor) (f : Str) : Prop := ∀ k b, ed.buffers.lookup k = some b → b.file ≠ some f

theorem named_addBuffer {bf : Buffer} (h : ed.addBuffer bf = .ok ed') (hk : Keyed ed)
    (hf : ∀ f, bf.file = some f → Unvisited ed f) : Named ed' := by
  obtain ⟨nm, hnone, hcur, hlook⟩ := lookup_addBuffer h
  refine ⟨⟨fun k b hb => ?_, fun k k' b b' f hb hb' hbf hbf' => ?_⟩, ?_⟩
  · rw [hlook] at hb
    split_ifs at hb with hkn
    · cases hb
      exact hkn.symm
    · exact hk.name k b hb
  · rw [hlook] at hb hb'
    split_ifs at hb hb' with h₁ h₂ h₂
    · rw [h₁, h₂]
    · cases hb
      exact absurd hbf' (hf f hbf k' b' hb')
    · cases hb'
      exact absurd hbf (hf f hbf' k b hb)
    · exact hk.file k k' b b' f hb hb' hbf hbf'
  · rw [← AList.lookup_isSome, hlook, hcur, if_pos rfl]
    rfl

theorem all_addBuffer {Q : Buffer → Prop} {bf : Buffer} (h : ed.addBuffer bf = .ok ed') (hall : All Q ed)
    (hbf : ∀ nm, Q { bf with name := nm }) : All Q ed' := by
  obtain ⟨nm, -, -, hlook⟩ := lookup_addBuffer h
  intro k b hb
  rw [hlook] at hb
  split_ifs at hb
  · cases hb
    exact hbf nm
  · exact hall k b hb

theorem lookup_of_erase {k nm : Str} {b : Buffer} (h : (ed.buffers.erase nm).lookup k = some b) :
    ed.buffers.lookup k = some b := by
  by_cases hk : k = nm
  · rw [hk, AList.lookup_erase] at h
    cases h
  · rwa [AList.lookup_erase_ne hk] at h

theorem Keyed.erase (h : Keyed ed) (nm : Str) : Keyed { ed with buffers := ed.buffers.erase nm } :=
  ⟨fun k b hb => h.name k b (lookup_of_erase hb),
    fun k k' b b' f hb hb' => h.file k k' b b' f (lookup_of_erase hb) (lookup_of_erase hb')⟩

theorem All.erase {Q : Buffer → Prop} (h : All Q ed) (nm : Str) :
    All Q { ed with buffers := ed.buffers.erase nm } :=
  fun k b hb => h k b (lookup_of_erase hb)

theorem Keyed.go (h : Keyed ed) {k : Str} (hk : k ∈ ed.buffers) : Named { ed with current := k } :=
  ⟨⟨h.name, h.file⟩, hk⟩

/-- What `find-file-noselect` finds is the name of a buffer. -/
theorem visiting_some {path nm : Str} (h : ed.visiting path = some nm) :
    ∃ k b, ed.buffers.lookup k = some b ∧ b.file = some path ∧ nm = b.name := by
  unfold visiting at h
  obtain ⟨e, he, hfind⟩ := List.exists_of_findSome?_eq_some h
  split_ifs at hfind with hf
  cases hfind
  exact ⟨e.1, e.2, AList.mem_lookup_iff.mpr he, hf, rfl⟩

theorem visiting_none {path : Str} (h : ed.visiting path = none) : Unvisited ed path := by
  intro k b hb hf
  unfold visiting at h
  rw [List.findSome?_eq_none_iff] at h
  have := h ⟨k, b⟩ (AList.mem_lookup_iff.mp hb)
  rw [if_pos hf] at this
  cases this

theorem named_findFileNoselect {env : Env} {path : Str} (h : findFileNoselect env ed path = .ok ed')
    (hk : Keyed ed) : Named ed' := by
  unfold findFileNoselect at h
  cases hv : ed.visiting path with
  | some nm =>
      rw [hv] at h
      cases h
      obtain ⟨k, b, hb, -, rfl⟩ := visiting_some hv
      rw [hk.name k b hb]
      exact hk.go (AList.lookup_isSome.mp (by rw [hb]; rfl))
  | none =>
      rw [hv] at h
      obtain ⟨ed₁, h₁, h⟩ := bind_eq_ok.mp h
      cases h
      have hn₁ : Named ed₁ := by
        refine named_addBuffer h₁ hk fun f hf => ?_
        obtain rfl : path = f := Option.some.inj hf
        exact visiting_none hv
      exact (kin_message _ _).named hn₁

/-! ### Saving -/

/-- No other buffer visits the file. -/
def Free (ed : Editor) (path : Str) : Prop :=
  ∀ k b, ed.buffers.lookup k = some b → b.file = some path → k = ed.current

theorem Kin.free (h : Kin ed ed') {path : Str} (hf : Free ed path) : Free ed' path := by
  intro k b' hb' hfile
  obtain ⟨b, hb, hs⟩ := h.back hb'
  rw [hs.file] at hfile
  rw [h.current]
  exact hf k b hb hfile

/-- The current buffer visits a file now. -/
theorem Keyed.setFile {b' : Buffer} {path : Str} (hk : Keyed ed)
    (hname : b'.name = ed.current) (hfile : b'.file = some path) (hfree : Free ed path) :
    Named (ed.setBuf b') := by
  refine ⟨⟨fun k c hc => ?_, fun k k' c c' f hc hc' hf hf' => ?_⟩, ?_⟩
  · rw [lookup_setBuf] at hc
    split_ifs at hc with hkc
    · cases hc
      rw [hname, hkc]
    · exact hk.name k c hc
  · rw [lookup_setBuf] at hc hc'
    split_ifs at hc hc' with h₁ h₂ h₂
    · rw [h₁, h₂]
    · cases hc
      obtain rfl : path = f := Option.some.inj (hfile.symm.trans hf)
      exact absurd (hfree k' c' hc' hf') h₂
    · cases hc'
      obtain rfl : path = f := Option.some.inj (hfile.symm.trans hf')
      exact absurd (hfree k c hc hf) h₁
    · exact hk.file k k' c c' f hc hc' hf hf'
  · show ed.current ∈ _
    rw [← AList.lookup_isSome, lookup_setBuf, if_pos rfl]
    rfl

theorem gives_catching {α : Type} {P : α → Prop} {x : M α} {handler : Error → M α} (h : Gives P x)
    (h' : ∀ e, Gives P (handler e)) : Gives P (catching x handler) := by
  refine h.tryCatch fun e => ?_
  cases e with
  | waiting => exact gives_throw _
  | thrown e =>
      cases e with
      | endless => exact gives_throw _
      | outOfRange => exact h' _
      | unreadable => exact h' _
      | native => exact h' _

/-- `write-to` a file that no other buffer visits, if it can be written. -/
theorem gives_named_writeTo {env : Env} {path : Str} (hn : Named ed)
    (hfree : ∀ b, ed.buf = some b → env.spit path b.text = none → Free ed path) :
    Gives Named (ed.writeTo env path) := by
  have hstay : ∀ m, Named (ed.message m) := fun m => (kin_message _ _).named hn
  refine gives_catching ?_ fun e => gives_pure (hstay _)
  refine Gives.bind (gives_lift fun x hx => buf!_ok.mp hx) fun x hx => ?_
  cases hs : env.spit path x.text with
  | some e => exact gives_pure (hstay _)
  | none =>
      refine Gives.bind (P := Named) (gives_lift fun ed₁ h₁ => ?_) fun ed₁ h₁ =>
        gives_pure ((kin_message _ _).named h₁)
      obtain ⟨b, b', hb, hb', rfl⟩ := updateBuf_ok.mp h₁
      cases hb'
      exact hn.toKeyed.setFile (hn.name _ b hb) rfl (hfree x hx hs)

/-! ### Help, and switching -/

theorem showHelp_ok {text : Str} (h : ed.showHelp text = .ok ed') :
    ∃ ed₁, addBuffer { ed with buffers := ed.buffers.erase (str "*Help*") }
      { newBuffer (str "*Help*") text none with helpMode := true } = .ok ed₁ ∧ Kin ed₁ ed' := by
  unfold showHelp at h
  obtain ⟨ed₁, h₁, h⟩ := bind_eq_ok.mp h
  refine ⟨ed₁, h₁, kin_updateBuf h fun b b' _ hb' => ?_⟩
  cases hb'
  exact ⟨rfl, rfl, fun hb => ⟨hb.clean, hb.point, hb.undo⟩⟩

theorem named_showHelp {text : Str} (hk : Keyed ed) (h : ed.showHelp text = .ok ed') : Named ed' := by
  obtain ⟨ed₁, h₁, hkin⟩ := showHelp_ok h
  exact hkin.named (named_addBuffer h₁ (hk.erase _) nofun)

theorem describeName_ok {env : Env} {nm : Str} (h : describeName env ed nm = .ok ed') :
    ∃ text, ed.showHelp text = .ok ed' := by
  unfold describeName at h
  cases hd : env.describe nm with
  | none => rw [hd] at h; cases h
  | some text => rw [hd] at h; exact ⟨_, h⟩

theorem mem_sortedKeys {k : Str} : k ∈ ed.sortedKeys ↔ k ∈ ed.buffers := by
  unfold sortedKeys
  rw [List.mem_mergeSort]
  exact AList.mem_keys.symm

/-- What the commands that open, close and show buffers give, whatever is true of the result of the
parts. -/
structure Kept (P : Editor → Prop) : Prop where
  still : ∀ ed ed', P ed → Still ed ed' → P ed'
  findFile : ∀ env ed ed' path, P ed → findFileNoselect env ed path = .ok ed' → P ed'
  showHelp : ∀ ed ed' text, P ed → ed.showHelp text = .ok ed' → P ed'
  kill : ∀ ed ed', P ed → ed.killBuffer = .ok ed' → P ed'

theorem gives_readMinibuffer_then {P : Editor → Prop} (hstill : ∀ ed ed', P ed → Still ed ed' → P ed') (hP : P ed)
    (prompt initial : Str) : Gives (fun r => P r.1) (ed.readMinibuffer prompt initial) :=
  fun s r s' hr => hstill ed r.1 hP (gives_readMinibuffer ed prompt initial s r s' hr)

/-- The commands without a condition. -/
theorem Kept.exec {P : Editor → Prop} (hP : Kept P) (env : Env) (h : P ed) (c : Command) (ht : c.onText ≠ true)
    (hc : c ≠ .saveBuffer ∧ c ≠ .writeFile ∧ c ≠ .switchToBuffer ∧ c ≠ .helpQuit) :
    Gives P (ed.exec env c) := by
  have describe (ed : Editor) (hed : P ed) (nm : Str) : Gives P (lift (describeName env ed nm)) := by
    refine gives_lift fun ed' h' => ?_
    obtain ⟨text, htext⟩ := describeName_ok h'
    exact hP.showHelp ed ed' text hed htext
  cases c with
  | findFile =>
      refine gives_bind fun dir => Gives.bind (gives_readMinibuffer_then hP.still h _ _) fun r hr => ?_
      obtain ⟨ed₁, path⟩ := r
      cases path with
      | none => exact gives_pure hr
      | some path =>
          exact Gives.ite (fun _ => gives_pure hr) fun _ => gives_lift fun ed' h' => hP.findFile env _ _ _ hr h'
  | killBuffer => exact gives_lift fun ed' h' => hP.kill ed ed' h h'
  | describeFunction =>
      refine gives_bind fun dflt => Gives.bind (gives_readMinibuffer_then hP.still h _ _) fun r hr => ?_
      obtain ⟨ed₁, nm⟩ := r
      cases nm with
      | none => exact gives_pure hr
      | some nm =>
          refine Gives.ite (fun _ => ?_) fun _ => describe _ hr _
          cases dflt with
          | none => exact gives_pure hr
          | some d => exact describe _ hr _
  | aproposCommand =>
      refine Gives.bind (gives_readMinibuffer_then hP.still h _ _) fun r hr => ?_
      obtain ⟨ed₁, pat⟩ := r
      cases pat with
      | none => exact gives_pure hr
      | some pat =>
          exact Gives.ite (fun _ => gives_pure hr) fun _ => gives_lift fun ed' h' => hP.showHelp _ _ _ hr h'
  | describeKey =>
      refine Gives.bind (gives_redisplay _) fun ed₁ h₁ => gives_bind fun kc => ?_
      have hed₁ : P ed₁ := hP.still _ _ h ((still_prompt ed _).trans h₁)
      have hed₂ : P { ed₁ with prompt := none } := hP.still _ _ hed₁ (still_prompt ed₁ _)
      obtain ⟨keys, cmd⟩ := kc
      cases cmd with
      | none => exact gives_pure (hP.still _ _ hed₂ (.of_eq rfl rfl rfl))
      | some c => exact describe _ hed₂ _
  | helpFollow =>
      refine gives_lift fun ed' h' => ?_
      obtain ⟨nm, -, h'⟩ := bind_eq_ok.mp h'
      cases nm with
      | none => cases h'; exact h
      | some nm =>
          obtain ⟨text, htext⟩ := describeName_ok h'
          exact hP.showHelp ed ed' text h htext
  | saveBuffer => exact absurd rfl hc.1
  | writeFile => exact absurd rfl hc.2.1
  | switchToBuffer => exact absurd rfl hc.2.2.1
  | helpQuit => exact absurd rfl hc.2.2.2
  | _ => exact absurd rfl ht

theorem killBuffer_ok (h : ed.killBuffer = .ok ed') :
    (addBuffer { ed with buffers := ed.buffers.erase ed.current } (newBuffer (str "*scratch*") [] none) =
      .ok ed') ∨
    ∃ k ∈ ed.buffers.erase ed.current,
      ed' = { ed with buffers := ed.buffers.erase ed.current, current := k } := by
  unfold killBuffer at h
  cases hks : sortedKeys { ed with buffers := ed.buffers.erase ed.current } with
  | nil =>
      simp only [hks] at h
      exact .inl h
  | cons k ks =>
      simp only [hks] at h
      cases h
      refine .inr ⟨k, ?_, rfl⟩
      have hmem : k ∈ sortedKeys { ed with buffers := ed.buffers.erase ed.current } := by
        rw [hks]
        exact List.mem_cons_self
      exact mem_sortedKeys.mp hmem

theorem kept_named : Kept Named where
  still _ _ h hstill := hstill.kin.named h
  findFile _ _ _ _ h h' := named_findFileNoselect h' h.toKeyed
  showHelp _ _ _ h h' := named_showHelp h.toKeyed h'
  kill ed ed' h h' := by
    rcases killBuffer_ok h' with h' | ⟨k, hk, rfl⟩
    · exact named_addBuffer h' (h.toKeyed.erase _) nofun
    · exact (h.toKeyed.erase _).go hk

/-- A buffer to go to when there is no other one is asked for. -/
def HasOther (ed : Editor) : Prop := ∃ k ∈ ed.buffers, k ≠ ed.current ∨ k = str "*scratch*"

theorem otherBuffer_mem (h : HasOther ed) : ed.otherBuffer ∈ ed.buffers := by
  unfold otherBuffer
  cases hfind : ed.sortedKeys.find? fun n => n ≠ ed.current with
  | some k => exact mem_sortedKeys.mp (List.mem_of_find?_eq_some hfind)
  | none =>
      obtain ⟨k, hk, hor⟩ := h
      rw [List.find?_eq_none] at hfind
      have heq : k = ed.current := by
        by_contra hne
        exact hfind k (mem_sortedKeys.mpr hk) (decide_eq_true hne)
      rcases hor with hne | rfl
      · exact absurd heq hne
      · exact hk

/-! ### What holds of each buffer -/

/-- True of a new buffer, and about its text, point, mark and history only. -/
structure Lasting (Q : Buffer → Prop) : Prop where
  fresh : ∀ nm text file, Q (newBuffer nm text file)
  alike : ∀ {b b' : Buffer}, Q b → b'.lines = b.lines → b'.point = b.point → b'.mark = b.mark →
    b'.undo = b.undo → Q b'

theorem lasting_ok : Lasting Buffer.Ok where
  fresh := ok_newBuffer
  alike hb hl hp _ hu := by
    refine ⟨?_, ?_, ?_⟩
    · rw [hl]
      exact hb.clean
    · rw [hl, hp]
      exact hb.point
    · rw [hu]
      exact hb.undo

section Lasting

variable {Q : Buffer → Prop}

theorem Lasting.scrolled (hQ : Lasting Q) {b b' : Buffer} (h : b.Scrolled b') (hb : Q b) : Q b' := by
  rw [h]
  exact hQ.alike hb rfl rfl rfl rfl

theorem Still.back (h : Still ed ed') {k : Str} {b' : Buffer} (hb' : ed'.buffers.lookup k = some b') :
    ∃ b, ed.buffers.lookup k = some b ∧ b.Scrolled b' := by
  have hk := h.same k
  rw [hb'] at hk
  exact rel_some hk

theorem Still.all (hQ : Lasting Q) (h : Still ed ed') (hall : All Q ed) : All Q ed' := by
  intro k b' hb'
  obtain ⟨b, hb, hs⟩ := h.back hb'
  exact hQ.scrolled hs (hall k b hb)

theorem all_setBuf {b : Buffer} (hall : All Q ed) (hb : Q b) : All Q (ed.setBuf b) := by
  intro k c hc
  rw [lookup_setBuf] at hc
  split_ifs at hc
  · cases hc
    exact hb
  · exact hall k c hc

theorem all_updateBuf {f : Buffer → Except Error Buffer} (hall : All Q ed) (h : ed.updateBuf f = .ok ed')
    (hf : ∀ b b', ed.buf = some b → Q b → f b = .ok b' → Q b') : All Q ed' := by
  obtain ⟨b, b', hb, hfb, rfl⟩ := updateBuf_ok.mp h
  exact all_setBuf hall (hf b b' hb (hall _ _ hb) hfb)

theorem Lasting.addBuffer (hQ : Lasting Q) {bf : Buffer} (h : ed.addBuffer bf = .ok ed') (hall : All Q ed)
    (hbf : Q bf) : All Q ed' :=
  all_addBuffer h hall fun _ => hQ.alike hbf rfl rfl rfl rfl

theorem Lasting.findFile (hQ : Lasting Q) {env : Env} {path : Str} (h : findFileNoselect env ed path = .ok ed')
    (hall : All Q ed) : All Q ed' := by
  unfold findFileNoselect at h
  cases hv : ed.visiting path with
  | some nm =>
      rw [hv] at h
      cases h
      exact hall
  | none =>
      rw [hv] at h
      obtain ⟨ed₁, h₁, h⟩ := bind_eq_ok.mp h
      cases h
      have hall₁ : All Q ed₁ := hQ.addBuffer h₁ hall (hQ.fresh _ _ _)
      exact hall₁

theorem Lasting.writeTo (hQ : Lasting Q) {env : Env} {path : Str} (hall : All Q ed) :
    Gives (All Q) (ed.writeTo env path) := by
  refine gives_catching (gives_bind fun x => ?_) fun e => gives_pure hall
  cases env.spit path x.text with
  | some e => exact gives_pure hall
  | none =>
      refine Gives.bind (P := All Q) (gives_lift fun ed₁ h₁ => ?_) fun ed₁ h₁ => gives_pure h₁
      refine all_updateBuf hall h₁ fun b b' _ hb hb' => ?_
      cases hb'
      exact hQ.alike hb rfl rfl rfl rfl

theorem Lasting.showHelp (hQ : Lasting Q) {text : Str} (hall : All Q ed) (h : ed.showHelp text = .ok ed') :
    All Q ed' := by
  unfold Editor.showHelp at h
  obtain ⟨ed₁, h₁, h⟩ := bind_eq_ok.mp h
  have hnew : Q { newBuffer (str "*Help*") text none with helpMode := true } :=
    hQ.alike (hQ.fresh (str "*Help*") text none) rfl rfl rfl rfl
  have hall₁ := hQ.addBuffer h₁ (hall.erase _) hnew
  refine all_updateBuf hall₁ h fun b b' _ hb hb' => ?_
  cases hb'
  exact hQ.alike hb rfl rfl rfl rfl

theorem Lasting.kept (hQ : Lasting Q) : Kept (All Q) where
  still _ _ h hstill := hstill.all hQ h
  findFile _ _ _ _ h h' := hQ.findFile h' h
  showHelp _ _ _ h h' := hQ.showHelp h h'
  kill ed ed' h h' := by
    rcases killBuffer_ok h' with h' | ⟨k, -, rfl⟩
    · exact hQ.addBuffer h' (h.erase _) (hQ.fresh _ _ _)
    · exact h.erase _

/-- The commands that are not about the text. -/
theorem Lasting.exec (hQ : Lasting Q) (env : Env) (hall : All Q ed) (c : Command) (ht : c.onText ≠ true) :
    Gives (All Q) (ed.exec env c) := by
  have read := gives_readMinibuffer_then hQ.kept.still hall
  by_cases hc : c ≠ .saveBuffer ∧ c ≠ .writeFile ∧ c ≠ .switchToBuffer ∧ c ≠ .helpQuit
  · exact hQ.kept.exec env hall c ht hc
  cases c with
  | saveBuffer =>
      refine gives_bind fun x => ?_
      cases x.file with
      | some f => exact Gives.ite (fun _ => hQ.writeTo hall) fun _ => gives_pure hall
      | none =>
          refine gives_bind fun dir => Gives.bind (read _ _) fun r hr => ?_
          obtain ⟨ed₁, path⟩ := r
          cases path with
          | none => exact gives_pure hr
          | some path => exact Gives.ite (fun _ => gives_pure hr) fun _ => hQ.writeTo hr
  | writeFile =>
      refine gives_bind fun dir => Gives.bind (read _ _) fun r hr => ?_
      obtain ⟨ed₁, path⟩ := r
      cases path with
      | none => exact gives_pure hr
      | some path =>
          refine Gives.ite (fun _ => gives_pure hr) fun _ => ?_
          refine Gives.bind (P := All Q) (gives_lift fun ed₂ h₂ => ?_) fun ed₂ h₂ => hQ.writeTo h₂
          refine all_updateBuf hr h₂ fun b b' _ hb hb' => ?_
          cases hb'
          exact hQ.alike hb rfl rfl rfl rfl
  | switchToBuffer =>
      refine Gives.bind (read _ _) fun r hr => ?_
      obtain ⟨ed₁, nm⟩ := r
      cases nm with
      | none => exact gives_pure hr
      | some nm =>
          refine Gives.ite (fun _ => gives_pure hr) fun _ => Gives.ite (fun _ => gives_pure hr) fun _ => ?_
          exact gives_lift fun _ h => hQ.addBuffer h hr (hQ.fresh _ _ _)
  | helpQuit => exact gives_pure hall
  | _ => exact absurd ⟨nofun, nofun, nofun, nofun⟩ hc

end Lasting

theorem gives_allOk_exec (env : Env) (hok : AllOk ed) (c : Command) : Gives AllOk (ed.exec env c) := by
  by_cases ht : c.onText = true
  · exact fun s ed' s' hed => (kin_exec env hok c ht s ed' s' hed).allOk hok
  · exact lasting_ok.exec env hok c ht

/-! ### The commands with a condition -/

/-- The path typed at a prompt of the current buffer's directory, and the state then. -/
def Answered (ed : Editor) (prompt : Str) (s : Tty) (ed' : Editor) (path : Str) : Prop :=
  ∃ dir s', ed.defaultDir = .ok dir ∧ ed.readMinibuffer prompt dir s = .ok (ed', some path) s'

/-- If the file can be written, no other buffer visits it. -/
def MayWrite (env : Env) (ed : Editor) (path : Str) : Prop :=
  ∀ b, ed.buf = some b → env.spit path b.text = none → Free ed path

/-- What a command is given does not break the names. -/
def Fits (env : Env) (ed : Editor) (s : Tty) : Command → Prop
  | .saveBuffer => ∀ b ed' path, ed.buf = some b → b.file = none →
      Answered ed (str "File to save in: ") s ed' path → MayWrite env ed' path
  | .writeFile => ∀ ed' path, Answered ed (str "Write file: ") s ed' path → path ≠ [] →
      basename path = ed.current ∧ MayWrite env ed' path
  | .switchToBuffer => ∀ ed' s', ed.readMinibuffer
      (str "Switch to buffer (default " ++ ed.otherBuffer ++ str "): ") [] s = .ok (ed', some []) s' → HasOther ed
  | .helpQuit => (∃ b p, ed.buf = some b ∧ b.prev = some p ∧ p ∈ ed.buffers) ∨ HasOther ed
  | _ => True

theorem lift_ok {α : Type} {x : Except Error α} {a : α} {s s' : Tty} (h : lift x s = .ok a s') :
    x = .ok a ∧ s' = s := by
  cases x with
  | ok b =>
      obtain ⟨rfl, rfl⟩ := pure_ok.mp h
      exact ⟨rfl, rfl⟩
  | error e => exact absurd h throw_ok

theorem named_exec {env : Env} {s s' : Tty} {c : Command} (hn : Named ed) (hok : AllOk ed)
    (hfits : Fits env ed s c) (h : ed.exec env c s = .ok ed' s') : Named ed' := by
  by_cases hc : c ≠ .saveBuffer ∧ c ≠ .writeFile ∧ c ≠ .switchToBuffer ∧ c ≠ .helpQuit
  · by_cases ht : c.onText = true
    · exact (kin_exec env hok c ht s ed' s' h).named hn
    · exact kept_named.exec env hn c ht hc s ed' s' h
  cases c with
  | saveBuffer =>
      obtain ⟨b, s₁, hbuf, h⟩ := bind_ok.mp h
      obtain ⟨hb, hs⟩ := lift_ok hbuf
      rw [hs] at h
      rw [buf!_ok] at hb
      cases hf : b.file with
      | some f =>
          rw [hf] at h
          change (if b.modified = true then (_ : M Editor) else _) _ = _ at h
          split_ifs at h
          · refine gives_named_writeTo hn (fun b' _ _ k c hc hcf => ?_) _ _ _ h
            exact hn.file k ed.current c b f hc hb hcf hf
          · rw [(pure_ok.mp h).1.symm]
            exact (kin_message _ _).named hn
      | none =>
          rw [hf] at h
          obtain ⟨dir, s₁, hask, h⟩ := bind_ok.mp h
          obtain ⟨hdir, hs⟩ := lift_ok hask
          rw [hs] at h
          obtain ⟨⟨ed₁, path⟩, s₂, hread, h⟩ := bind_ok.mp h
          have hn₁ : Named ed₁ := (gives_readMinibuffer ed _ _ _ _ _ hread).kin.named hn
          cases path with
          | none =>
              rw [(pure_ok.mp h).1.symm]
              exact hn₁
          | some path =>
              change (if path = [] then (_ : M Editor) else _) _ = _ at h
              split_ifs at h
              · rw [(pure_ok.mp h).1.symm]
                exact hn₁
              · exact gives_named_writeTo hn₁ (hfits b ed₁ path hb hf ⟨dir, _, hdir, hread⟩) _ _ _ h
  | writeFile =>
      obtain ⟨dir, s₁, hask, h⟩ := bind_ok.mp h
      obtain ⟨hdir, hs⟩ := lift_ok hask
      rw [hs] at h
      obtain ⟨⟨ed₁, path⟩, s₂, hread, h⟩ := bind_ok.mp h
      have hkin₁ : Kin ed ed₁ := (gives_readMinibuffer ed _ _ _ _ _ hread).kin
      have hn₁ : Named ed₁ := hkin₁.named hn
      cases path with
      | none =>
          rw [(pure_ok.mp h).1.symm]
          exact hn₁
      | some path =>
          change (if path = [] then (_ : M Editor) else _) _ = _ at h
          split_ifs at h with hne
          · rw [(pure_ok.mp h).1.symm]
            exact hn₁
          · obtain ⟨hbase, hmay⟩ := hfits ed₁ path ⟨dir, _, hdir, hread⟩ hne
            obtain ⟨ed₂, s₃, hup, h⟩ := bind_ok.mp h
            obtain ⟨h₂, hs⟩ := lift_ok hup
            rw [hs] at h
            obtain ⟨b, b', hb, hb', rfl⟩ := updateBuf_ok.mp h₂
            cases hb'
            have hsib : Buffer.Sib b { b with name := basename path } := by
              refine ⟨?_, rfl, fun hok => ⟨hok.clean, hok.point, hok.undo⟩⟩
              rw [hn₁.name _ b hb, hkin₁.current]
              exact hbase
            have hkin₂ := kin_setBuf hb hsib
            refine gives_named_writeTo (hkin₂.named hn₁) (fun b₂ hb₂ hspit => hkin₂.free ?_) _ _ _ h
            refine hmay b hb ?_
            have hlook : (ed₁.setBuf { b with name := basename path }).buf =
                some { b with name := basename path } := by
              show AList.lookup ed₁.current _ = _
              rw [lookup_setBuf, if_pos rfl]
            rw [hlook] at hb₂
            cases hb₂
            exact hspit
  | switchToBuffer =>
      obtain ⟨⟨ed₁, nm⟩, s₁, hread, h⟩ := bind_ok.mp h
      have hkin₁ : Kin ed ed₁ := (gives_readMinibuffer ed _ _ _ _ _ hread).kin
      have hn₁ : Named ed₁ := hkin₁.named hn
      cases nm with
      | none =>
          rw [(pure_ok.mp h).1.symm]
          exact hn₁
      | some nm =>
          change (if nm = [] then (_ : M Editor) else if _ then _ else _) _ = _ at h
          split_ifs at h with hnil hlook
          · rw [(pure_ok.mp h).1.symm]
            rw [hnil] at hread
            exact hn₁.toKeyed.go ((hkin₁.mem _).mpr (otherBuffer_mem (hfits ed₁ s₁ hread)))
          · rw [(pure_ok.mp h).1.symm]
            exact hn₁.toKeyed.go (AList.lookup_isSome.mp hlook)
          · exact named_addBuffer (lift_ok h).1 hn₁.toKeyed nofun
  | helpQuit =>
      rw [(pure_ok.mp h).1.symm]
      unfold helpQuit
      refine hn.toKeyed.go ?_
      rcases hfits with ⟨b, p, hb, hp, hmem⟩ | hother
      · rw [hb]
        simp only [Option.bind_some, hp]
        rw [if_pos (AList.lookup_isSome.mpr hmem)]
        exact hmem
      · cases hp : ed.buf.bind Buffer.prev with
        | none => exact otherBuffer_mem hother
        | some p =>
            simp only
            split_ifs with hmem
            · exact AList.lookup_isSome.mp hmem
            · exact otherBuffer_mem hother
  | _ => exact absurd ⟨nofun, nofun, nofun, nofun⟩ hc

/-! ### Rounds of the command loop -/

theorem gives_nextCommand (env : Env) (ed : Editor) : Gives (fun r => Still ed r.1) (ed.nextCommand env) := by
  refine Gives.bind (gives_redisplay _) fun ed₁ h₁ => gives_bind fun k => gives_bind fun a => gives_pure ?_
  exact (Still.of_eq rfl rfl rfl : Still ed { ed with size := env.size }).trans h₁

theorem catching_ok {α : Type} {x : M α} {handler : Error → M α} {a : α} {s s' : Tty}
    (h : catching x handler s = .ok a s') :
    x s = .ok a s' ∨ ∃ e s₁, x s = .error (.thrown e) s₁ ∧ handler e s₁ = .ok a s' := by
  change EStateM.tryCatch x _ s = .ok a s' at h
  unfold EStateM.tryCatch at h
  cases hx : x s with
  | ok b t =>
      rw [hx] at h
      exact .inl h
  | error e t =>
      rw [hx] at h
      cases e with
      | waiting => exact absurd h throw_ok
      | thrown e =>
          cases e with
          | endless => exact absurd h throw_ok
          | outOfRange => exact .inr ⟨_, t, rfl, h⟩
          | unreadable => exact .inr ⟨_, t, rfl, h⟩
          | native => exact .inr ⟨_, t, rfl, h⟩

/-- The command came to its end, or what it did is forgotten. -/
theorem perform_ok {env : Env} {k : Str} {cmd : Option Action} {s s' : Tty}
    (h : ed.perform env k cmd s = .ok ed' s') :
    (∃ ed₁, ed.cleared.act env k cmd s = .ok ed₁ s' ∧ ed' = ed₁.settle) ∨
    ∃ e s₁, ed.cleared.act env k cmd s = .error (.thrown e) s₁ ∧
      ed' = (ed.cleared.message (str "Error: " ++ env.errorText e)).settle := by
  obtain ⟨ed₁, s₁, hc, h⟩ := bind_ok.mp h
  obtain ⟨rfl, rfl⟩ := pure_ok.mp h
  rcases catching_ok hc with hact | ⟨e, s₂, hact, hh⟩
  · exact .inl ⟨ed₁, hact, rfl⟩
  · obtain ⟨rfl, -⟩ := pure_ok.mp hh
    exact .inr ⟨e, s₂, hact, rfl⟩

theorem kin_settle (ed : Editor) : Kin ed ed.settle := by
  unfold settle
  simp only
  split_ifs <;> exact .of_eq rfl rfl

theorem kin_cleared (ed : Editor) : Kin ed ed.cleared := .of_eq rfl rfl

theorem all_settle {Q : Buffer → Prop} (h : All Q ed) : All Q ed.settle := by
  unfold settle
  simp only
  split_ifs <;> exact h

theorem all_perform {Q : Buffer → Prop} {env : Env} {k : Str} {cmd : Option Action} {s s' : Tty} (hall : All Q ed)
    (hact : ∀ a ed₁ s', cmd = some a → ed.cleared.act env k (some a) s = .ok ed₁ s' → All Q ed₁)
    (h : ed.perform env k cmd s = .ok ed' s') : All Q ed' := by
  rcases perform_ok h with ⟨ed₁, h₁, rfl⟩ | ⟨e, s₁, -, rfl⟩
  · refine all_settle ?_
    cases cmd with
    | none =>
        rw [← (pure_ok.mp h₁).1]
        exact hall
    | some a => exact hact a ed₁ s' rfl h₁
  · exact all_settle hall

theorem allOk_perform {env : Env} {k : Str} {cmd : Option Action} {s s' : Tty} (hok : AllOk ed)
    (h : ed.perform env k cmd s = .ok ed' s') : AllOk ed' := by
  refine all_perform hok (fun a ed₁ s₁ _ h₁ => ?_) h
  have hok₀ : AllOk ed.cleared := hok
  cases a with
  | selfInsert t => exact (kin_selfInsert hok₀ (lift_ok h₁).1).allOk hok₀
  | command c => exact gives_allOk_exec env hok₀ c _ _ _ h₁

theorem named_perform {env : Env} {k : Str} {cmd : Option Action} {s s' : Tty} (hn : Named ed) (hok : AllOk ed)
    (hfits : ∀ c, cmd = some (.command c) → Fits env ed.cleared s c)
    (h : ed.perform env k cmd s = .ok ed' s') : Named ed' := by
  have hok₀ := (kin_cleared ed).allOk hok
  have hn₀ := (kin_cleared ed).named hn
  rcases perform_ok h with ⟨ed₁, hact, rfl⟩ | ⟨e, s₁, -, rfl⟩
  · refine (kin_settle ed₁).named ?_
    match cmd with
    | none =>
        rw [← (pure_ok.mp hact).1]
        exact (kin_message _ _).named hn₀
    | some (.selfInsert t) => exact (kin_selfInsert hok₀ (lift_ok hact).1).named hn₀
    | some (.command c) => exact named_exec hn₀ hok₀ (hfits c rfl) hact
  · exact ((kin_message _ _).trans (kin_settle _)).named hn₀

end Editor

/-- The states that `-main` and the rounds of the command loop reach, each round with keys and answers
from outside that `P` allows. -/
inductive Reached (P : Env → Editor → Tty → Prop) : Editor → Prop
  | start {env : Env} {files : List Str} {ed : Editor} (h : start env files = .ok ed) : Reached P ed
  | round {env : Env} {ed ed' : Editor} {s s' : Tty} (h : Reached P ed) (hq : ed.quit = false) (hP : P env ed s)
      (hr : ed.commandRound env s = .ok ed' s') : Reached P ed'

theorem Editor.Lasting.findFiles {Q : Buffer → Prop} (hQ : Editor.Lasting Q) {env : Env} {files : List Str}
    {ed ed' : Editor} (hall : ed.All Q) (h : files.foldlM (fun ed f => ed.findFileNoselect env f) ed = .ok ed') :
    ed'.All Q := by
  induction files generalizing ed with
  | nil =>
      cases h
      exact hall
  | cons f files ih =>
      rw [List.foldlM_cons] at h
      obtain ⟨ed₂, h₂, h⟩ := bind_eq_ok.mp h
      exact ih (hQ.findFile h₂ hall) h

theorem named_findFiles {env : Env} {files : List Str} {ed ed' : Editor} (hn : ed.Named)
    (h : files.foldlM (fun ed f => ed.findFileNoselect env f) ed = .ok ed') : ed'.Named := by
  induction files generalizing ed with
  | nil =>
      cases h
      exact hn
  | cons f files ih =>
      rw [List.foldlM_cons] at h
      obtain ⟨ed₂, h₂, h⟩ := bind_eq_ok.mp h
      exact ih (Editor.named_findFileNoselect h₂ hn.toKeyed) h

theorem start_ok {env : Env} {files : List Str} {ed : Editor} (h : start env files = .ok ed) :
    ed.Named ∧ ed.AllOk := by
  unfold start at h
  obtain ⟨b, hb, h⟩ := bind_eq_ok.mp h
  obtain ⟨ed₁, h₁, h⟩ := bind_eq_ok.mp h
  have hnew := ok_newBuffer (str "*scratch*") scratchText none
  obtain ⟨b', hb', hm⟩ := Buffer.endOfBuffer_ok hnew.point
  rw [hb] at hb'
  cases hb'
  have hn : ed₁.Named := by
    refine Editor.named_addBuffer h₁ (.of_empty AList.lookup_empty) fun f hf => ?_
    rw [hm.frame] at hf
    cases hf
  have hok : ed₁.AllOk := Editor.lasting_ok.addBuffer h₁ nofun ((hm.edited hnew).ok hnew)
  exact ⟨named_findFiles hn h, Editor.lasting_ok.findFiles hok h⟩

theorem Reached.allOk {P : Env → Editor → Tty → Prop} {ed : Editor} (h : Reached P ed) : ed.AllOk := by
  induction h with
  | start h => exact (start_ok h).2
  | round h hq hP hr ih =>
      obtain ⟨⟨ed₁, k, cmd⟩, s₁, hnext, hr⟩ := bind_ok.mp hr
      exact Editor.allOk_perform ((Editor.gives_nextCommand _ _ _ _ _ hnext).kin.allOk ih) hr

/-- What the command of a round is given does not break the names. -/
def Fitting (env : Env) (ed : Editor) (s : Tty) : Prop :=
  ∀ ed₁ k c s₁, ed.nextCommand env s = .ok (ed₁, k, some (.command c)) s₁ → Editor.Fits env ed₁.cleared s₁ c

/-- The state after a round, when the loop takes it. -/
def Editor.round (env : Env) (ed : Editor) (s : Tty) : Option Editor :=
  match ed.quit, ed.commandRound env s with
  | false, .ok ed' _ => some ed'
  | _, _ => none

/-- The state after rounds from the start. -/
def afterRounds (env : Env) (files : List Str) (ss : List Tty) : Option Editor :=
  match start env files with
  | .ok ed => ss.foldlM (fun ed s => ed.round env s) ed
  | .error _ => none

theorem Reached.of_round {P : Env → Editor → Tty → Prop} {env : Env} {s : Tty} {ed ed' : Editor} (h : Reached P ed)
    (hP : P env ed s) (hr : ed.round env s = some ed') : Reached P ed' := by
  unfold Editor.round at hr
  split at hr
  next hq hr' =>
    cases hr
    exact .round h hq hP hr'
  next => cases hr

theorem Reached.of_rounds {env : Env} {ss : List Tty} {ed ed' : Editor} (h : Reached (fun _ _ _ => True) ed)
    (hr : ss.foldlM (fun ed s => ed.round env s) ed = some ed') : Reached (fun _ _ _ => True) ed' := by
  induction ss generalizing ed with
  | nil =>
      cases hr
      exact h
  | cons s ss ih =>
      rw [List.foldlM_cons] at hr
      obtain ⟨ed₁, h₁, hr⟩ := Option.bind_eq_some_iff.mp hr
      exact ih (h.of_round trivial h₁) hr

theorem reached_afterRounds {env : Env} {files : List Str} {ss : List Tty} {ed : Editor}
    (h : afterRounds env files ss = some ed) : Reached (fun _ _ _ => True) ed := by
  unfold afterRounds at h
  cases hs : start env files with
  | error e =>
      rw [hs] at h
      cases h
  | ok ed₀ =>
      rw [hs] at h
      exact (Reached.start hs).of_rounds h

/-- One round that `P` allows. -/
theorem reached_afterRound {P : Env → Editor → Tty → Prop} {env : Env} {files : List Str} {s : Tty} {ed : Editor}
    (h : afterRounds env files [s] = some ed) (hP : ∀ ed₀, start env files = .ok ed₀ → P env ed₀ s) :
    Reached P ed := by
  unfold afterRounds at h
  cases hs : start env files with
  | error e =>
      rw [hs] at h
      cases h
  | ok ed₀ =>
      rw [hs] at h
      obtain ⟨ed₁, h₁, h⟩ := Option.bind_eq_some_iff.mp h
      cases h
      exact (Reached.start hs).of_round (hP ed₀ hs) h₁

/-- No file is there to read, and every file is written. -/
def bareEnv : Env where
  size := (20, 4)
  slurp _ := none
  spit _ _ := none
  evalString _ := ([], [])
  describe _ := none
  apropos _ := []
  lowerCase := id
  trim := id
  errorText _ := []

/-- The first key of `tty` runs no command. -/
def runsNoCommand (tty : Tty) : Bool :=
  match start bareEnv [] with
  | .ok ed =>
      match ed.nextCommand bareEnv tty with
      | .ok (_, _, some (.command _)) _ => false
      | _ => true
  | .error _ => true

end Beeros.Beermacs
