import Beeros.Ext2ReadBack

/-! `beer.fs/spit!` on an ext2 file system: `ext2-write!` of `lib/fs.beer` reads the old text, swallows
whatever the read throws, and has `write-file!` replace the file. Only `write-file!` holds the lock. -/

namespace Beeros.Ext2

open Memory Exec Utf8

variable {v : Volume} {x x' : Vol} {d : Bytes} {w w' : World} {path s : Str}

/-! ### The code -/

/-- `write-file!` with a string. A ByteBuffer has no more than `2 ^ 32 - 1` bytes. -/
def writeString (fs : Fs) (path text : Str) : Io Unit :=
  if h : (encode text).length < 2 ^ 32 then writeFile fs path ⟨Buf.fromString text, h⟩ else throw .bounds

/-- The text of an append: `(str (try (slurp fs path) (catch e "")) s)`. -/
def appended (fs : Fs) (path s : Str) : Io Str := do
  let old ← tryCatch (slurp fs path) fun _ => pure []
  pure (old ++ s)

def ext2Write (fs : Fs) (path s : Str) (append : Bool) : Io Unit := do
  let text ← (if append then appended fs path s else pure s)
  writeString fs path text

/-! ### What a file holds -/

/-- The bytes of the regular file that a path leads to. -/
def Vol.held (v : Volume) (x : Vol) (path : Str) : Option (List UInt8) :=
  match x.resolve v path true with
  | .error _ => none
  | .ok i =>
      if (x.node v.toFs i).type = .file then
        some ((x.node v.toFs i).contents v.toFs x.block).toList
      else none

theorem gives_readBytes {bs : List UInt8} (hx : Accounted v (v.view d) 0)
    (h : (v.view d).held v path = some bs) :
    ∃ b, Gives (readBytes v.toFs path) d (.ok b) ∧ b.toList = bs := by
  have hres := @gives_resolve v d 0 path true hx
  unfold Vol.held at h
  cases hr : (v.view d).resolve v path true with
  | error e =>
      rw [hr] at h
      cases h
  | ok i =>
      rw [hr] at h hres
      simp only at h
      split_ifs at h with ht
      have hi := hx.walkHops_inUse hx.inUse_root hx.inUse_root hr
      refine ⟨_, hres.bind ((gives_failWhen (not_ne_iff.mpr ht)).bind
        (gives_contents hx hi (not_fastSymlink_of_file ht))), Option.some.inj h⟩

theorem gives_readBytes_error (hx : Accounted v (v.view d) 0) (h : (v.view d).held v path = none) :
    ∃ e, Gives (readBytes v.toFs path) d (.error e) := by
  have hres := @gives_resolve v d 0 path true hx
  unfold Vol.held at h
  cases hr : (v.view d).resolve v path true with
  | error e =>
      rw [hr] at hres
      exact ⟨e, hres.bind_error⟩
  | ok i =>
      rw [hr] at h hres
      simp only at h
      split_ifs at h with ht
      exact ⟨_, hres.bind (gives_failWhen_error ht).bind_error⟩

/-- What `slurp` returns: the text, if the path leads to a file with valid UTF-8 in it. -/
def Vol.text (v : Volume) (x : Vol) (path : Str) : Option Str := (x.held v path).bind decode

theorem gives_slurp {t : Str} (hx : Accounted v (v.view d) 0) (h : (v.view d).text v path = some t) :
    Gives (slurp v.toFs path) d (.ok t) := by
  obtain ⟨bs, hheld, hdecode⟩ := Option.bind_eq_some_iff.mp h
  obtain ⟨b, hread, rfl⟩ := gives_readBytes hx hheld
  refine hread.bind ?_
  unfold Buf.toString
  rw [hdecode]
  exact gives_pure t

theorem gives_slurp_error (hx : Accounted v (v.view d) 0) (h : (v.view d).text v path = none) :
    ∃ e, Gives (slurp v.toFs path) d (.error e) := by
  cases hheld : (v.view d).held v path with
  | none =>
      obtain ⟨e, hread⟩ := gives_readBytes_error hx hheld
      exact ⟨e, hread.bind_error⟩
  | some bs =>
      obtain ⟨b, hread, rfl⟩ := gives_readBytes hx hheld
      unfold Vol.text at h
      rw [hheld, Option.bind_some] at h
      refine ⟨.fail .slurp (.path path) .notUtf8, hread.bind ?_⟩
      unfold Buf.toString
      rw [h]
      exact gives_throw _

theorem tryCatch_apply {α : Type} (m : Io α) (f : Error → Io α) (w : World) :
    (tryCatch m f : Io α) w = match m w with
      | .ok a w' => .ok a w'
      | .error e w' => f e w' := by
  show EStateM.tryCatch m f w = _
  unfold EStateM.tryCatch
  cases m w <;> rfl

/-- The read of an append, when no transfer of it fails. -/
theorem appended_ok {t : Str} (h : appended v.toFs path s w = .ok t w')
    (hx : Accounted v (v.view w.disk) 0) (hf : thrown (slurp v.toFs path w) ≠ some .device) :
    t = ((v.view w.disk).text v path).getD [] ++ s ∧ w'.disk = w.disk := by
  unfold appended at h
  obtain ⟨old, w₁, hold, h⟩ := bind_ok.mp h
  obtain ⟨rfl, rfl⟩ := pure_ok.mp h
  rw [tryCatch_apply] at hold
  cases htext : (v.view w.disk).text v path with
  | some t =>
      obtain ⟨w₂, hrun, hdisk⟩ := (gives_slurp hx htext).run_of_thrown rfl hf
      rw [hrun] at hold
      cases hold
      exact ⟨rfl, hdisk⟩
  | none =>
      obtain ⟨e, hslurp⟩ := gives_slurp_error hx htext
      obtain ⟨w₂, hrun, hdisk⟩ := hslurp.run_of_thrown rfl hf
      rw [hrun] at hold
      cases hold
      exact ⟨rfl, hdisk⟩

theorem toList_fromString (t : Str) : (Buf.fromString t).toList = encode t := by
  unfold Buf.toList Buf.fromString
  exact List.ext_getElem (by simp) fun i h₁ h₂ => by simp [List.getElem?_eq_getElem h₂]

/-- A write that returns: the file holds the text, and the path led to a file before or to nothing. -/
theorem writeString_ok {u : Unit} {text : Str} (h : writeString v.toFs path text w = .ok u w')
    (hx : Accounted v (v.view w.disk) 0) :
    Accounted v (v.view w'.disk) 0 ∧ (v.view w'.disk).held v path = some (encode text) ∧
      ((∃ bs, (v.view w.disk).held v path = some bs) ∨
        (v.view w.disk).resolve v path true = .error (.fail .lookup (.path path) .notFound)) := by
  unfold writeString at h
  split_ifs at h with hlen
  swap
  · exact absurd h throw_ok
  obtain ⟨p, nm, ino, hparent, hwritten⟩ := writeFile_ok h hx
  obtain ⟨hp, hd, -⟩ := hx.parentOf_ok hparent
  refine ⟨hwritten.accounted, ?_, ?_⟩
  · unfold Vol.held
    rw [hwritten.resolve hx hparent]
    simp only [hwritten.type, if_true]
    rw [toList_congr hwritten.size hwritten.contents, toList_fromString]
  · rcases hwritten.entries with ⟨hfind, hfile, -⟩ | ⟨hnone, -⟩
    · have hres := (follows_refl v (v.view w.disk)).resolve_last hx hparent fun _ =>
        walkPath_file hd hfind hfile
      have hheld : (v.view w.disk).held v path = some (((v.view w.disk).node v.toFs ino).contents
          v.toFs (v.view w.disk).block).toList := by
        unfold Vol.held
        rw [hres]
        exact if_pos hfile
      exact .inl ⟨_, hheld⟩
    · exact .inr ((follows_refl v (v.view w.disk)).resolve_last hx hparent fun _ => walkPath_none hd hnone)

/-! ### Tasks that append to one file -/

/-- A task's call of `spit!`: not begun, with its text read, returned. -/
inductive Phase
  | idle
  | ready (text : Str)
  | done

structure Tasks where
  world : World
  phase : Nat → Phase

inductive Event
  | read (i : Nat)
  | write (i : Nat)

/-- Of `n` tasks, task `i` appends `s i`. The scheduler may switch between the read and the locked
write. -/
inductive Step (fs : Fs) (path : Str) (s : Nat → Str) (n : Nat) : Tasks → Event → Tasks → Prop
  | read {σ : Tasks} {i : Nat} {t : Str} {w' : World} (hi : i < n) (hidle : σ.phase i = .idle)
      (hread : appended fs path (s i) σ.world = .ok t w') :
      Step fs path s n σ (.read i) ⟨w', Function.update σ.phase i (.ready t)⟩
  | write {σ : Tasks} {i : Nat} {t : Str} {u : Unit} {w' : World} (hi : i < n)
      (hready : σ.phase i = .ready t) (hwrite : writeString fs path t σ.world = .ok u w') :
      Step fs path s n σ (.write i) ⟨w', Function.update σ.phase i .done⟩

/-- A run with its events; `P` holds at each step, of the events before it and the state. -/
inductive Runs (fs : Fs) (path : Str) (s : Nat → Str) (n : Nat)
    (P : List Event → Tasks → Event → Prop) (σ : Tasks) : List Event → Tasks → Prop
  | start : Runs fs path s n P σ [] σ
  | snoc {es : List Event} {σ₁ σ₂ : Tasks} {e : Event} (h : Runs fs path s n P σ es σ₁)
      (hP : P es σ₁ e) (hstep : Step fs path s n σ₁ e σ₂) : Runs fs path s n P σ (es ++ [e]) σ₂

/-- The tasks that have written, in order. -/
def writers (es : List Event) : List Nat :=
  es.filterMap fun
    | .read _ => none
    | .write i => some i

/-- No transfer of a read fails, and no write lies between a task's read and its write. -/
def Undisturbed (fs : Fs) (path : Str) (es : List Event) (σ : Tasks) : Event → Prop
  | .read _ => thrown (slurp fs path σ.world) ≠ some .device
  | .write i => ∃ a b, es = a ++ .read i :: b ∧ writers b = []

/-- Once all `n` tasks have returned, the file holds what it held and every `s i` once, in some order. -/
def NoneLost (v : Volume) (path : Str) (s : Nat → Str) (n : Nat) (d : Bytes) (σ : Tasks) : Prop :=
  0 < n → (∀ i < n, σ.phase i = .done) → ∃ order : List Nat, order.Perm (List.range n) ∧
    (v.view σ.world.disk).held v path =
      some (((v.view d).held v path).getD [] ++ order.flatMap fun i => encode (s i))

theorem writers_append (a b : List Event) : writers (a ++ b) = writers a ++ writers b :=
  List.filterMap_append

/-- The text so far is `o` and what was written, and a read with no write after it has read it. -/
structure Serial (v : Volume) (path : Str) (s : Nat → Str) (n : Nat) (o : Str) (es : List Event)
    (σ : Tasks) : Prop where
  accounted : Accounted v (v.view σ.world.disk) 0
  held : ((v.view σ.world.disk).held v path).getD [] = encode (o ++ (writers es).flatMap s)
  ready : ∀ i t a b, σ.phase i = .ready t → es = a ++ .read i :: b → writers b = [] →
    t = o ++ (writers es).flatMap s ++ s i
  done : ∀ i, i ∈ writers es ↔ σ.phase i = .done
  nodup : (writers es).Nodup
  lt : ∀ i ∈ writers es, i < n
  written : writers es ≠ [] → ((v.view σ.world.disk).held v path).isSome

theorem text_of_held {z : Str} (h : (x.held v path).getD [] = encode z) :
    (x.text v path).getD [] = z := by
  unfold Vol.text
  cases hheld : x.held v path with
  | some bs =>
      rw [hheld] at h
      rw [Option.bind_some, show bs = encode z from h, decode_encode]
      rfl
  | none =>
      rw [hheld] at h
      have hz := length_le_length_encode z
      rw [← h] at hz
      exact (List.eq_nil_of_length_eq_zero (Nat.le_zero.mp hz)).symm

section Serial

variable {fs : Fs} {texts : Nat → Str} {n : Nat} {o : Str} {es : List Event} {σ σ' : Tasks} {i : Nat}

/-- A split of a run with one more event. -/
theorem split_snoc {e f : Event} {a b : List Event} (h : es ++ [e] = a ++ f :: b) :
    (b = [] ∧ e = f) ∨ ∃ b', b = b' ++ [e] ∧ es = a ++ f :: b' := by
  rcases List.eq_nil_or_concat b with rfl | ⟨b', g, rfl⟩
  · exact .inl ⟨rfl, by simpa using (List.append_inj' h rfl).2⟩
  · rw [List.concat_eq_append, ← List.cons_append, ← List.append_assoc] at h
    obtain ⟨h₁, h₂⟩ := List.append_inj' h rfl
    exact .inr ⟨b', by rw [List.concat_eq_append, ← h₂], h₁⟩

theorem Serial.read {t : Str} {w' : World} (h : Serial v path texts n o es σ)
    (hidle : σ.phase i = .idle) (hf : thrown (slurp v.toFs path σ.world) ≠ some .device)
    (hread : appended v.toFs path (texts i) σ.world = .ok t w') :
    Serial v path texts n o (es ++ [.read i]) ⟨w', Function.update σ.phase i (.ready t)⟩ := by
  obtain ⟨ht, hdisk⟩ := appended_ok hread h.accounted hf
  rw [text_of_held h.held] at ht
  have hw : writers (es ++ [.read i]) = writers es := by
    rw [writers_append]
    exact List.append_nil _
  refine ⟨by rw [hdisk]; exact h.accounted, by rw [hdisk, hw]; exact h.held, ?_, ?_,
    by rw [hw]; exact h.nodup, by rw [hw]; exact h.lt, by rw [hdisk, hw]; exact h.written⟩
  · intro j u a b hj hsplit hb
    replace hj : Function.update σ.phase i (.ready t) j = .ready u := hj
    rw [hw]
    by_cases hji : j = i
    · subst hji
      rw [Function.update_self] at hj
      cases hj
      exact ht
    · rw [Function.update_of_ne hji] at hj
      rcases split_snoc hsplit with ⟨-, he⟩ | ⟨b', rfl, hes⟩
      · cases he
        exact absurd rfl hji
      · rw [writers_append, List.append_eq_nil_iff] at hb
        exact h.ready j u a b' hj hes hb.1
  · intro j
    rw [hw, h.done]
    show σ.phase j = .done ↔ Function.update σ.phase i (.ready t) j = .done
    by_cases hji : j = i
    · rw [hji, Function.update_self, hidle]
      exact ⟨nofun, nofun⟩
    · rw [Function.update_of_ne hji]

theorem Serial.write {t : Str} {u : Unit} {w' : World} {a b : List Event}
    (h : Serial v path texts n o es σ) (hi : i < n) (hready : σ.phase i = .ready t)
    (hsplit : es = a ++ .read i :: b) (hb : writers b = [])
    (hwrite : writeString v.toFs path t σ.world = .ok u w') :
    Serial v path texts n o (es ++ [.write i]) ⟨w', Function.update σ.phase i .done⟩ := by
  obtain ⟨hacc, hheld, -⟩ := writeString_ok hwrite h.accounted
  have ht := h.ready i t a b hready hsplit hb
  have hw : writers (es ++ [.write i]) = writers es ++ [i] := writers_append _ _
  have hnew : i ∉ writers es := by
    rw [h.done, hready]
    nofun
  refine ⟨hacc, ?_, ?_, ?_, ?_, ?_, fun _ => by rw [hheld]; rfl⟩
  · rw [hheld, hw, List.flatMap_append, List.flatMap_singleton, ← List.append_assoc, ← ht]
    rfl
  · intro j u' a' b' hj hsplit' hb'
    rcases split_snoc hsplit' with ⟨-, he⟩ | ⟨b'', rfl, -⟩
    · cases he
    · rw [writers_append, List.append_eq_nil_iff] at hb'
      exact absurd hb'.2 (List.cons_ne_nil _ _)
  · intro j
    rw [hw, List.mem_append, List.mem_singleton, h.done]
    show _ ↔ Function.update σ.phase i .done j = .done
    by_cases hji : j = i
    · rw [hji, Function.update_self]
      exact ⟨fun _ => rfl, fun _ => .inr rfl⟩
    · rw [Function.update_of_ne hji]
      exact ⟨fun hj => hj.resolve_right hji, .inl⟩
  · rw [hw]
    exact List.nodup_append.mpr ⟨h.nodup, List.nodup_singleton i, fun a ha b hb hab =>
      hnew (by rw [← List.mem_singleton.mp hb, ← hab]; exact ha)⟩
  · intro j hj
    rw [hw, List.mem_append, List.mem_singleton] at hj
    rcases hj with hj | rfl
    · exact h.lt j hj
    · exact hi

end Serial

/-- In a run without disturbance no append is lost: in every state reached, if all have returned, the
file holds every text once. -/
theorem noneLost_of_undisturbed (v : Volume) (path : Str) (s : Nat → Str) (n : Nat) (σ σ' : Tasks)
    (es : List Event) (hx : WellAccounted v σ.world.disk) (hidle : ∀ i, σ.phase i = .idle)
    (hutf8 : Valid (((v.view σ.world.disk).held v path).getD []))
    (h : Runs v.toFs path s n (Undisturbed v.toFs path) σ es σ') : NoneLost v path s n σ.world.disk σ' := by
  obtain ⟨o, ho⟩ := hutf8
  have hserial : Serial v path s n o es σ' := by
    induction h with
    | start =>
        refine ⟨hx, by rw [← ho]; exact congrArg encode (List.append_nil o).symm, ?_, ?_,
          List.nodup_nil, nofun, fun hne => absurd rfl hne⟩
        · intro i t a b hi
          rw [hidle] at hi
          cases hi
        · intro i
          rw [hidle]
          exact ⟨nofun, nofun⟩
    | snoc h hP hstep ih =>
        cases hstep with
        | read hi hidle hread => exact ih.read hidle hP hread
        | write hi hready hwrite =>
            obtain ⟨a, b, hsplit, hb⟩ := hP
            exact ih.write hi hready hsplit hb hwrite
  intro hn hall
  have hmem : ∀ i, i ∈ writers es ↔ i < n :=
    fun i => ⟨hserial.lt i, fun hi => (hserial.done i).mpr (hall i hi)⟩
  refine ⟨writers es, ?_, ?_⟩
  · refine (List.perm_ext_iff_of_nodup hserial.nodup List.nodup_range).mpr fun i => ?_
    rw [hmem, List.mem_range]
  · obtain ⟨bs, hbs⟩ := Option.isSome_iff_exists.mp
      (hserial.written (List.ne_nil_of_mem ((hmem 0).mpr hn)))
    have hheld := hserial.held
    rw [hbs, Option.getD_some] at hheld
    rw [hbs, hheld, encode_append, ho]
    unfold encode
    rw [List.flatMap_assoc]

end Beeros.Ext2
