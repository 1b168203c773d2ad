import Mathlib.Data.List.Induction
import Mathlib.Data.List.TakeWhile
import Beeros.UstarArchive

/-! Pax headers with any records. `pax-records` goes by the lines of the text before its first zero byte
and not by the lengths of the records, so that the next entry gets the path and size of the last lines
that read so. -/

namespace Beeros.Ustar

/-- What `->string-lossy` does: text is itself, and a byte of ASCII stands for itself in any bytes. -/
structure Lossy (toStringLossy : List UInt8 → Str) : Prop where
  encode : ∀ s, toStringLossy (Utf8.encode s) = s
  append : ∀ (a b : List UInt8) (c : UInt8), c < 128 →
    toStringLossy (a ++ c :: b) = toStringLossy a ++ Char.ofNat c.toNat :: toStringLossy b
  mem : ∀ (c : Char) (bs : List UInt8), c.toNat < 128 → c ∈ toStringLossy bs → c.toUInt8 ∈ bs
  nil : ∀ bs, toStringLossy bs = [] → bs = []

theorem lossy_decodeLossy : Lossy Utf8.decodeLossy where
  encode := Utf8.decodeLossy_encode
  append a b _ hc := Utf8.decodeLossy_append a b hc
  mem _ _ hc h := Utf8.mem_of_mem_decodeLossy hc h
  nil _ h := Utf8.eq_nil_of_decodeLossy h

variable {readString : Str → Except Failure Form} {toStringLossy : List UInt8 → Str}

/-! ### Lines -/

/-- The lines of the text before its first zero byte. -/
def lines (text : List UInt8) : List (List UInt8) := (text.takeWhile (· ≠ 0)).splitOn 10

/-- The lines as text are the lines of the text. -/
theorem Lossy.splitOn (h : Lossy toStringLossy) (bs : List UInt8) :
    (toStringLossy bs).splitOn '\n' = (bs.splitOn 10).map toStringLossy := by
  induction hn : bs.length using Nat.strong_induction_on generalizing bs with
  | _ n ih =>
      by_cases hmem : (10 : UInt8) ∈ bs
      · obtain ⟨a, b, rfl⟩ := List.append_of_mem hmem
        have hlen : (a ++ (10 : UInt8) :: b).length = a.length + (b.length + 1) := List.length_append
        have hchar : Char.ofNat (10 : UInt8).toNat = '\n' := rfl
        rw [h.append a b 10 (by decide), hchar, List.splitOn_append_cons_self, List.splitOn_append_cons_self,
          List.map_append, ih a.length (by omega) a rfl, ih b.length (by omega) b rfl]
      · have hnl : '\n' ∉ toStringLossy bs := fun hc => hmem (h.mem '\n' bs (by decide) hc)
        rw [List.splitOn_eq_singleton hnl, List.splitOn_eq_singleton hmem]
        rfl

/-- A line that reads as a record: a word, a space, the key, an equals sign and the value. -/
def Reads (line key value : Str) : Prop :=
  ∃ word, ' ' ∉ word ∧ '=' ∉ key ∧ line = word ++ ' ' :: (key ++ '=' :: value)

theorem paxRecord_eq_some_iff {line key value : Str} :
    paxRecord line = some (key, value) ↔ Reads line key value := by
  constructor
  · intro h
    unfold paxRecord at h
    dsimp only at h
    split_ifs at h with hparts
    obtain ⟨hkey, hvalue⟩ := Prod.mk.inj (Option.some.inj h)
    by_cases hspace : ' ' ∈ line
    · obtain ⟨word, kv, rfl, hword⟩ := List.eq_append_cons_of_mem hspace
      rw [List.splitOn_append_cons_self_of_not_mem hword, List.tail_cons, List.intercalate_splitOn]
        at hparts hkey hvalue
      by_cases hequals : '=' ∈ kv
      · obtain ⟨key', value', rfl, hnot⟩ := List.eq_append_cons_of_mem hequals
        rw [List.splitOn_append_cons_self_of_not_mem hnot] at hkey hvalue
        rw [List.tail_cons, List.intercalate_splitOn] at hvalue
        subst hvalue
        obtain rfl : key' = key := hkey
        exact ⟨word, hword, hnot, rfl⟩
      · rw [List.splitOn_eq_singleton hequals] at hparts
        exact absurd hparts (Nat.lt_irrefl 1)
    · rw [List.splitOn_eq_singleton hspace] at hparts
      exact absurd hparts (Nat.lt_irrefl 1)
  · rintro ⟨word, hword, hkey, rfl⟩
    have hlen : 1 < (key :: value.splitOn '=').length := by
      rw [List.length_cons]
      exact Nat.succ_lt_succ (List.length_pos_iff.mpr (List.splitOn_ne_nil _ _))
    unfold paxRecord
    dsimp only
    rw [List.splitOn_append_cons_self_of_not_mem hword, List.tail_cons, List.intercalate_splitOn,
      List.splitOn_append_cons_self_of_not_mem hkey, if_pos hlen, List.tail_cons, List.intercalate_splitOn]
    rfl

theorem paxRecords_eq (s : Str) : paxRecords s = (s.splitOn '\n').filterMap paxRecord := by
  unfold paxRecords
  induction s.splitOn '\n' with
  | nil => rfl
  | cons l ls ih =>
      rw [List.filter_cons]
      by_cases hl : l = []
      · subst hl
        rw [if_neg (by simp), ih, List.filterMap_cons_none rfl]
      · rw [if_pos (by simpa using hl), List.filterMap_cons, List.filterMap_cons, ih]

/-- The last line that reads as a record of the key has the value; with `none`, no line reads so. -/
def LastReads (ls : List Str) (key : Str) : Option Str → Prop
  | none => ∀ l ∈ ls, ∀ value, ¬Reads l key value
  | some value => ∃ before l after, ls = before ++ l :: after ∧ Reads l key value ∧
      ∀ l' ∈ after, ∀ value', ¬Reads l' key value'

theorem not_mem_filterMap {ls : List Str} {key : Str} (h : ∀ l ∈ ls, ∀ value, ¬Reads l key value) :
    (ls.filterMap paxRecord).reverse.lookup key = none := by
  rw [List.lookup_eq_none_iff]
  intro p hp
  obtain ⟨l, hl, hread⟩ := List.mem_filterMap.mp (List.mem_reverse.mp hp)
  refine bne_iff_ne.mpr fun hkey => ?_
  subst hkey
  exact h l hl p.2 (paxRecord_eq_some_iff.mp hread)

theorem paxGet_of_lastReads {ls : List Str} {key : Str} {o : Option Str} (h : LastReads ls key o) :
    paxGet (ls.filterMap paxRecord) key = o := by
  cases o with
  | none => exact not_mem_filterMap h
  | some value =>
      obtain ⟨before, l, after, rfl, hread, hafter⟩ := h
      unfold paxGet
      rw [List.filterMap_append, List.filterMap_cons_some (paxRecord_eq_some_iff.mpr hread), List.reverse_append,
        List.reverse_cons, List.append_assoc, List.lookup_append, not_mem_filterMap hafter, Option.none_or]
      exact List.lookup_cons_self

theorem lastReads_append_of_not {ls : List Str} {l key : Str} {o : Option Str}
    (hl : ∀ value, ¬Reads l key value) (h : LastReads ls key o) : LastReads (ls ++ [l]) key o := by
  cases o with
  | none =>
      intro l' hl'
      rcases List.mem_append.mp hl' with hl' | hl'
      · exact h l' hl'
      · rw [List.mem_singleton.mp hl']
        exact hl
  | some value =>
      obtain ⟨before, l', after, rfl, hread, hafter⟩ := h
      refine ⟨before, l', after ++ [l], by rw [List.append_assoc, List.cons_append], hread, fun l'' hl'' => ?_⟩
      rcases List.mem_append.mp hl'' with hl'' | hl''
      · exact hafter l'' hl''
      · rw [List.mem_singleton.mp hl'']
        exact hl

theorem exists_lastReads (ls : List Str) (key : Str) : ∃ o, LastReads ls key o := by
  induction ls using List.reverseRec with
  | nil => exact ⟨none, fun _ h => absurd h List.not_mem_nil⟩
  | append_singleton ls l ih =>
      by_cases hl : ∃ value, Reads l key value
      · obtain ⟨value, hread⟩ := hl
        exact ⟨some value, ls, l, [], rfl, hread, fun _ h => absurd h List.not_mem_nil⟩
      · obtain ⟨o, ho⟩ := ih
        exact ⟨o, lastReads_append_of_not (fun value h => hl ⟨value, h⟩) ho⟩

/-- What `(get r key)` gives of the lines. -/
theorem paxGet_eq_iff {ls : List Str} {key : Str} {o : Option Str} :
    paxGet (ls.filterMap paxRecord) key = o ↔ LastReads ls key o := by
  refine ⟨?_, paxGet_of_lastReads⟩
  rintro rfl
  obtain ⟨o, ho⟩ := exists_lastReads ls key
  rw [paxGet_of_lastReads ho]
  exact ho

/-- The lines of the header as text. -/
def textLines (toStringLossy : List UInt8 → Str) (text : List UInt8) : List Str :=
  (lines text).map toStringLossy

theorem paxRecords_cstring (h : Lossy toStringLossy) (text : List UInt8) :
    paxRecords (toStringLossy (text.takeWhile (· ≠ 0))) = (textLines toStringLossy text).filterMap paxRecord := by
  rw [paxRecords_eq, h.splitOn]
  rfl

/-! ### Records -/

/-- What a record says: the path or the size of the next entry, or anything else. -/
inductive Content
  | path (text : Str) (noNul : '\x00' ∉ text) (noNewline : '\n' ∉ text)
  | size (n : Nat)
  | other (key value : List UInt8) (noEquals : 61 ∉ key) (notPath : key ≠ Utf8.encode "path".toList)
      (notSize : key ≠ Utf8.encode "size".toList)

def Content.key : Content → List UInt8
  | path .. => Utf8.encode "path".toList
  | size _ => Utf8.encode "size".toList
  | other key .. => key

def Content.value : Content → List UInt8
  | path text .. => Utf8.encode text
  | size n => Utf8.encode (Beerlang.decimal n)
  | other _ value .. => value

/-- `len key=value` and a newline. -/
def Content.bytes (c : Content) (len : Nat) : List UInt8 :=
  Utf8.encode (Beerlang.decimal len) ++ 32 :: (c.key ++ 61 :: (c.value ++ [10]))

/-- A record with its own length in decimal before it. -/
structure PaxRecord where
  content : Content
  len : Nat
  length_bytes : (content.bytes len).length = len

def paxBytes (records : List PaxRecord) : List UInt8 := records.flatMap fun r => r.content.bytes r.len

def Content.path? : Content → Option Str
  | path text .. => some text
  | _ => none

def Content.size? : Content → Option Nat
  | size n => some n
  | _ => none

/-- The last path of the records. -/
def lastPath (records : List PaxRecord) : Option Str := (records.filterMap fun r => r.content.path?).getLast?

/-- The last size of the records. -/
def lastSize (records : List PaxRecord) : Option Nat := (records.filterMap fun r => r.content.size?).getLast?

/-! ### The next entry -/

/-- The size of the next entry; `own` stands in its header. -/
def Form.sizeOr (own : Nat) : Form → Except Failure Int
  | .nothing => .ok own
  | .number n => .ok n
  | .other => .error .type

/-- The form that the last size reads as. -/
def readForm (readString : Str → Except Failure Form) : Option Str → Except Failure Form
  | none => .ok .nothing
  | some s => readString s

/-- From the header at `off` on, two rounds enter the name and stop at `stop`, whatever is in the index. -/
def EntersNext (buf : List UInt8) (readString : Str → Except Failure Form) (toStringLossy : List UInt8 → Str)
    (off : Nat) (name : Str) (entry : Entry) (stop : Nat) : Prop :=
  ∀ acc nextName, ∃ st, round buf readString toStringLossy ⟨off, acc, nextName, .nothing⟩ = .ok (.inr st) ∧
    round buf readString toStringLossy st = .ok (.inr ⟨stop, acc.insert name entry, none, .nothing⟩)

/-- The last line that reads as a path, and the last that reads as a size, say what the records say last. -/
structure Agree (readString : Str → Except Failure Form) (ls : List Str) (records : List PaxRecord) (own : Str)
    (ownSize : Nat) : Prop where
  path : ∃ o, LastReads ls "path".toList o ∧ cleanName (o.getD own) = cleanName ((lastPath records).getD own)
  size : ∃ o form, LastReads ls "size".toList o ∧ readForm readString o = .ok form ∧
    form.sizeOr ownSize = .ok ((lastSize records).getD ownSize)

section Next

variable {x h : Header} {before rest text data : List UInt8} {acc : Index} {nextName : Option Str} {st st' : State}
  {n : Nat}

theorem headerSize_eq (hoff : st.off = before.length) (hn : OctalField h.size n) :
    headerSize (before ++ (h.bytes ++ rest)) st = st.nextSize.sizeOr n := by
  unfold headerSize
  rw [hoff, h.octal_size hn]
  cases st.nextSize <;> rfl

/-- The round at a pax header. -/
theorem round_records (hl : Lossy toStringLossy) (hflag : x.flag = 120) (hn : OctalField x.size text.length) :
    round (before ++ (x.bytes ++ (padded text ++ rest))) readString toStringLossy
        ⟨before.length, acc, nextName, .nothing⟩ = (do
      let nextSize ← readSize readString ((textLines toStringLossy text).filterMap paxRecord)
      return .inr ⟨before.length + (512 + (padded text).length : Nat), acc,
        paxGet ((textLines toStringLossy text).filterMap paxRecord) "path".toList, nextSize⟩) := by
  have hlen : (before ++ (x.bytes ++ (padded text ++ rest))).length =
      before.length + (512 + ((padded text).length + rest.length)) := by
    simp only [List.length_append, x.length_bytes]
  have hdata : text.length ≤ (padded text).length := by
    rw [padded, List.length_append]
    omega
  rw [Header.round_eq rfl hn, headerSize_eq rfl hn, Form.sizeOr, Beerlang.ok_bind,
    if_neg (by rw [hlen]; show ¬(before.length : Int) + 512 + text.length > _; omega)]
  unfold readHeader
  dsimp only
  rw [if_pos hflag, cstring_padded, Beerlang.ok_bind, paxRecords_cstring hl, after_eq]
  cases readSize readString ((textLines toStringLossy text).filterMap paxRecord) <;> rfl

/-- A header of an entry: no pax header and no GNU long-name header. -/
def OfEntry (flag : UInt8) : Prop := flag ≠ 120 ∧ flag ≠ 103 ∧ flag ≠ 76

/-- A name that `index` has an entry for. -/
def Listed (name : Str) : Prop := name ≠ [] ∧ name ≠ ".".toList

theorem readHeader_entry {size : Int} {full : Str} (hoff : st.off = before.length) (hflag : OfEntry h.flag)
    (hfull : cleanName (st.nextName.getD (h.own toStringLossy)) = full) :
    readHeader (before ++ (h.bytes ++ rest)) readString toStringLossy st h.flag size =
      .ok ⟨after st.off size, if full = [] ∨ full = ".".toList then st.acc
        else st.acc.insert full ⟨entryType h.flag, st.off + block, size⟩, none, .nothing⟩ := by
  unfold readHeader
  dsimp only
  rw [if_neg hflag.1, if_neg hflag.2.1, if_neg hflag.2.2, hoff, h.fieldName_eq, Beerlang.ok_bind, hfull]
  rfl

/-- The round at the header of the entry, when its name and size are what the archive means. -/
theorem round_entry {full : Str} (hoff : st.off = before.length) (hn : OctalField h.size n)
    (hflag : OfEntry h.flag) (hlisted : Listed full)
    (hfull : cleanName (st.nextName.getD (h.own toStringLossy)) = full)
    (hsize : st.nextSize.sizeOr n = .ok data.length) :
    round (before ++ (h.bytes ++ (padded data ++ rest))) readString toStringLossy st =
      .ok (.inr ⟨before.length + (512 + (padded data).length : Nat),
        st.acc.insert full ⟨entryType h.flag, before.length + block, data.length⟩, none, .nothing⟩) := by
  have hheader : headerSize (before ++ (h.bytes ++ (padded data ++ rest))) st = .ok data.length :=
    (headerSize_eq hoff hn).trans hsize
  rw [round_header hoff hn hheader (readHeader_entry hoff hflag hfull),
    if_neg (not_or.mpr hlisted), hoff, after_eq]

/-- The name and size that a round at the header of an entry has put into an empty index. -/
theorem of_round_entry {full : Str} {type : EntryType} {offset size : Int} (hoff : st.off = before.length)
    (hn : OctalField h.size n) (hflag : OfEntry h.flag) (hacc : st.acc = ∅)
    (hround : round (before ++ (h.bytes ++ rest)) readString toStringLossy st = .ok (.inr st'))
    (hst' : st'.acc = (∅ : Index).insert full ⟨type, offset, size⟩) :
    cleanName (st.nextName.getD (h.own toStringLossy)) = full ∧ st.nextSize.sizeOr n = .ok size := by
  rw [Header.round_eq hoff hn, headerSize_eq hoff hn] at hround
  obtain ⟨size', hsize, hround⟩ := Beerlang.bind_eq_ok.mp hround
  split_ifs at hround
  rw [readHeader_entry hoff hflag rfl] at hround
  cases hround
  have hlookup := congrArg (AList.lookup full) hst'
  rw [AList.lookup_insert, hacc] at hlookup
  dsimp only at hlookup
  split_ifs at hlookup
  · cases hlookup
  · by_cases hname : full = cleanName (st.nextName.getD (h.own toStringLossy))
    · rw [← hname, AList.lookup_insert] at hlookup
      have hentry := Option.some.inj hlookup
      rw [Entry.mk.injEq] at hentry
      exact ⟨hname.symm, hentry.2.2 ▸ hsize⟩
    · rw [AList.lookup_insert_ne hname] at hlookup
      cases hlookup

/-- A pax header with the records and the header of an entry with its data, somewhere in an archive. -/
def paxArchive (before : List UInt8) (x : Header) (records : List PaxRecord) (h : Header)
    (data rest : List UInt8) : List UInt8 :=
  before ++ (x.bytes ++ (padded (paxBytes records) ++ (h.bytes ++ (padded data ++ rest))))

/-- Where the entry's data begins. -/
def dataStart (before : List UInt8) (records : List PaxRecord) : Nat :=
  before.length + (512 + (padded (paxBytes records)).length + 512)

variable {records : List PaxRecord} {full : Str}

theorem paxArchive_eq : paxArchive before x records h data rest =
    (before ++ (x.bytes ++ padded (paxBytes records))) ++ (h.bytes ++ (padded data ++ rest)) := by
  simp only [paxArchive, List.append_assoc]

theorem length_before_entry : (before ++ (x.bytes ++ padded (paxBytes records))).length =
    before.length + (512 + (padded (paxBytes records)).length) := by
  rw [List.length_append, List.length_append, x.length_bytes]

theorem Agree.entersNext (hagree : Agree readString (textLines toStringLossy (paxBytes records)) records
      (h.own toStringLossy) n)
    (hl : Lossy toStringLossy) (hx : x.flag = 120) (hxsize : OctalField x.size (paxBytes records).length)
    (hflag : OfEntry h.flag) (hn : OctalField h.size n)
    (hfull : cleanName ((lastPath records).getD (h.own toStringLossy)) = full) (hlisted : Listed full)
    (hdata : data.length = (lastSize records).getD n) :
    EntersNext (paxArchive before x records h data rest) readString toStringLossy before.length full
      ⟨entryType h.flag, dataStart before records, data.length⟩
      (dataStart before records + (padded data).length) := by
  obtain ⟨⟨o, hpath, hname⟩, ⟨o', form, hsize, hform, hsizeOr⟩⟩ := hagree
  have hread : readSize readString ((textLines toStringLossy (paxBytes records)).filterMap paxRecord) = .ok form := by
    unfold readSize
    rw [paxGet_of_lastReads hsize]
    exact hform
  have hoff : (before.length : Int) + (512 + (padded (paxBytes records)).length : Nat) =
      (before ++ (x.bytes ++ padded (paxBytes records))).length := by
    rw [length_before_entry]
    rfl
  have hstart : ((before ++ (x.bytes ++ padded (paxBytes records))).length : Int) + block =
      dataStart before records := by
    rw [length_before_entry]
    unfold block dataStart
    omega
  have hstop : ((before ++ (x.bytes ++ padded (paxBytes records))).length : Int) + (512 + (padded data).length : Nat) =
      (dataStart before records + (padded data).length : Nat) := by
    rw [length_before_entry]
    unfold dataStart
    omega
  intro acc nextName
  refine ⟨⟨before.length + (512 + (padded (paxBytes records)).length : Nat), acc, o, form⟩, ?_, ?_⟩
  · rw [paxArchive, round_records hl hx hxsize, hread, paxGet_of_lastReads hpath]
    rfl
  · rw [paxArchive_eq, round_entry hoff hn hflag hlisted (hname.trans hfull) (by rw [hdata]; exact hsizeOr), hstart,
      hstop]

theorem EntersNext.agree {offset size : Int} {type : EntryType} {stop : Nat}
    (hnext : EntersNext (paxArchive before x records h data rest) readString toStringLossy before.length full
      ⟨type, offset, size⟩ stop)
    (hl : Lossy toStringLossy) (hx : x.flag = 120) (hxsize : OctalField x.size (paxBytes records).length)
    (hflag : OfEntry h.flag) (hn : OctalField h.size n)
    (hfull : cleanName ((lastPath records).getD (h.own toStringLossy)) = full)
    (hsize : size = (lastSize records).getD n) :
    Agree readString (textLines toStringLossy (paxBytes records)) records (h.own toStringLossy) n := by
  have hoff : (before.length : Int) + (512 + (padded (paxBytes records)).length : Nat) =
      (before ++ (x.bytes ++ padded (paxBytes records))).length := by
    rw [length_before_entry]
    rfl
  obtain ⟨st, hround, hround'⟩ := hnext ∅ none
  rw [paxArchive, round_records hl hx hxsize] at hround
  obtain ⟨form, hform, hround⟩ := Beerlang.bind_eq_ok.mp hround
  cases hround
  rw [paxArchive_eq] at hround'
  obtain ⟨hname, hsizeOr⟩ := of_round_entry hoff hn hflag rfl hround' rfl
  refine ⟨⟨_, paxGet_eq_iff.mp rfl, hname.trans hfull.symm⟩, ⟨_, form, paxGet_eq_iff.mp rfl, ?_, ?_⟩⟩
  · unfold readSize at hform
    unfold readForm
    exact hform
  · rw [← hsize]
    exact hsizeOr

end Next

/-! ### Records without newlines and zero bytes -/

/-- No newline and no zero byte. -/
def Content.Plain (c : Content) : Prop := (10 ∉ c.key ∧ 0 ∉ c.key) ∧ 10 ∉ c.value ∧ 0 ∉ c.value

/-- The line of a record. -/
def Content.line (c : Content) (len : Nat) : List UInt8 :=
  Utf8.encode (Beerlang.decimal len) ++ 32 :: (c.key ++ 61 :: c.value)

theorem Content.bytes_eq (c : Content) (len : Nat) : c.bytes len = c.line len ++ [10] := by
  simp only [bytes, line, List.append_assoc, List.cons_append]

theorem not_mem_encode_decimal {c : Char} (hc : c.isDigit = false) (h : c.toNat < 128) (n : Nat) :
    c.toUInt8 ∉ Utf8.encode (Beerlang.decimal n) := by
  intro hmem
  obtain ⟨d, hd, hmem⟩ := List.mem_flatMap.mp hmem
  by_cases hlt : d.toNat < 128
  · rw [Utf8.utf8EncodeChar_of_lt hlt, List.mem_singleton, Utf8.toUInt8_inj h hlt] at hmem
    subst hmem
    exact not_mem_decimal hc n hd
  · have hle := Utf8.le_of_mem_utf8EncodeChar (Nat.le_of_not_lt hlt) hmem
    rw [UInt8.le_iff_toNat_le, Utf8.toNat_toUInt8 h] at hle
    exact absurd h (Nat.not_lt.mpr hle)

theorem Content.Plain.not_mem_line {c : Content} (h : c.Plain) (len : Nat) :
    10 ∉ c.line len ∧ 0 ∉ c.line len := by
  obtain ⟨⟨hkey, hkey0⟩, hvalue, hvalue0⟩ := h
  have hlen : (10 : UInt8) ∉ Utf8.encode (Beerlang.decimal len) :=
    not_mem_encode_decimal (show '\n'.isDigit = false by decide) (by decide) len
  have hlen0 : (0 : UInt8) ∉ Utf8.encode (Beerlang.decimal len) :=
    not_mem_encode_decimal (show '\x00'.isDigit = false by decide) (by decide) len
  unfold line
  simp only [List.mem_append, List.mem_cons, not_or]
  exact ⟨⟨hlen, by decide, hkey, by decide, hvalue⟩, hlen0, by decide, hkey0, by decide, hvalue0⟩

/-- ASCII text comes from its own bytes only. -/
theorem Lossy.eq_encode (h : Lossy toStringLossy) {s : Str} (hs : ∀ c ∈ s, c.toNat < 128) {bs : List UInt8}
    (heq : toStringLossy bs = s) : bs = Utf8.encode s := by
  induction s generalizing bs with
  | nil => exact h.nil bs heq
  | cons c s ih =>
      have hc := hs c (List.mem_cons_self ..)
      obtain ⟨a, b, rfl, hnot⟩ := List.eq_append_cons_of_mem (h.mem c bs hc (heq ▸ List.mem_cons_self ..))
      have hbyte : c.toUInt8 < 128 := by
        rw [UInt8.lt_iff_toNat_lt, Utf8.toNat_toUInt8 hc]
        exact hc
      have hchar : Char.ofNat c.toUInt8.toNat = c := by rw [Utf8.toNat_toUInt8 hc, Char.ofNat_toNat]
      rw [h.append a b c.toUInt8 hbyte, hchar] at heq
      cases hhead : toStringLossy a with
      | nil =>
          obtain rfl := h.nil a hhead
          rw [hhead] at heq
          rw [ih (fun d hd => hs d (List.mem_cons_of_mem _ hd)) (List.cons.inj heq).2, Utf8.encode_cons,
            Utf8.utf8EncodeChar_of_lt hc]
          rfl
      | cons d ds =>
          rw [hhead] at heq
          obtain rfl := (List.cons.inj heq).1
          exact absurd (h.mem d a hc (hhead ▸ List.mem_cons_self ..)) hnot

theorem Lossy.line (h : Lossy toStringLossy) (c : Content) (len : Nat) :
    toStringLossy (c.line len) = Beerlang.decimal len ++ ' ' :: (toStringLossy c.key ++ '=' :: toStringLossy c.value) := by
  unfold Content.line
  rw [h.append _ _ 32 (by decide), h.append _ _ 61 (by decide), h.encode]
  rfl

theorem Content.equals_not_mem_key (c : Content) : 61 ∉ c.key := by
  cases c with
  | path => exact show 61 ∉ Utf8.encode "path".toList by decide
  | size => exact show 61 ∉ Utf8.encode "size".toList by decide
  | other _ _ noEquals => exact noEquals

/-- The line of a record reads as its key and value, and as nothing else. -/
theorem Lossy.reads_line_iff (h : Lossy toStringLossy) (c : Content) (len : Nat) {key value : Str} :
    Reads (toStringLossy (c.line len)) key value ↔ key = toStringLossy c.key ∧ value = toStringLossy c.value := by
  have hline : Reads (toStringLossy (c.line len)) (toStringLossy c.key) (toStringLossy c.value) :=
    ⟨Beerlang.decimal len, not_mem_decimal (by decide) len,
      fun hmem => c.equals_not_mem_key (h.mem '=' c.key (by decide) hmem), h.line c len⟩
  constructor
  · intro hread
    have hsome := (paxRecord_eq_some_iff.mpr hread).symm.trans (paxRecord_eq_some_iff.mpr hline)
    exact Prod.mk.inj (Option.some.inj hsome)
  · rintro ⟨rfl, rfl⟩
    exact hline

/-- The lines of plain records, and the empty one after the last newline. -/
theorem lines_paxBytes {records : List PaxRecord} (hplain : ∀ r ∈ records, r.content.Plain) :
    lines (paxBytes records) = (records.map fun r => r.content.line r.len) ++ [[]] := by
  have htake : (paxBytes records).takeWhile (· ≠ 0) = paxBytes records := by
    rw [List.takeWhile_eq_self_iff]
    intro b hb
    obtain ⟨r, hr, hb⟩ := List.mem_flatMap.mp hb
    rw [Content.bytes_eq, List.mem_append, List.mem_singleton] at hb
    refine decide_eq_true ?_
    rintro rfl
    rcases hb with hb | hb
    · exact ((hplain r hr).not_mem_line r.len).2 hb
    · exact absurd hb (by decide)
  unfold lines
  rw [htake]
  clear htake
  induction records with
  | nil => rfl
  | cons r records ih =>
      have hcons : paxBytes (r :: records) = r.content.line r.len ++ 10 :: paxBytes records := by
        rw [paxBytes, List.flatMap_cons, Content.bytes_eq, List.append_assoc]
        rfl
      rw [hcons, List.splitOn_append_cons_self_of_not_mem ((hplain r (List.mem_cons_self ..)).not_mem_line r.len).1,
        ih fun r' hr' => hplain r' (List.mem_cons_of_mem _ hr')]
      rfl

theorem not_reads_nil (key value : Str) : ¬Reads [] key value := by
  rintro ⟨word, -, -, h⟩
  cases word <;> cases h

/-- Of lines that each read as one record, the last one of the key counts. -/
theorem lastReads_records {α : Type} (valueOf : Content → Option α) (text : α → Str) {key : Str}
    (h : Lossy toStringLossy) (hkey : ∀ c, valueOf c = none → key ≠ toStringLossy c.key)
    (hvalue : ∀ c a, valueOf c = some a → key = toStringLossy c.key ∧ text a = toStringLossy c.value)
    (records : List PaxRecord) :
    LastReads (records.map fun r => toStringLossy (r.content.line r.len)) key
      ((records.filterMap fun r => valueOf r.content).getLast?.map text) := by
  induction records using List.reverseRec with
  | nil => exact fun _ hl => absurd hl List.not_mem_nil
  | append_singleton records r ih =>
      rw [List.map_append, List.filterMap_append]
      cases hr : valueOf r.content with
      | none =>
          have hnone : [r].filterMap (fun r => valueOf r.content) = [] := List.filterMap_cons_none hr
          rw [hnone, List.append_nil]
          refine lastReads_append_of_not (fun value hread => ?_) ih
          exact hkey r.content hr ((h.reads_line_iff r.content r.len).mp hread).1
      | some a =>
          have hsome : [r].filterMap (fun r => valueOf r.content) = [a] := List.filterMap_cons_some hr
          rw [hsome, List.getLast?_concat]
          refine ⟨_, _, [], rfl, (h.reads_line_iff r.content r.len).mpr (hvalue r.content a hr), ?_⟩
          exact fun _ hl => absurd hl List.not_mem_nil

theorem Lossy.ne_other (h : Lossy toStringLossy) {s : Str} (hs : ∀ c ∈ s, c.toNat < 128) {key : List UInt8}
    (hkey : key ≠ Utf8.encode s) : s ≠ toStringLossy key := fun heq => hkey (h.eq_encode hs heq.symm)

theorem lastReads_path (h : Lossy toStringLossy) (records : List PaxRecord) :
    LastReads (records.map fun r => toStringLossy (r.content.line r.len)) "path".toList (lastPath records) := by
  have hlast : (lastPath records).map id = lastPath records := Option.map_id_apply
  rw [← hlast]
  refine lastReads_records Content.path? id h (fun c hc => ?_) (fun c s hc => ?_) records
  · cases c with
    | path => cases hc
    | size n =>
        show _ ≠ toStringLossy (Utf8.encode "size".toList)
        rw [h.encode]
        decide
    | other key value noEquals notPath notSize => exact h.ne_other (List.all_iff_forall_prop.mp (by decide)) notPath
  · cases c with
    | path text =>
        cases hc
        exact ⟨(h.encode _).symm, (h.encode _).symm⟩
    | size => cases hc
    | other => cases hc

theorem lastReads_size (h : Lossy toStringLossy) (records : List PaxRecord) :
    LastReads (records.map fun r => toStringLossy (r.content.line r.len)) "size".toList
      ((lastSize records).map Beerlang.decimal) := by
  refine lastReads_records Content.size? Beerlang.decimal h (fun c hc => ?_) (fun c n hc => ?_) records
  · cases c with
    | path text =>
        show _ ≠ toStringLossy (Utf8.encode "path".toList)
        rw [h.encode]
        decide
    | size => cases hc
    | other key value noEquals notPath notSize => exact h.ne_other (List.all_iff_forall_prop.mp (by decide)) notSize
  · cases c with
    | path => cases hc
    | size n =>
        cases hc
        exact ⟨(h.encode _).symm, (h.encode _).symm⟩
    | other => cases hc

/-- Plain records are read as they are meant. -/
theorem agree_of_plain (h : Lossy toStringLossy)
    (hread : ∀ n : Nat, readString (Beerlang.decimal n) = .ok (.number n)) {records : List PaxRecord}
    (hplain : ∀ r ∈ records, r.content.Plain) (own : Str) (ownSize : Nat) :
    Agree readString (textLines toStringLossy (paxBytes records)) records own ownSize := by
  have hlines : textLines toStringLossy (paxBytes records) =
      (records.map fun r => toStringLossy (r.content.line r.len)) ++ [[]] := by
    unfold textLines
    rw [lines_paxBytes hplain, List.map_append, List.map_map, List.map_singleton, show toStringLossy [] = [] from h.encode []]
    rfl
  rw [hlines]
  refine ⟨⟨_, lastReads_append_of_not (not_reads_nil _) (lastReads_path h records), rfl⟩, ?_⟩
  have hsize := lastReads_append_of_not (not_reads_nil _) (lastReads_size h records)
  cases hlast : lastSize records with
  | none =>
      rw [hlast] at hsize
      exact ⟨none, .nothing, hsize, rfl, rfl⟩
  | some n =>
      rw [hlast] at hsize
      exact ⟨some (Beerlang.decimal n), .number n, hsize, hread n, rfl⟩

/-! ### Two archives -/

/-- A path, and before it an attribute with two lines, the second of which reads as no path. -/
def commentRecords : List PaxRecord :=
  [⟨.other (Utf8.encode "comment".toList) (Utf8.encode "one\ntwo".toList) (by decide) (by decide) (by decide), 19,
      by decide⟩,
    ⟨.path "real".toList (by decide) (by decide), 13, by decide⟩]

/-- A path, and before it an attribute that is one zero byte. -/
def zeroRecords : List PaxRecord :=
  [⟨.other (Utf8.encode "SCHILY.xattr.user.x".toList) [0] (by decide) (by decide) (by decide), 25, by decide⟩,
    ⟨.path "real".toList (by decide) (by decide), 13, by decide⟩]

def commentHeader : Header := plainHeader [] (sizeField "00000000040") 120 length_noName rfl

def zeroHeader : Header := plainHeader [] (sizeField "00000000046") 120 length_noName rfl

theorem octalField_comment : OctalField commentHeader.size (paxBytes commentRecords).length :=
  octalField_sizeField (by decide) (by decide) (by decide)

theorem octalField_zero : OctalField zeroHeader.size (paxBytes zeroRecords).length :=
  octalField_sizeField (by decide) (by decide) (by decide)

theorem octalField_note : OctalField noteHeader.size 2 :=
  octalField_sizeField (by decide) (by decide) (by decide)

end Beeros.Ustar
