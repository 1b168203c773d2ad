import Mathlib.Data.Finset.Card
import Mathlib.Data.Finset.Image
import Beeros.RamFs

/-! What `ram-mv!` does to the files of the RAM file system: the map is built anew from all its entries, so of two
entries that come to one key the last in the map's order stays. -/

namespace Beeros.RamFs

open Rekey

/-- At `p` or below it, as `ram-ls` sees it. -/
def AtOrBelow (p k : Str) : Prop := k = p ∨ dirPrefix p <+: k

instance (p k : Str) : Decidable (AtOrBelow p k) := inferInstanceAs (Decidable (_ ∨ _))

/-- The place at or below `to` that corresponds to one at or below `from`. -/
def target (from' to' k : Str) : Str :=
  if k = from' then to' else dirPrefix to' ++ k.drop (dirPrefix from').length

def Entry.isText : Entry → Bool
  | .text _ => true
  | .dir => false

/-- The paths that hold a file. -/
def fileKeys (m : Files) : Finset Str := (m.keys.filter fun k => (m.lookup k).any Entry.isText).toFinset

/-- The rename brings every file at or below `from` to its place, leaves every other one, `to` apart, as it was, and
at most one file is gone. -/
structure Preserved (m r : Files) (from' to' : Str) : Prop where
  moved : ∀ k s, m.lookup k = some (.text s) → AtOrBelow from' k → r.lookup (target from' to' k) = some (.text s)
  others : ∀ k s, m.lookup k = some (.text s) → ¬AtOrBelow from' k → k ≠ to' → r.lookup k = some (.text s)
  count : (fileKeys m).card ≤ (fileKeys r).card + 1

/-- Whatever the order of the map's entries, the rename throws or preserves the files. -/
def MovesFiles (m : Files) (from' to' : Str) : Prop :=
  ∀ m', Same m m' → ∀ r, ramMv m' from' to' = .ok r → Preserved m' r from' to'

/-- All that is sent to `p` is the file with the text `s`. -/
def OnlyText (m : Files) (from' to' p s : Str) : Prop :=
  ∀ k v, m.lookup k = some v → mvKey from' to' k = p → v = .text s

/-- A file and another entry are sent to `p`. -/
def Shared (m : Files) (from' to' p : Str) : Prop :=
  ∃ k ∈ fileKeys m, ∃ k' ∈ m, k' ≠ k ∧ mvKey from' to' k = p ∧ mvKey from' to' k' = p

/-- To the place of every file at or below `from` something is sent, and that file only; to every other file, `to`
apart, nothing else is sent; at most one key is shared. -/
structure Clear (m : Files) (from' to' : Str) : Prop where
  moved : ∀ k s, m.lookup k = some (.text s) → AtOrBelow from' k →
    (∃ k' ∈ m, mvKey from' to' k' = target from' to' k) ∧ OnlyText m from' to' (target from' to' k) s
  others : ∀ k s, m.lookup k = some (.text s) → ¬AtOrBelow from' k → k ≠ to' → OnlyText m from' to' k s
  shared : ∀ p p', Shared m from' to' p → Shared m from' to' p' → p = p'

variable {m m' r : Files} {from' to' k k' p : Str}

theorem mem_fileKeys : k ∈ fileKeys m ↔ ∃ s, m.lookup k = some (.text s) := by
  unfold fileKeys
  rw [List.mem_toFinset, List.mem_filter, ← AList.mem_keys, Option.any_eq_true]
  constructor
  · rintro ⟨-, v, hv, htext⟩
    cases v with
    | text s => exact ⟨s, hv⟩
    | dir => cases htext
  · rintro ⟨s, hs⟩
    exact ⟨mem_of_lookup hs, _, hs, rfl⟩

theorem mem_of_mem_fileKeys (h : k ∈ fileKeys m) : k ∈ m := by
  obtain ⟨s, hs⟩ := mem_fileKeys.mp h
  exact mem_of_lookup hs

theorem fileKeys_same (h : Same m m') : fileKeys m' = fileKeys m := by
  ext k
  rw [mem_fileKeys, mem_fileKeys, h.lookup]

theorem atOrBelow_of_under (h : Under p k) : AtOrBelow p k := by
  rcases h with rfl | h
  · exact .inl rfl
  · refine .inr ?_
    unfold dirPrefix
    split_ifs with hroot
    · subst hroot
      exact (List.prefix_append root ['/']).trans h
    · exact h

theorem mvKey_of_not_atOrBelow (h : ¬AtOrBelow from' k) : mvKey from' to' k = k :=
  mvKey_of_not_under fun hu => h (atOrBelow_of_under hu)

/-- Two keys that are sent to one are a moved one and one that stays. -/
theorem under_iff_not_under (hne : k ≠ k') (heq : mvKey from' to' k = mvKey from' to' k') :
    Under from' k ↔ ¬Under from' k' := by
  constructor
  · intro hk hk'
    obtain ⟨a, rfl, ha⟩ := mvKey_under to' hk
    obtain ⟨b, rfl, hb⟩ := mvKey_under to' hk'
    rw [ha, hb] at heq
    exact hne (congrArg (from' ++ ·) (List.append_cancel_left heq))
  · intro hk'
    by_contra hk
    rw [mvKey_of_not_under hk, mvKey_of_not_under hk'] at heq
    exact hne heq

/-- No three keys are sent to one. -/
theorem eq_of_mvKey_eq {a b c : Str} (hab : a ≠ b) (hac : a ≠ c) (hb : mvKey from' to' a = mvKey from' to' b)
    (hc : mvKey from' to' a = mvKey from' to' c) : b = c := by
  by_contra hbc
  have h₁ := under_iff_not_under hab hb
  have h₂ := under_iff_not_under hac hc
  have h₃ := under_iff_not_under hbc (hb.symm.trans hc)
  tauto

/-! ### How many files -/

/-- What is sent to a key by one entry only keeps its text. -/
theorem mem_fileKeys_of_not_shared (hk : k ∈ fileKeys m) (h : ¬Shared m from' to' (mvKey from' to' k)) :
    mvKey from' to' k ∈ fileKeys (rekey (mvKey from' to') m) := by
  obtain ⟨s, hs⟩ := mem_fileKeys.mp hk
  refine mem_fileKeys.mpr ⟨s, lookup_of_agree hs fun k' v' hk' heq => ?_⟩
  by_cases hne : k' = k
  · rw [hne, hs] at hk'
    exact (Option.some.inj hk').symm
  · exact absurd ⟨k, hk, k', mem_of_lookup hk', hne, rfl, heq⟩ h

theorem card_le_of_shared_eq (h : ∀ p p', Shared m from' to' p → Shared m from' to' p' → p = p') :
    (fileKeys m).card ≤ (fileKeys (rekey (mvKey from' to') m)).card + 1 := by
  by_cases hany : ∃ p, Shared m from' to' p
  · obtain ⟨p, a, ha, b, hb, hba, hap, hbp⟩ := hany
    have hp : Shared m from' to' p := ⟨a, ha, b, hb, hba, hap, hbp⟩
    -- every file but `a` keeps a key of its own
    have honly : ∀ k ∈ (fileKeys m).erase a, mvKey from' to' k = p → k = b := fun k hk heq =>
      (eq_of_mvKey_eq hba.symm (Finset.mem_erase.mp hk).1.symm (hap.trans hbp.symm) (hap.trans heq.symm)).symm
    have hle : ((fileKeys m).erase a).card ≤ (fileKeys (rekey (mvKey from' to') m)).card := by
      refine Finset.card_le_card_of_injOn (mvKey from' to') (fun k hk => ?_) fun k hk k' hk' heq => ?_
      · by_cases hkp : mvKey from' to' k = p
        · obtain rfl := honly k hk hkp
          obtain ⟨s, hs⟩ := mem_fileKeys.mp (Finset.mem_erase.mp hk).2
          obtain ⟨v, hv⟩ := exists_lookup (f := mvKey from' to') hs
          obtain ⟨c, hc, hcp⟩ := source_of_lookup hv
          have hv' : ∃ t, v = .text t := by
            by_cases hca : c = a
            · obtain ⟨t, ht⟩ := mem_fileKeys.mp ha
              rw [hca, ht] at hc
              exact ⟨t, (Option.some.inj hc).symm⟩
            · have heq := eq_of_mvKey_eq hba.symm (Ne.symm hca) (hap.trans hkp.symm) (hap.trans (hcp.trans hkp).symm)
              rw [← heq, hs] at hc
              exact ⟨s, (Option.some.inj hc).symm⟩
          obtain ⟨t, rfl⟩ := hv'
          exact mem_fileKeys.mpr ⟨t, hv⟩
        · exact mem_fileKeys_of_not_shared (Finset.mem_erase.mp hk).2 fun hs => hkp (h _ _ hs hp)
      · by_contra hne
        have hs : Shared m from' to' (mvKey from' to' k) :=
          ⟨k, (Finset.mem_erase.mp hk).2, k', mem_of_mem_fileKeys (Finset.mem_erase.mp hk').2, Ne.symm hne, rfl, heq.symm⟩
        have hkp := h _ _ hs hp
        exact hne ((honly k hk hkp).trans (honly k' hk' (heq.symm.trans hkp)).symm)
    have hcard := Finset.card_erase_add_one ha
    omega
  · refine (Finset.card_le_card_of_injOn (mvKey from' to') (fun k hk => ?_) fun k hk k' hk' heq => ?_).trans
      (Nat.le_succ _)
    · exact mem_fileKeys_of_not_shared hk fun hs => hany ⟨_, hs⟩
    · by_contra hne
      exact hany ⟨_, k, hk, k', mem_of_mem_fileKeys hk', Ne.symm hne, rfl, heq.symm⟩

/-- With the `:dir` entries last, two shared keys cost two files. -/
theorem exists_order_card_lt {p' : Str} (hp : Shared m from' to' p) (hp' : Shared m from' to' p') (hne : p ≠ p') :
    ∃ m', Same m m' ∧ (fileKeys (rekey (mvKey from' to') m')).card + 1 < (fileKeys m).card := by
  obtain ⟨m', hsame, horder⟩ := exists_order (mvKey from' to') m fun _ v => !v.isText
  refine ⟨m', hsame, ?_⟩
  obtain ⟨a, ha, a₂, ha₂, haa, hap, hap₂⟩ := hp
  obtain ⟨b, hb, b₂, hb₂, hbb, hbp, hbp₂⟩ := hp'
  have hab : b ≠ a := fun h => hne (hap.symm.trans ((congrArg (mvKey from' to') h).symm.trans hbp))
  -- a file that is left was sent there by a file other than `a` and `b`
  have hsub : fileKeys (rekey (mvKey from' to') m') ⊆
      (((fileKeys m).erase a).erase b).image (mvKey from' to') := by
    intro x hx
    obtain ⟨s, hs⟩ := mem_fileKeys.mp hx
    obtain ⟨c, hc, hcx, hlast⟩ := horder x _ hs
    have hall : ∀ d ∈ m, mvKey from' to' d = x → d ∈ fileKeys m := by
      intro d hd hdx
      obtain ⟨v, hv⟩ := lookup_of_mem hd
      have htext := hlast.resolve_left nofun d v hv hdx
      cases v with
      | text t => exact mem_fileKeys.mpr ⟨t, hv⟩
      | dir => cases htext
    rw [Finset.mem_image]
    by_cases hca : c = a
    · refine ⟨a₂, Finset.mem_erase.mpr ⟨?_, Finset.mem_erase.mpr ⟨haa, hall a₂ ha₂ ?_⟩⟩, ?_⟩
      · rintro rfl
        exact hne (hap₂.symm.trans hbp)
      · rw [hap₂, ← hap, ← hca, hcx]
      · rw [hap₂, ← hap, ← hca, hcx]
    · by_cases hcb : c = b
      · refine ⟨b₂, Finset.mem_erase.mpr ⟨hbb, Finset.mem_erase.mpr ⟨?_, hall b₂ hb₂ ?_⟩⟩, ?_⟩
        · rintro rfl
          exact hne (hap.symm.trans hbp₂)
        · rw [hbp₂, ← hbp, ← hcb, hcx]
        · rw [hbp₂, ← hbp, ← hcb, hcx]
      · exact ⟨c, Finset.mem_erase.mpr ⟨hcb, Finset.mem_erase.mpr ⟨hca, mem_fileKeys.mpr ⟨s, hc⟩⟩⟩, hcx⟩
  have hle := (Finset.card_le_card hsub).trans Finset.card_image_le
  have hcard := Finset.card_erase_add_one ha
  have hcard' := Finset.card_erase_add_one (Finset.mem_erase.mpr ⟨hab, hb⟩)
  omega

/-! ### The rename -/

theorem Shared.of_same (hsame : Same m m') (h : Shared m' from' to' p) : Shared m from' to' p := by
  obtain ⟨k, hk, k', hk', hrest⟩ := h
  exact ⟨k, fileKeys_same hsame ▸ hk, k', (AList.mem_of_perm hsame).mp hk', hrest⟩

theorem Clear.same (h : Clear m from' to') (hsame : Same m m') : Clear m' from' to' := by
  have hback : ∀ {k v}, m'.lookup k = some v → m.lookup k = some v := fun hk => (hsame.lookup _).symm.trans hk
  refine ⟨fun k s hk hu => ?_, fun k s hk hu hne c v hc => h.others k s (hback hk) hu hne c v (hback hc),
    fun p p' hp hp' => h.shared p p' (hp.of_same hsame) (hp'.of_same hsame)⟩
  obtain ⟨⟨k', hk', heq⟩, honly⟩ := h.moved k s (hback hk) hu
  exact ⟨⟨k', (AList.mem_of_perm hsame).mpr hk', heq⟩, fun c v hc => honly c v (hback hc)⟩

theorem Clear.preserved (h : Clear m from' to') : Preserved m (rekey (mvKey from' to') m) from' to' := by
  refine ⟨fun k s hk hu => ?_, fun k s hk hu hne => ?_, card_le_of_shared_eq h.shared⟩
  · obtain ⟨⟨k', hk', heq⟩, honly⟩ := h.moved k s hk hu
    obtain ⟨v, hv⟩ := lookup_of_mem hk'
    have hlook := lookup_of_agree (f := mvKey from' to') hv fun c w hc hcw =>
      (honly c w hc (hcw.trans heq)).trans (honly k' v hv heq).symm
    rw [← heq, hlook, honly k' v hv heq]
  · have hkey : mvKey from' to' k = k := mvKey_of_not_atOrBelow hu
    have hlook := lookup_of_agree (f := mvKey from' to') hk fun c w hc hcw =>
      h.others k s hk hu hne c w hc (hcw.trans hkey)
    rw [hkey] at hlook
    exact hlook

theorem onlyText_of_lookup {s : Str} (h : ∀ m', Same m m' → (rekey (mvKey from' to') m').lookup p = some (.text s)) :
    OnlyText m from' to' p s := by
  rintro k v hk rfl
  obtain ⟨m', hsame, hm'⟩ := exists_order_keeping (mvKey from' to') hk
  rw [h m' hsame] at hm'
  exact (Option.some.inj hm').symm

theorem clear_of_preserved (h : ∀ m', Same m m' → Preserved m' (rekey (mvKey from' to') m') from' to') :
    Clear m from' to' := by
  refine ⟨fun k s hk hu => ⟨?_, ?_⟩, fun k s hk hu hne => ?_, fun p p' hp hp' => ?_⟩
  · obtain ⟨k', hk', heq⟩ := source_of_lookup ((h m (Same.refl m)).moved k s hk hu)
    exact ⟨k', mem_of_lookup hk', heq⟩
  · exact onlyText_of_lookup fun m' hsame => (h m' hsame).moved k s ((hsame.lookup k).trans hk) hu
  · exact onlyText_of_lookup fun m' hsame => (h m' hsame).others k s ((hsame.lookup k).trans hk) hu hne
  · by_contra hne
    obtain ⟨m', hsame, hlt⟩ := exists_order_card_lt hp hp' hne
    have hcount := (h m' hsame).count
    rw [fileKeys_same hsame] at hcount
    omega

theorem ramMv_of_nothing (h : from' ∉ m ∧ ramDir m from' = false) : ramMv m from' to' = .error ⟨from', .notFound⟩ :=
  if_pos ⟨Option.isNone_iff_eq_none.mpr (AList.lookup_eq_none.mpr h.1), h.2⟩

theorem ramMv_of_something (h : ¬(from' ∉ m ∧ ramDir m from' = false)) :
    ramMv m from' to' = .ok (rekey (mvKey from' to') m) :=
  if_neg fun hno => h ⟨AList.lookup_eq_none.mp (Option.isNone_iff_eq_none.mp hno.1), hno.2⟩

theorem ramDir_same (h : Same m m') : ramDir m' p = ramDir m p := by
  rw [Bool.eq_iff_iff, ramDir_iff, ramDir_iff, h.lookup]
  refine or_congr_right (or_congr_right (exists_congr fun k => ?_))
  rw [AList.mem_of_perm h]

/-- A rename preserves the files, whatever the order of the map's entries, exactly when there is nothing to rename
or nothing is sent onto a file. -/
theorem movesFiles_iff :
    MovesFiles m from' to' ↔ (from' ∉ m ∧ ramDir m from' = false) ∨ Clear m from' to' := by
  have hnothing : ∀ m', Same m m' →
      ((from' ∉ m' ∧ ramDir m' from' = false) ↔ (from' ∉ m ∧ ramDir m from' = false)) := fun m' hsame => by
    rw [AList.mem_of_perm hsame, ramDir_same hsame]
  constructor
  · intro h
    by_cases hno : from' ∉ m ∧ ramDir m from' = false
    · exact .inl hno
    · refine .inr (clear_of_preserved fun m' hsame => h m' hsame _ (ramMv_of_something ?_))
      rw [hnothing m' hsame]
      exact hno
  · rintro (hno | hclear) m' hsame r hr
    · rw [ramMv_of_nothing ((hnothing m' hsame).mpr hno)] at hr
      cases hr
    · by_cases hno : from' ∉ m' ∧ ramDir m' from' = false
      · rw [ramMv_of_nothing hno] at hr
        cases hr
      · rw [ramMv_of_something hno] at hr
        cases hr
        exact (hclear.same hsame).preserved

/-- Neither path is `/`: what is at or below `from` is sent to its place. -/
theorem mvKey_eq_target (hfrom : from' ≠ root) (hto : to' ≠ root) (h : AtOrBelow from' k) :
    mvKey from' to' k = target from' to' k := by
  unfold target dirPrefix
  unfold AtOrBelow dirPrefix at h
  rw [if_neg hfrom] at h ⊢
  rw [if_neg hto]
  rcases h with rfl | ⟨r, rfl⟩
  · rw [if_pos rfl]
    exact if_pos rfl
  · have hne : slashed from' ++ r ≠ from' := fun heq => by
      have hlen := congrArg List.length heq
      rw [List.length_append, slashed, List.length_append, List.length_singleton] at hlen
      omega
    unfold mvKey
    rw [if_neg hne, if_neg hne, if_pos (isPrefixOf_iff.mpr ⟨r, rfl⟩)]
    exact (List.append_assoc to' ['/'] _).symm

/-- A rename to free places: no entry that stays is where a moved one goes. -/
theorem movesFiles_of_free (hfrom : from' ≠ root) (hto : to' ≠ root)
    (hfree : ∀ k ∈ m, Under from' k → ∀ k' ∈ m, ¬Under from' k' → k' ≠ target from' to' k) :
    MovesFiles m from' to' := by
  have hone : ∀ k ∈ m, ∀ k' ∈ m, mvKey from' to' k = mvKey from' to' k' → k = k' := by
    intro k hk k' hk' heq
    by_contra hne
    have hiff := under_iff_not_under hne heq
    by_cases hu : Under from' k
    · rw [mvKey_of_not_under (hiff.mp hu)] at heq
      exact hfree k hk hu k' hk' (hiff.mp hu)
        (heq.symm.trans (mvKey_eq_target hfrom hto (atOrBelow_of_under hu)))
    · have hu' : Under from' k' := by
        by_contra hu'
        exact hu (hiff.mpr hu')
      rw [mvKey_of_not_under hu] at heq
      exact hfree k' hk' hu' k hk hu (heq.trans (mvKey_eq_target hfrom hto (atOrBelow_of_under hu')))
  refine movesFiles_iff.mpr (.inr ⟨fun k s hk hu => ⟨⟨k, mem_of_lookup hk, mvKey_eq_target hfrom hto hu⟩, ?_⟩,
    fun k s hk hu _ c v hc heq => ?_, fun p p' hp => ?_⟩)
  · intro c v hc heq
    have hck := hone c (mem_of_lookup hc) k (mem_of_lookup hk) (heq.trans (mvKey_eq_target hfrom hto hu).symm)
    rw [hck, hk] at hc
    exact (Option.some.inj hc).symm
  · have hck := hone c (mem_of_lookup hc) k (mem_of_lookup hk) (heq.trans (mvKey_of_not_atOrBelow hu).symm)
    rw [hck, hk] at hc
    exact (Option.some.inj hc).symm
  · obtain ⟨k, hk, k', hk', hne, hkp, hkp'⟩ := hp
    exact absurd (hone k' hk' k (mem_of_mem_fileKeys hk) (hkp'.trans hkp.symm)) hne

/-- Two directories with a file of one name, and `mv /a /b`: in every order one of the two texts is lost. -/
def twoNotes : Files := (ramNew.insert "/a/x".toList (.text "one".toList)).insert "/b/x".toList (.text "two".toList)

theorem not_movesFiles_twoNotes :
    ¬∃ m', Same twoNotes m' ∧ ∀ r, ramMv m' "/a".toList "/b".toList = .ok r →
      Preserved m' r "/a".toList "/b".toList := by
  rintro ⟨m', hsame, hall⟩
  have hone : m'.lookup "/a/x".toList = some (.text "one".toList) := (hsame.lookup _).trans rfl
  have htwo : m'.lookup "/b/x".toList = some (.text "two".toList) := (hsame.lookup _).trans rfl
  have h := hall _ (ramMv_of_something fun h => ?_)
  swap
  · have hbelow : slashed "/a".toList <+: "/a/x".toList := ⟨"x".toList, rfl⟩
    have hdir := ramDir_iff.mpr (.inr (.inr ⟨_, mem_of_lookup hone, hbelow⟩))
    rw [h.2] at hdir
    cases hdir
  have hmoved := h.moved _ _ hone (.inr ⟨"x".toList, rfl⟩)
  have hother := h.others _ _ htwo (by decide) (by decide)
  have heq := hmoved.symm.trans hother
  cases heq

end Beeros.RamFs
