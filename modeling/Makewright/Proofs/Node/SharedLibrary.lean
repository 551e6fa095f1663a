import Makewright.Proofs.Node.Outputs
import Makewright.Proofs.Node.Reading
import Makewright.Proofs.References

/-!
# Versions of shared libraries

A version is written as one text or as up to three numbers. `Description.Declares` says which
version the attributes of a target stand for, and `Description.Offends` which of them is wrong and
how. No target does both (`Declares.not_offends`), and reading gives the version or reports an
attribute that offends (`Description.readVersion_ends`). So a library has a version exactly if its
attributes declare it, and otherwise one of them is to blame
(`Description.readSharedLibrary_versions`).

There is one exception. A whole number with too many digits has no text, and where it is the first of
these attributes that cannot be read (`Description.Overflows`), the error does not name it
(`Description.readSharedLibrary_of_long_number`).
-/

set_option autoImplicit false

namespace Makewright

variable {settings : Settings} {d : Description} {key given : String}

/-! ## Versions as texts -/

/-- The version as one text, its three numbers with dots between them. -/
def Version.text (v : Version) : String :=
  v.major.val ++ "." ++ v.minor.val ++ "." ++ v.release.val

namespace Version

theorem toList_text (v : Version) : v.text.toList =
    List.intercalate ['.'] [v.major.val.toList, v.minor.val.toList, v.release.val.toList] := by
  simp [text, List.intercalate_cons_cons]

/-- The numbers are what stands between the dots. -/
theorem splitOn_text (v : Version) : v.text.toList.splitOn '.' =
    [v.major.val.toList, v.minor.val.toList, v.release.val.toList] := by
  rw [toList_text, List.splitOn_intercalate '.' _ (List.cons_ne_nil _ _)]
  have hnumber : ∀ n : VersionNumber, '.' ∉ n.val.toList := SharedSpec.not_mem_number (by decide)
  simp only [List.forall_mem_cons]
  exact ⟨hnumber _, hnumber _, hnumber _, by simp⟩

end Version

namespace Description

theorem numberOf?_eq_some_iff {n : VersionNumber} :
    numberOf? given = some n ↔ given = n.val := by
  unfold numberOf?
  constructor
  · intro h
    split_ifs at h
    rw [← Option.some.inj h]
  · rintro rfl
    rw [dif_pos n.property]

/-- A text is read as the version that it is the text of. -/
theorem versionOf?_eq_some_iff {v : Version} : versionOf? given = some v ↔ given = v.text := by
  constructor
  · intro h
    unfold versionOf? at h
    split at h
    · next major minor release hsplit =>
      obtain ⟨m, hmajor, h⟩ := Option.bind_eq_some_iff.1 h
      obtain ⟨n, hminor, h⟩ := Option.bind_eq_some_iff.1 h
      obtain ⟨r, hrelease, h⟩ := Option.bind_eq_some_iff.1 h
      obtain rfl := Option.some.inj h
      apply String.toList_injective
      rw [Version.toList_text, ← numberOf?_eq_some_iff.1 hmajor, ← numberOf?_eq_some_iff.1 hminor,
        ← numberOf?_eq_some_iff.1 hrelease]
      simp only [String.toList_ofList]
      rw [← hsplit, List.intercalate_splitOn]
    · cases h
  · rintro rfl
    have hnumber : ∀ n : VersionNumber, numberOf? (String.ofList n.val.toList) = some n := by
      intro n
      rw [String.ofList_toList]
      exact numberOf?_eq_some_iff.2 rfl
    unfold versionOf?
    rw [Version.splitOn_text]
    simp only [hnumber]
    rfl

end Description

/-- Versions with one text are the same version. -/
theorem Version.text_injective : Function.Injective Version.text := by
  intro v w h
  have hv := Description.versionOf?_eq_some_iff.2 (rfl : v.text = v.text)
  rw [h] at hv
  exact Option.some.inj (hv.symm.trans (Description.versionOf?_eq_some_iff.2 rfl))

namespace Description

/-! ## What the attributes declare -/

/-- The attributes for the numbers of a version. -/
def partKeys : List String := ["major_version", "minor_version", "release_version"]

/-- The attributes that say which version a library has. -/
def versionKeys : List String := "version" :: partKeys

/-- The attribute gives the number, which is zero if the attribute is missing or blank. -/
def GivesOrZero (settings : Settings) (d : Description) (key : String) (n : VersionNumber) : Prop :=
  d.optional settings key = .ok (some n.val) ∨ d.optional settings key = .ok none ∧ n = zero

/-- The version that the attributes stand for, if there is one. -/
inductive Declares (settings : Settings) (d : Description) : Option Version → Prop
  | unversioned (hnone : ∀ key ∈ versionKeys, d.optional settings key = .ok none) :
    Declares settings d none
  | combined {v : Version} (hversion : d.optional settings "version" = .ok (some v.text))
    (hparts : ∀ key ∈ partKeys, d.optional settings key = .ok none) : Declares settings d (some v)
  | parts {v : Version} (hversion : d.optional settings "version" = .ok none)
    (hmajor : d.optional settings "major_version" = .ok (some v.major.val))
    (hminor : GivesOrZero settings d "minor_version" v.minor)
    (hrelease : GivesOrZero settings d "release_version" v.release) : Declares settings d (some v)

/-- The attribute is a whole number that is too long to be written. -/
def Unwritable (d : Description) (key : String) : Prop :=
  ∃ n : Int, d.valueOf key = .int n ∧ Numeral.leastTooLong ≤ n.natAbs

/-- The attributes of the version are read one after the other, and the first of them that cannot be
read is a whole number that is too long to be written. -/
def Overflows (settings : Settings) (d : Description) : Prop :=
  ∃ before key after, versionKeys = before ++ key :: after ∧
    (∀ earlier ∈ before, ∃ found, d.optional settings earlier = .ok found) ∧ d.Unwritable key

/-- The attribute is wrong in this way: it cannot be read as a text, it is given together with a
number, it is not what a version or a number is written as, or it needs a first number. -/
inductive Offends (settings : Settings) (d : Description) : String → ConfigFault → Prop
  | unread {key : String} {fault : ConfigFault} (hkey : key ∈ versionKeys)
    (hread : d.optional settings key = .error (d.fault key fault)) : Offends settings d key fault
  | combined {key version number : String} (hkey : key ∈ partKeys)
    (hversion : d.optional settings "version" = .ok (some version))
    (hnumber : d.optional settings key = .ok (some number)) :
    Offends settings d "version" .combinedWithParts
  | notVersion {text : String} (hversion : d.optional settings "version" = .ok (some text))
    (htext : ∀ v : Version, text ≠ v.text) : Offends settings d "version" (.notVersion text)
  | notUnsigned {key text : String} (hkey : key ∈ partKeys)
    (hnumber : d.optional settings key = .ok (some text))
    (htext : Text.isUnsigned text.toList = false) : Offends settings d key (.notUnsigned text)
  | requiresMajor {key text : String} (hkey : key ∈ ["minor_version", "release_version"])
    (hmajor : d.optional settings "major_version" = .ok none)
    (hnumber : d.optional settings key = .ok (some text)) : Offends settings d key .requiresMajor

theorem GivesOrZero.eq {n m : VersionNumber} (h : GivesOrZero settings d key n)
    (hother : GivesOrZero settings d key m) : n = m := by
  rcases h with h | ⟨h, hn⟩ <;> rcases hother with hother | ⟨hother, hm⟩ <;> rw [h] at hother
  · exact Subtype.ext (Option.some.inj (Except.ok.inj hother))
  · cases hother
  · cases hother
  · rw [hn, hm]

theorem givesOrZero_getD {found : Option String} {number : Option VersionNumber}
    (hread : d.optional settings key = .ok found) (hfound : found = number.map Subtype.val) :
    GivesOrZero settings d key (number.getD zero) := by
  subst hfound
  cases number with
  | none => exact .inr ⟨hread, rfl⟩
  | some n => exact .inl hread

/-- What is given is the number. -/
theorem GivesOrZero.eq_val {n : VersionNumber} (h : GivesOrZero settings d key n)
    (hgiven : d.optional settings key = .ok (some given)) : given = n.val := by
  rcases h with h | ⟨h, -⟩ <;> rw [hgiven] at h
  · exact Option.some.inj (Except.ok.inj h)
  · cases h

namespace Declares

variable {version : Option Version}

/-- The attributes declare at most one version. -/
theorem eq (h : d.Declares settings version) {other : Option Version}
    (hother : d.Declares settings other) : version = other := by
  have hfirst : "version" ∈ versionKeys := by decide
  have hmajorKey : "major_version" ∈ versionKeys := by decide
  cases h with
  | unversioned hnone =>
    cases hother with
    | unversioned _ => rfl
    | combined hversion _ => rw [hnone _ hfirst] at hversion; cases hversion
    | parts _ hmajor _ _ => rw [hnone _ hmajorKey] at hmajor; cases hmajor
  | combined hversion hparts =>
    cases hother with
    | unversioned hnone => rw [hnone _ hfirst] at hversion; cases hversion
    | combined hother _ =>
      rw [hversion] at hother
      rw [Version.text_injective (Option.some.inj (Except.ok.inj hother))]
    | parts hother _ _ _ => rw [hversion] at hother; cases hother
  | @parts v hversion hmajor hminor hrelease =>
    cases hother with
    | unversioned hnone => rw [hnone _ hmajorKey] at hmajor; cases hmajor
    | combined hother _ => rw [hversion] at hother; cases hother
    | @parts w _ hother hotherMinor hotherRelease =>
      rw [hmajor] at hother
      have hsame : v.major = w.major := Subtype.ext (Option.some.inj (Except.ok.inj hother))
      congr 1
      cases v
      cases w
      simp only [Version.mk.injEq]
      exact ⟨hsame, hminor.eq hotherMinor, hrelease.eq hotherRelease⟩

/-- Every attribute of the version can be read. -/
theorem exists_optional (h : d.Declares settings version) (hkey : key ∈ versionKeys) :
    ∃ found, d.optional settings key = .ok found := by
  have hgives : ∀ {key n}, GivesOrZero settings d key n →
      ∃ found, d.optional settings key = .ok found := by
    rintro key n (hn | ⟨hn, -⟩)
    · exact ⟨_, hn⟩
    · exact ⟨_, hn⟩
  cases h with
  | unversioned hnone => exact ⟨none, hnone key hkey⟩
  | combined hversion hparts =>
    rcases List.mem_cons.1 hkey with rfl | hkey
    · exact ⟨_, hversion⟩
    · exact ⟨none, hparts key hkey⟩
  | parts hversion hmajor hminor hrelease =>
    simp only [versionKeys, partKeys, List.mem_cons, List.not_mem_nil, or_false] at hkey
    rcases hkey with rfl | rfl | rfl | rfl
    · exact ⟨_, hversion⟩
    · exact ⟨_, hmajor⟩
    · exact hgives hminor
    · exact hgives hrelease

/-- Nothing is wrong with attributes that declare a version. -/
theorem not_offends (h : d.Declares settings version) (fault : ConfigFault) :
    ¬ d.Offends settings key fault := by
  intro hoffends
  cases hoffends with
  | unread hkey hread =>
    obtain ⟨found, hfound⟩ := h.exists_optional hkey
    rw [hfound] at hread
    cases hread
  | combined hkey hversion hnumber =>
    cases h with
    | unversioned hnone => rw [hnone _ (by decide)] at hversion; cases hversion
    | combined _ hparts => rw [hparts _ hkey] at hnumber; cases hnumber
    | parts hnone _ _ _ => rw [hnone] at hversion; cases hversion
  | notVersion hversion htext =>
    cases h with
    | unversioned hnone => rw [hnone _ (by decide)] at hversion; cases hversion
    | combined hother _ =>
      rw [hother] at hversion
      exact htext _ (Option.some.inj (Except.ok.inj hversion)).symm
    | parts hnone _ _ _ => rw [hnone] at hversion; cases hversion
  | @notUnsigned key number hkey hnumber htext =>
    cases h with
    | unversioned hnone =>
      rw [hnone _ (List.mem_cons_of_mem _ hkey)] at hnumber
      cases hnumber
    | combined _ hparts => rw [hparts _ hkey] at hnumber; cases hnumber
    | parts _ hmajor hminor hrelease =>
      have hdigits : ∃ n : VersionNumber, number = n.val := by
        simp only [partKeys, List.mem_cons, List.not_mem_nil, or_false] at hkey
        rcases hkey with rfl | rfl | rfl
        · rw [hmajor] at hnumber
          exact ⟨_, (Option.some.inj (Except.ok.inj hnumber)).symm⟩
        · exact ⟨_, hminor.eq_val hnumber⟩
        · exact ⟨_, hrelease.eq_val hnumber⟩
      obtain ⟨n, rfl⟩ := hdigits
      rw [n.property] at htext
      cases htext
  | requiresMajor hkey hmajor hnumber =>
    have hpart : key ∈ partKeys := List.mem_cons_of_mem _ hkey
    cases h with
    | unversioned hnone =>
      rw [hnone _ (List.mem_cons_of_mem _ hpart)] at hnumber
      cases hnumber
    | combined _ hparts => rw [hparts _ hpart] at hnumber; cases hnumber
    | parts _ hgiven _ _ => rw [hmajor] at hgiven; cases hgiven

end Declares

/-! ## Reading the version -/

/-- A number that is too long to be written is not reported under its key. -/
theorem optional_of_unwritable (h : d.Unwritable key) :
    d.optional settings key = .error (.scalar .tooLong) := by
  obtain ⟨n, hvalue, hlong⟩ := h
  have hraw := scalarText?_eq_error_iff.2 ⟨n, hvalue, hlong, rfl⟩
  unfold optional string?
  split
  · next hnull => rw [hnull] at hvalue; cases hvalue
  · rw [hraw]
    rfl

/-- Attributes that can all be read are none of them too long. -/
theorem not_overflows (h : ∀ key ∈ versionKeys, ∃ found, d.optional settings key = .ok found) :
    ¬ d.Overflows settings := by
  rintro ⟨before, key, after, hkeys, -, hlong⟩
  obtain ⟨found, hfound⟩ := h key (by rw [hkeys]; exact List.mem_append_right _ List.mem_cons_self)
  rw [optional_of_unwritable hlong] at hfound
  cases hfound

/-- An attribute that cannot be read as a text is reported under its key, unless it is a number that
is too long to be written. -/
theorem optional_ends (settings : Settings) (d : Description) (key : String) :
    Ends (fun _ => True)
      (fun e => (∃ fault, e = d.fault key fault) ∨ d.Unwritable key ∧ e = .scalar .tooLong)
      (d.optional settings key) := by
  cases hraw : scalarText? (d.valueOf key) with
  | none =>
    unfold optional string?
    split
    · trivial
    · rw [hraw]
      exact .inl ⟨_, rfl⟩
  | some raw =>
    cases raw with
    | error e =>
      obtain ⟨n, hvalue, hlong, -⟩ := scalarText?_eq_error_iff.1 hraw
      have hunwritable : d.Unwritable key := ⟨n, hvalue, hlong⟩
      rw [optional_of_unwritable hunwritable]
      exact .inr ⟨hunwritable, rfl⟩
    | ok text =>
      rw [optional_of_scalarText? hraw]
      apply Ends.map
      exact (resolve_ends settings d key text).mono (fun _ _ => trivial) fun _ => Or.inl

/-- The error reports an attribute of the version that offends, or the first of them that cannot be
read is too long. -/
def Blames (settings : Settings) (d : Description) (e : BuildError) : Prop :=
  (∃ key ∈ versionKeys, ∃ fault, d.Offends settings key fault ∧ e = d.fault key fault) ∨
    d.Overflows settings ∧ e = .scalar .tooLong

theorem Offends.blames {fault : ConfigFault} (hkey : key ∈ versionKeys)
    (h : d.Offends settings key fault) : d.Blames settings (d.fault key fault) :=
  .inl ⟨key, hkey, fault, h, rfl⟩

/-- Attributes of the version are read one after the other, and the first that cannot be read is
reported. -/
theorem optional_ends_blaming (before after : List String)
    (hkeys : versionKeys = before ++ key :: after)
    (hbefore : ∀ earlier ∈ before, ∃ found, d.optional settings earlier = .ok found) :
    Ends (fun found => d.optional settings key = .ok found) (d.Blames settings)
      (d.optional settings key) := by
  have hends := optional_ends settings d key
  have hkey : key ∈ versionKeys := by
    rw [hkeys]
    exact List.mem_append_right _ List.mem_cons_self
  cases hread : d.optional settings key with
  | ok found => rfl
  | error e =>
    rcases hends.of_eq_error hread with ⟨fault, rfl⟩ | ⟨hlong, rfl⟩
    · exact Offends.blames hkey (.unread hkey hread)
    · exact .inr ⟨⟨before, key, after, hkeys, hbefore, hlong⟩, rfl⟩

/-- A number is a row of digits, or it is reported. -/
theorem checkNumber_ends (hkey : key ∈ partKeys) {found : Option String}
    (hread : d.optional settings key = .ok found) :
    Ends (fun number => found = number.map Subtype.val) (d.Blames settings)
      (d.checkNumber key found) := by
  cases found with
  | none => rfl
  | some number =>
    simp only [checkNumber]
    cases hnumber : numberOf? number with
    | some n => exact congrArg some (numberOf?_eq_some_iff.1 hnumber)
    | none =>
      have htext : Text.isUnsigned number.toList = false := by
        simpa [numberOf?] using hnumber
      exact Offends.blames (List.mem_cons_of_mem _ hkey) (.notUnsigned hkey hread htext)

section Parts

variable {major minor release : Option String}
  (hmajor : d.optional settings "major_version" = .ok major)
  (hminor : d.optional settings "minor_version" = .ok minor)
  (hrelease : d.optional settings "release_version" = .ok release)

include hmajor hminor hrelease

/-- If the attributes for the numbers are not all missing, one of them is given. -/
theorem exists_part (hsome : ¬ (major = none ∧ minor = none ∧ release = none)) :
    ∃ key ∈ partKeys, ∃ number, d.optional settings key = .ok (some number) := by
  cases major with
  | some number => exact ⟨"major_version", by decide, number, hmajor⟩
  | none =>
    cases minor with
    | some number => exact ⟨"minor_version", by decide, number, hminor⟩
    | none =>
      cases release with
      | some number => exact ⟨"release_version", by decide, number, hrelease⟩
      | none => exact absurd ⟨rfl, rfl, rfl⟩ hsome

/-- A version that is written as one text has to be written as a version, and without numbers beside
it. -/
theorem combined_ends {text : String} (hversion : d.optional settings "version" = .ok (some text)) :
    Ends (d.Declares settings) (d.Blames settings)
      (if major.isSome || minor.isSome || release.isSome then
        .error (d.fault "version" .combinedWithParts)
      else
        match versionOf? text with
        | some v => .ok (some v)
        | none => .error (d.fault "version" (.notVersion text))) := by
  by_cases hnone : major = none ∧ minor = none ∧ release = none
  · obtain ⟨rfl, rfl, rfl⟩ := hnone
    have hparts : ∀ key ∈ partKeys, d.optional settings key = .ok none := by
      simp only [partKeys, List.forall_mem_cons]
      exact ⟨hmajor, hminor, hrelease, by simp⟩
    cases hv : versionOf? text with
    | some v =>
      rw [versionOf?_eq_some_iff.1 hv] at hversion
      simpa [hv] using Declares.combined hversion hparts
    | none =>
      have htext : ∀ v : Version, text ≠ v.text := by
        intro v hv'
        rw [versionOf?_eq_some_iff.2 hv'] at hv
        cases hv
      have hblames : d.Blames settings (d.fault "version" (.notVersion text)) :=
        Offends.blames List.mem_cons_self (.notVersion hversion htext)
      simpa [hv] using hblames
  · obtain ⟨key, hkey, number, hnumber⟩ := exists_part hmajor hminor hrelease hnone
    have hsome : (major.isSome || minor.isSome || release.isSome) = true := by
      simpa [Option.isSome_iff_ne_none, or_assoc, imp_iff_not_or] using hnone
    simp only [hsome, if_true]
    exact Offends.blames List.mem_cons_self (.combined hkey hversion hnumber)

/-- Numbers stand for a version if the first one is given, and the others need it. -/
theorem parts_ends (hversion : d.optional settings "version" = .ok none)
    {first second third : Option VersionNumber} :
    major = first.map Subtype.val → minor = second.map Subtype.val →
    release = third.map Subtype.val → Ends (d.Declares settings) (d.Blames settings)
      (match first with
      | some m => .ok (some ⟨m, second.getD zero, third.getD zero⟩)
      | none =>
        if second.isSome then .error (d.fault "minor_version" .requiresMajor)
        else if third.isSome then .error (d.fault "release_version" .requiresMajor)
        else .ok none) := by
  intro hfirst hsecond hthird
  cases first with
  | some m =>
    subst hfirst
    exact .parts hversion hmajor (givesOrZero_getD hminor hsecond) (givesOrZero_getD hrelease hthird)
  | none =>
    subst hfirst hsecond hthird
    cases second with
    | some n =>
      exact Offends.blames (by decide) (.requiresMajor (by decide) hmajor hminor)
    | none =>
      cases third with
      | some n =>
        exact Offends.blames (by decide) (.requiresMajor (by decide) hmajor hrelease)
      | none =>
        refine .unversioned ?_
        simp only [versionKeys, partKeys, List.forall_mem_cons]
        exact ⟨hversion, hmajor, hminor, hrelease, by simp⟩

end Parts

/-- The version that is read is the one that the attributes declare, and an error reports one of
them that offends, or one of them is too long to be written. -/
theorem readVersion_ends (settings : Settings) (d : Description) :
    Ends (d.Declares settings) (d.Blames settings) (d.readVersion settings) := by
  have hmajorKey : "major_version" ∈ partKeys := by decide
  have hminorKey : "minor_version" ∈ partKeys := by decide
  have hreleaseKey : "release_version" ∈ partKeys := by decide
  unfold readVersion
  apply (optional_ends_blaming [] partKeys rfl nofun).andThen
  intro combined hversion
  apply (optional_ends_blaming ["version"] ["minor_version", "release_version"] rfl ?_).andThen
  intro major hmajor
  apply (optional_ends_blaming ["version", "major_version"] ["release_version"] rfl ?_).andThen
  intro minor hminor
  apply (optional_ends_blaming ["version", "major_version", "minor_version"] [] rfl ?_).andThen
  intro release hrelease
  -- all four attributes can be read
  · cases combined with
    | some version => exact combined_ends hmajor hminor hrelease hversion
    | none =>
      apply (checkNumber_ends hmajorKey hmajor).andThen
      intro first hfirst
      apply (checkNumber_ends hminorKey hminor).andThen
      intro second hsecond
      apply (checkNumber_ends hreleaseKey hrelease).andThen
      intro third hthird
      exact parts_ends hmajor hminor hrelease hversion hfirst hsecond hthird
  · simp [hversion, hmajor, hminor]
  · simp [hversion, hmajor]
  · simp [hversion]

/-- Reading gives exactly the version that the attributes declare. -/
theorem readVersion_eq_ok_iff {version : Option Version} :
    d.readVersion settings = .ok version ↔ d.Declares settings version := by
  have hends := readVersion_ends settings d
  constructor
  · exact hends.of_eq_ok
  · intro h
    cases hread : d.readVersion settings with
    | ok found => rw [h.eq (hends.of_eq_ok hread)]
    | error e =>
      rcases hends.of_eq_error hread with ⟨key, -, fault, hoffends, -⟩ | ⟨hoverflows, -⟩
      · exact absurd hoffends (h.not_offends fault)
      · exact absurd hoverflows (not_overflows fun _ => h.exists_optional)

/-- An error in reading the attributes of the version is the error of reading the version. -/
theorem readVersion_of_mapM {e : BuildError}
    (h : versionKeys.mapM (d.optional settings) = .error e) :
    d.readVersion settings = .error e := by
  unfold readVersion
  simp only [versionKeys, partKeys, List.mapM_cons] at h
  cases hversion : d.optional settings "version" with
  | error fault =>
    rw [hversion] at h
    cases h
    rfl
  | ok combined =>
    cases hmajor : d.optional settings "major_version" with
    | error fault =>
      rw [hversion, hmajor] at h
      cases h
      rfl
    | ok major =>
      cases hminor : d.optional settings "minor_version" with
      | error fault =>
        rw [hversion, hmajor, hminor] at h
        cases h
        rfl
      | ok minor =>
        cases hrelease : d.optional settings "release_version" with
        | error fault =>
          rw [hversion, hmajor, hminor, hrelease] at h
          cases h
          rfl
        | ok release =>
          rw [hversion, hmajor, hminor, hrelease] at h
          cases h

theorem readVersion_of_overflows (h : d.Overflows settings) :
    d.readVersion settings = .error (.scalar .tooLong) := by
  obtain ⟨before, key, after, hkeys, hbefore, hlong⟩ := h
  apply readVersion_of_mapM
  rw [hkeys]
  exact mapM_eq_error hbefore (optional_of_unwritable hlong)

/-- If everything else of a shared library can be read, it is read with a version, or without one,
exactly if its attributes declare that, and if they declare neither, one of them offends and is
reported; none offends otherwise. The exception is a number with too many digits: if it is the first
of these attributes that cannot be read, there is no library, and the attribute is not reported. A
library with a version has three names, each of a file of its own. -/
theorem readSharedLibrary_versions (settings : Settings) (d : Description)
    {dependencies : Dependencies d.target} {c : Compilation} {ldflags : List String}
    (hcommon : d.readCommon settings sharedAttributes = .ok dependencies)
    (hcompilation : d.readCompilation settings = .ok (c, ldflags)) :
    (∀ version stripDir symbols, d.readStripDir settings = .ok stripDir →
      d.readExportedSymbols settings = .ok symbols →
        (d.readSharedLibrary settings = .ok ⟨d.target, dependencies.items, ldflags,
            .sharedLibrary c ⟨version, stripDir, symbols⟩, dependencies.irreflexive⟩ ↔
          d.Declares settings version)) ∧
    ((∀ version, ¬ d.Declares settings version) → ¬ d.Overflows settings → ∃ key ∈ versionKeys,
      ∃ fault, d.Offends settings key fault ∧
        d.readSharedLibrary settings = .error (d.fault key fault)) ∧
    (d.Overflows settings → (∀ version, ¬ d.Declares settings version) ∧
      d.readSharedLibrary settings = .error (.scalar .tooLong)) ∧
    (∀ version, d.Declares settings version → ∀ key fault, ¬ d.Offends settings key fault) ∧
    ∀ node, d.readSharedLibrary settings = .ok node →
      ∃ spec, node.target = d.target ∧ node.body = .sharedLibrary c spec ∧
        d.Declares settings spec.version ∧ (spec.version.isSome → ∀ dirs,
          [spec.linkedName d.target, spec.soname d.target, SharedSpec.baseName d.target].Nodup ∧
          spec.outputs dirs d.target = [spec.linkedName d.target, spec.soname d.target,
            SharedSpec.baseName d.target].map (d.target.generated dirs.pkgfileDir) ∧
          ((spec.outputs dirs d.target).map Resource.fullPath).Nodup) := by
  have hfails : ∀ e, d.readVersion settings = .error e → d.readSharedLibrary settings = .error e := by
    intro e hread
    unfold readSharedLibrary
    rw [hcommon, hcompilation, hread]
    rfl
  refine ⟨?accepted, ?refused, ?overflow, fun version h key fault => h.not_offends fault, ?names⟩
  case accepted =>
    intro version stripDir symbols hstrip hsymbols
    rw [readSharedLibrary_eq_ok_iff, ← readVersion_eq_ok_iff]
    constructor
    · rintro ⟨_, _, _, other, _, _, -, -, hversion, -, -, hnode⟩
      obtain ⟨-, hspec⟩ := Body.sharedLibrary.inj (congrArg Node.body hnode)
      obtain ⟨rfl, -, -⟩ := SharedSpec.mk.inj hspec
      exact hversion
    · intro hversion
      exact ⟨dependencies, c, ldflags, version, stripDir, symbols, hcommon, hcompilation, hversion,
        hstrip, hsymbols, rfl⟩
  case refused =>
    intro hnone hwritable
    cases hread : d.readVersion settings with
    | ok version => exact absurd (readVersion_eq_ok_iff.1 hread) (hnone version)
    | error e =>
      rcases (readVersion_ends settings d).of_eq_error hread with
        ⟨key, hkey, fault, hoffends, rfl⟩ | ⟨hoverflows, -⟩
      · exact ⟨key, hkey, fault, hoffends, hfails _ hread⟩
      · exact absurd hoverflows hwritable
  case overflow =>
    intro hoverflows
    refine ⟨fun version hversion => ?_, hfails _ (readVersion_of_overflows hoverflows)⟩
    exact not_overflows (fun _ => hversion.exists_optional) hoverflows
  case names =>
    intro node hnode
    obtain ⟨_, other, _, version, stripDir, symbols, -, hother, hversion, -, -, rfl⟩ :=
      readSharedLibrary_eq_ok_iff.1 hnode
    rw [hcompilation] at hother
    cases hother
    refine ⟨⟨version, stripDir, symbols⟩, rfl, rfl, readVersion_eq_ok_iff.1 hversion, ?_⟩
    intro hsome dirs
    obtain ⟨v, hv⟩ := Option.isSome_iff_exists.1 hsome
    have hnames := SharedSpec.names_of_version hv d.target
    have hnodup := SharedSpec.nodup_names d.target ⟨version, stripDir, symbols⟩
    refine ⟨hnames ▸ hnodup, ?_, SharedSpec.nodup_outputs dirs _ _⟩
    rw [SharedSpec.outputs_eq, hnames]

/-- A shared library without sources, with these attributes. -/
def libraryWith (attributes : List (String × Value)) : Description :=
  ⟨"cc_shared_library", ⟨"third_party/zlib", "z"⟩,
    attributes.map fun entry => (.string entry.1, entry.2), none⟩

/-- A first number alone stands for a version, and a second number alone is reported. -/
theorem readSharedLibrary_versions_sample :
    (∃ node spec, (libraryWith [("major_version", .int 13)]).readSharedLibrary plainSettings =
        .ok node ∧ node.body = .sharedLibrary ⟨.empty, .empty, [], []⟩ spec ∧
        spec.version.map Version.text = some "13.0.0" ∧
        ["libz.so.13.0.0", "libz.so.13", "libz.so"].Nodup) ∧
      ∃ key ∈ versionKeys, ∃ fault, (libraryWith [("minor_version", .int 2)]).Offends plainSettings
          key fault ∧ (libraryWith [("minor_version", .int 2)]).readSharedLibrary plainSettings =
        .error ((libraryWith [("minor_version", .int 2)]).fault key fault) := by
  have hmajor : (libraryWith [("major_version", .int 13)]).optional plainSettings "major_version" =
      .ok (some "13") := eq_ok_of_toOption (by decide +kernel)
  have hminor : (libraryWith [("minor_version", .int 2)]).optional plainSettings "minor_version" =
      .ok (some "2") := eq_ok_of_toOption (by decide +kernel)
  constructor
  · have hcommon : (libraryWith [("major_version", .int 13)]).readCommon plainSettings
        sharedAttributes = .ok .none := rfl
    obtain ⟨haccepted, -, -, -, hnames⟩ := readSharedLibrary_versions _ _ hcommon rfl
    have hnode := (haccepted (some ⟨⟨"13", rfl⟩, zero, zero⟩) _ _ rfl rfl).2
      (.parts rfl hmajor (.inr ⟨rfl, rfl⟩) (.inr ⟨rfl, rfl⟩))
    obtain ⟨spec, -, hbody, -, hdistinct⟩ := hnames _ hnode
    cases hbody
    exact ⟨_, _, hnode, rfl, rfl, (hdistinct rfl plainSettings.dirs).1⟩
  · have hcommon : (libraryWith [("minor_version", .int 2)]).readCommon plainSettings
        sharedAttributes = .ok .none := rfl
    obtain ⟨-, hrefused, -, -, -⟩ := readSharedLibrary_versions _ _ hcommon rfl
    have hoffends : (libraryWith [("minor_version", .int 2)]).Offends plainSettings "minor_version"
        .requiresMajor := .requiresMajor (by decide) rfl hminor
    apply hrefused fun version h => h.not_offends _ hoffends
    apply not_overflows
    simp only [versionKeys, partKeys, List.forall_mem_cons]
    exact ⟨⟨_, rfl⟩, ⟨_, rfl⟩, ⟨_, hminor⟩, ⟨_, rfl⟩, nofun⟩

/-- A first number that is one digit too long stands neither for a library nor for an error under
the key of an attribute. -/
theorem readSharedLibrary_of_long_number :
    (libraryWith [("major_version", .int Numeral.leastTooLong)]).readSharedLibrary
        plainSettings = .error (.scalar .tooLong) ∧
      ∀ key fault, .scalar .tooLong ≠
        (libraryWith [("major_version", .int Numeral.leastTooLong)]).fault key fault := by
  refine ⟨?_, nofun⟩
  have hoverflows : (libraryWith [("major_version", .int Numeral.leastTooLong)]).Overflows
      plainSettings := by
    refine ⟨["version"], "major_version", ["minor_version", "release_version"], rfl, ?_, _, rfl, ?_⟩
    · exact List.forall_mem_singleton.2 ⟨none, rfl⟩
    · exact (Int.natAbs_natCast Numeral.leastTooLong).ge
  unfold readSharedLibrary
  rw [readVersion_of_overflows hoverflows]
  rfl

end Description

end Makewright
