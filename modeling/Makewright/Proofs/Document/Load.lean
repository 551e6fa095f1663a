import Makewright.Document.File
import Makewright.Proofs.Document.Json
import Makewright.Proofs.Document.Toml
import Makewright.Proofs.Document.Yaml.Values

/-!
# Loading a document

Loading a text in a known format gives the entries of the map that the text holds or, for the most
part, an error that names the file. This is so whatever reader is taken for YAML (`load_outcome`).
The exceptions are faults that pass through as they are: a whole number with too many digits in TOML
and JSON, and whatever error of its own the reader for YAML ends with (`PassesOn`).

The reader of this library ends with such errors for a text with a well-formed part that names no
value (`Unreadable`, `read_unreadable`): too many digits, an escape for a code without a character,
or a scalar whose text does not go with its tag, such as a date with month 13 (`load_month_13`).
-/

set_option autoImplicit false

namespace Makewright.Document

/-! ## Any reader for YAML -/

/-- Reading the text ends with a fault that says neither which file it is nor that the text does not
follow its format. -/
inductive PassesOn (yaml : YamlReader) (text : String) : Format → ScalarFault → Prop
  | digits {format : Format} {count : Nat} (hformat : format ≠ .yaml)
    (hmany : Numeral.mostDigits < count) (h : HasDigits count text.toList) :
    PassesOn yaml text format (.tooManyDigits count)
  | yaml {fault : ScalarFault} (h : yaml (plainLineEnds text.toList) = .error (.scalar fault)) :
    PassesOn yaml text .yaml fault

variable {yaml : YamlReader} {format : Format} {text path : String}

theorem passesOn_of_stops {fault : ScalarFault} (hformat : format ≠ .yaml)
    (h : Stops text.toList (.scalar fault)) : PassesOn yaml text format fault := by
  cases h with
  | digits hmany h => exact .digits hformat hmany h

/-- A fault other than that the text does not follow its format is passed on. -/
theorem readWith_passesOn {fault : ScalarFault}
    (h : readWith yaml format text = .error (.scalar fault)) :
    PassesOn yaml text format fault := by
  cases format with
  | toml => exact passesOn_of_stops nofun (Toml.read_stops h)
  | json => exact passesOn_of_stops nofun (plainLineEnds_dropsReturns.stops (Json.read_stops h))
  | yaml => exact .yaml h

/-- What may come of a text in a format that stands at a path: the entries of its map, none when it
holds no value, an error that names the path, or a fault that is passed on. -/
inductive Outcome (yaml : YamlReader) (path : String) (format : Format) (text : String) :
    Except BuildError (List (Value × Value)) → Prop
  | map {found : List (Value × Value)} (h : readWith yaml format text = .ok (.map found)) :
    Outcome yaml path format text (.ok found)
  | empty (h : readWith yaml format text = .ok .null) : Outcome yaml path format text (.ok [])
  | notMapping {v : Value} (h : readWith yaml format text = .ok v)
    (hmap : ∀ found, v ≠ .map found) (hnull : v ≠ .null) :
    Outcome yaml path format text (.error (.plain (.notMapping path)))
  | unparsable (h : readWith yaml format text = .error .malformed) :
    Outcome yaml path format text (.error (.plain (.unparsable path format)))
  | passedOn {fault : ScalarFault} (h : readWith yaml format text = .error (.scalar fault))
    (hfault : PassesOn yaml text format fault) :
    Outcome yaml path format text (.error (.scalar fault))

theorem entriesWith_outcome (yaml : YamlReader) (path : String) (format : Format) (text : String) :
    Outcome yaml path format text (entriesWith yaml path format text) := by
  unfold entriesWith
  split
  · next h => exact .unparsable h
  · next h => exact .passedOn h (readWith_passesOn h)
  · next h => exact .empty h
  · next h => exact .map h
  · next hnull hmap h => exact .notMapping h hmap hnull

/-- Whatever reader is taken for YAML, loading the text of a file with a known extension gives the
entries that it stands for, or an error that names the file, unless the reader of its format ends
with a fault of another kind: too many digits in TOML and JSON, any error of its own in YAML. That
fault is passed on. -/
theorem load_outcome (yaml : YamlReader) {files : FileTree} {l : Location}
    (hformat : formats.lookup (Text.lower l.extension) = some format)
    (hread : files.read l = .ok text) :
    Outcome yaml l.render format text (loadWith yaml files l) := by
  have hload : loadWith yaml files l = entriesWith yaml l.render format text := by
    unfold loadWith
    dsimp only
    rw [hformat, hread]
    rfl
  rw [hload]
  exact entriesWith_outcome yaml l.render format text

/-! ## The reader of this library -/

/-- A well-formed part of a YAML text names no value. -/
inductive Unreadable (text : String) : ScalarFault → Prop
  | digits {count : Nat} (hmany : Numeral.mostDigits < count) (h : HasDigits count text.toList) :
    Unreadable text (.tooManyDigits count)
  | escape {code : Nat} {fault : ScalarFault} (h : Yaml.HasEscape code text.toList)
    (hcode : Yaml.charsOf code = .error (.scalar fault)) : Unreadable text fault
  | scalar {whole part : Yaml.Tree} {fault : ScalarFault}
    (hwhole : Yaml.treeOf (plainLineEnds text.toList) = .ok (some whole))
    (hpart : Yaml.Part part whole) (h : Yaml.scalarOf part = .error (.scalar fault)) :
    Unreadable text fault

/-- Reading fails on its own only because the text is no YAML; all other faults come from a part of
the text. -/
theorem read_unreadable {fault : ScalarFault}
    (h : Yaml.read (plainLineEnds text.toList) = .error (.scalar fault)) :
    Unreadable text fault := by
  rcases Yaml.read_error h with hhalts | ⟨whole, hwhole, hrefuses⟩
  · cases hhalts.of_plainLineEnds with
    | stops hstops =>
      cases hstops with
      | digits hmany hdigits => exact .digits hmany hdigits
    | escape h he => exact .escape h he
  · cases hrefuses with
    | scalar hpart h => exact .scalar hwhole hpart h

/-- A disk with one document. -/
def single (name text : String) : FileTree := ⟨[([name], .file text)]⟩

/-- The fault of a scalar that an outcome ends with. -/
def scalarFault? {α : Type} : Except BuildError α → Option ScalarFault
  | .error (.scalar fault) => some fault
  | _ => none

theorem eq_error_of_scalarFault? {α : Type} {x : Except BuildError α} {fault : ScalarFault}
    (h : scalarFault? x = some fault) : x = .error (.scalar fault) := by
  unfold scalarFault? at h
  split at h
  · obtain rfl := Option.some.inj h
    rfl
  · cases h

/-- The error for a YAML date with month 13 does not name the file and says nothing about its
format. -/
theorem load_month_13 : load (single "a.yaml" "a: 2001-13-01\n") ⟨1, ["a.yaml"]⟩ =
    .error (.scalar (.calendar .month)) :=
  eq_error_of_scalarFault? (by decide +kernel)

/-- The date is the part of that text that names no value. -/
theorem load_outcome_month_13 :
    formats.lookup (Text.lower (Location.extension ⟨1, ["a.yaml"]⟩)) = some .yaml ∧
    (single "a.yaml" "a: 2001-13-01\n").read ⟨1, ["a.yaml"]⟩ = .ok "a: 2001-13-01\n" ∧
    PassesOn Yaml.read "a: 2001-13-01\n" .yaml (.calendar .month) := by
  have hformat : formats.lookup (Text.lower (Location.extension ⟨1, ["a.yaml"]⟩)) = some .yaml := by
    decide +kernel
  have hread : (single "a.yaml" "a: 2001-13-01\n").read ⟨1, ["a.yaml"]⟩ = .ok "a: 2001-13-01\n" :=
    eq_ok_of_toOption (by decide +kernel)
  have hload : loadWith Yaml.read (single "a.yaml" "a: 2001-13-01\n") ⟨1, ["a.yaml"]⟩ =
      .error (.scalar (.calendar .month)) := eq_error_of_scalarFault? (by decide +kernel)
  have houtcome := load_outcome Yaml.read hformat hread
  rw [hload] at houtcome
  refine ⟨hformat, hread, ?_⟩
  cases houtcome with
  | passedOn _ hfault => exact hfault

end Makewright.Document
