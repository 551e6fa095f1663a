import Makewright.Proofs.Outcome
import Makewright.Proofs.Text
import Makewright.Settings

/-!
# What a configuration document may hold

The schema lists the sections of a configuration document with their keys, and for every key the
kind of value that it requires. What a value of a kind means is a relation of its own
(`Kind.Means`), so it can be said what the settings are that a document conveys (`Conveys`) and which
of its keys offend (`Offends`).

Reading follows the schema as far as the keys of the schema go (`ofMap_follows`): it gives the
settings that the document conveys, and an error names a key that offends. Keys that the schema does
not define are not looked at: entries under them can be left out, and they are the only entries that
can. So a document with a misspelt key is accepted, though it does not fit the schema
(`ofMap_accepts_misspelt`).
-/

set_option autoImplicit false

namespace Makewright

theorem LogLevel.ofName?_eq_some_iff {s : String} {level : LogLevel} :
    LogLevel.ofName? s = some level ↔ s = level.name := by
  constructor
  · intro h
    exact (by simpa using List.find?_some h : level.name = s).symm
  · rintro rfl
    cases level <;> decide

theorem LogLevel.name_injective {a b : LogLevel} (h : a.name = b.name) : a = b := by
  have ha := LogLevel.ofName?_eq_some_iff.2 (rfl : a.name = a.name)
  rw [h, LogLevel.ofName?_eq_some_iff.2 rfl] at ha
  exact (Option.some.inj ha).symm

theorem Value.isText_iff {v : Value} {key : String} : v.isText key = true ↔ v = .string key := by
  cases v <;> simp [Value.isText]

theorem Value.find?_cons (entry : Value × Value) (rest : List (Value × Value)) (key : String) :
    Value.find? (entry :: rest) key =
      if entry.1.isText key then some entry.2 else Value.find? rest key := by
  unfold Value.find?
  rw [List.find?_cons]
  cases entry.1.isText key <;> rfl

namespace Settings

variable {data entries : List (Value × Value)} {name key : String}

/-! ## The schema -/

/-- The kinds of values that keys require. A text has a default, which stands in for a missing
key. -/
inductive Kind where
  | text (default : String)
  | level (default : LogLevel)
  | directory (default : String)
  | optionalText
  | texts
  deriving DecidableEq

/-- What is read for a key. -/
inductive Setting where
  | text (s : String)
  | level (level : LogLevel)
  | optional (s : Option String)
  | texts (items : List String)
  deriving DecidableEq

/-- The keys of the section for logging and the output. -/
def globalKeys : List (String × Kind) :=
  [("log_level", .level .warning), ("log_file", .optionalText), ("output", .text "Makefile")]

/-- The keys of the section for directories. -/
def pathKeys : List (String × Kind) :=
  [("object_dir", .directory ".gen-obj"), ("genfile_dir", .directory ".gen-files"),
   ("source_dir", .directory ".gen-src"), ("pkgfile_dir", .directory ".gen-pkg")]

/-- The keys of the section for compilers and flags. -/
def toolchainKeys : List (String × Kind) :=
  [("cc", .text "cc"), ("cxx", .text "c++"), ("cflags", .texts), ("cxxflags", .texts),
   ("ldflags", .texts), ("prefix", .text "/usr/local")]

/-- The sections of a document, each with its keys. -/
def schema : List (String × List (String × Kind)) :=
  [("global", globalKeys), ("paths", pathKeys), ("toolchain", toolchainKeys)]

/-- A path without the slashes at its end. -/
def withoutSlashes (path : String) : String :=
  String.ofList (Text.dropRight (· == '/') path.toList)

/-- What the value under a key of the kind means, where there is one, and what it means that there
is none. -/
inductive Kind.Means : Kind → Option Value → Setting → Prop
  | noText {default : String} : Means (.text default) none (.text default)
  | text {default s : String} (h : Text.isAllBlank s = false) :
    Means (.text default) (some (.string s)) (.text (Text.trim s))
  | noLevel {default : LogLevel} : Means (.level default) none (.level default)
  | level {default level : LogLevel} {s : String} (h : Text.lower (Text.trim s) = level.name) :
    Means (.level default) (some (.string s)) (.level level)
  | noDirectory {default : String} : Means (.directory default) none (.text default)
  | directory {default s : String} (h : Text.isAllBlank s = false)
    (hrelative : Path.isAbsolute (withoutSlashes (Text.trim s)) = false)
    (hdown : Path.startsUpward (withoutSlashes (Text.trim s)) = false) :
    Means (.directory default) (some (.string s)) (.text (withoutSlashes (Text.trim s)))
  | noOptional : Means .optionalText none (.optional none)
  | nullOptional : Means .optionalText (some .null) (.optional none)
  | emptyOptional : Means .optionalText (some (.string "")) (.optional none)
  | optional {s : String} (h : s ≠ "") : Means .optionalText (some (.string s)) (.optional (some s))
  | noTexts : Means .texts none (.texts [])
  | nullTexts : Means .texts (some .null) (.texts [])
  | oneText {v : Value} {s : String} (h : TextList.textOf? v = some s) :
    Means .texts (some v) (.texts (TextList.member? s).toList)
  | texts {v : Value} {items : List Value} {members : List String}
    (hv : v = .list items ∨ v = .tuple items)
    (h : List.Forall₂ (fun item s => TextList.textOf? item = some s) items members) :
    Means .texts (some v) (.texts (members.filterMap TextList.member?))

/-- The value is of the kind. -/
def Kind.Accepts (kind : Kind) (v : Value) : Prop :=
  ∃ setting, kind.Means (some v) setting

/-- The value stands for a table with the entries; no value at all is an empty table. -/
inductive IsTable : Option Value → List (Value × Value) → Prop
  | missing : IsTable none []
  | null : IsTable (some .null) []
  | map (entries : List (Value × Value)) : IsTable (some (.map entries)) entries

/-- A section of the schema: its name and its keys. -/
abbrev Part := String × List (String × Kind)

/-- The settings are what the document says for the keys of the section. -/
def ConveysSection (data : List (Value × Value)) (part : Part) (settings : List Setting) : Prop :=
  ∃ entries, IsTable (Value.find? data part.1) entries ∧
    List.Forall₂ (fun key setting => key.2.Means (Value.find? entries key.1) setting) part.2 settings

/-- What is read for the keys of each section, in the order of the schema. -/
def values (s : Settings) : List (List Setting) :=
  [[.level s.globals.logLevel, .optional s.globals.logFile, .text s.globals.output],
   [.text s.dirs.objectDir, .text s.dirs.genfileDir, .text s.dirs.sourceDir,
     .text s.dirs.pkgfileDir],
   [.text s.toolchain.cc, .text s.toolchain.cxx, .texts s.toolchain.cflags,
     .texts s.toolchain.cxxflags, .texts s.toolchain.ldflags, .text s.toolchain.installRoot]]

/-- The document says exactly these settings. -/
def Conveys (data : List (Value × Value)) (s : Settings) : Prop :=
  List.Forall₂ (ConveysSection data) schema s.values

/-- The name is that of a section that is no table, or that of a key of a section whose value is not
of the kind that the key requires. -/
inductive Offends (data : List (Value × Value)) : String → Prop
  | table {part : Part} (hpart : part ∈ schema)
    (h : ∀ entries, ¬ IsTable (Value.find? data part.1) entries) : Offends data part.1
  | key {part : Part} {key : String × Kind} {entries : List (Value × Value)} {v : Value}
    (hpart : part ∈ schema) (hkey : key ∈ part.2)
    (htable : Value.find? data part.1 = some (.map entries))
    (hv : Value.find? entries key.1 = some v) (h : ¬ key.2.Accepts v) :
    Offends data (keyName part.1 key.1)

/-- The error names a key that offends. -/
def Blames (data : List (Value × Value)) (e : BuildError) : Prop :=
  ∃ name fault, e = .under name fault ∧ Offends data name

/-- Every entry stands under a key that the section defines. -/
def DefinesAll (keys : List (String × Kind)) (entries : List (Value × Value)) : Prop :=
  ∀ entry ∈ entries, ∃ key ∈ keys, entry.1 = .string key.1

/-- Every entry of the document is a section of the schema, and every entry of a section stands
under a key that the section defines. -/
structure AllDefined (data : List (Value × Value)) : Prop where
  sections : ∀ entry ∈ data, ∃ part ∈ schema, entry.1 = .string part.1
  keys : ∀ part ∈ schema, ∀ entries, IsTable (Value.find? data part.1) entries →
    DefinesAll part.2 entries

/-- The document has no entries but sections of the schema, and every section is a table that has no
entries but values of the right kinds under the keys of the section. -/
structure FitsSchema (data : List (Value × Value)) : Prop where
  sections : ∀ entry ∈ data, ∃ part ∈ schema, entry.1 = .string part.1
  tables : ∀ part ∈ schema, ∃ entries, IsTable (Value.find? data part.1) entries ∧
    DefinesAll part.2 entries ∧
    ∀ key ∈ part.2, ∀ v, Value.find? entries key.1 = some v → key.2.Accepts v

/-- The entries that stand under one of the keys. -/
def entriesUnder (keys : List (String × Kind)) (entries : List (Value × Value)) :
    List (Value × Value) :=
  entries.filter fun entry => keys.any fun key => entry.1.isText key.1

/-- The value with only those of its entries that stand under one of the keys, if it is a map. -/
def onlyKeys (keys : List (String × Kind)) : Value → Value
  | .map entries => .map (entriesUnder keys entries)
  | v => v

/-- The document without the entries that stand under no key of the schema. -/
def definedPart (data : List (Value × Value)) : List (Value × Value) :=
  data.filterMap fun entry =>
    (schema.find? fun part => entry.1.isText part.1).map fun part =>
      (entry.1, onlyKeys part.2 entry.2)

/-! ## One key -/

/-- The kind refuses the value under the key, and the error names the key. -/
def Refuses (kind : Kind) (name : String) (entries : List (Value × Value)) (key : String)
    (e : BuildError) : Prop :=
  ∃ fault v, e = .under (keyName name key) fault ∧ Value.find? entries key = some v ∧
    ¬ kind.Accepts v

/-- A text under a key is its default, the trimmed text that stands there, or refused. -/
theorem text_cases (name : String) (entries : List (Value × Value)) (key : String)
    {default : String} (hdefault : Text.trim default = default)
    (hblank : Text.isAllBlank default = false) :
    (Value.find? entries key = none ∧ text name entries key default = .ok default) ∨
    (∃ s, Value.find? entries key = some (.string s) ∧ Text.isAllBlank s = false ∧
      text name entries key default = .ok (Text.trim s)) ∨
    ∃ v, Value.find? entries key = some v ∧ (∀ s, v = .string s → Text.isAllBlank s = true) ∧
      text name entries key default = .error (.under (keyName name key) .notNonEmptyString) := by
  unfold text
  cases hfind : Value.find? entries key with
  | none => exact .inl ⟨rfl, by simp [hblank, hdefault]⟩
  | some v =>
    right
    cases v with
    | string s =>
      cases hs : Text.isAllBlank s with
      | false => exact .inl ⟨s, rfl, hs, by simp [hs]⟩
      | true =>
        refine .inr ⟨_, rfl, ?_, by simp [hs]⟩
        rintro other ⟨⟩
        exact hs
    | _ => exact .inr ⟨_, rfl, nofun, rfl⟩

theorem text_reads (name : String) (entries : List (Value × Value)) (key : String)
    {default : String} (hdefault : Text.trim default = default)
    (hblank : Text.isAllBlank default = false) :
    Ends (fun s => (Kind.text default).Means (Value.find? entries key) (.text s))
      (Refuses (.text default) name entries key) (text name entries key default) := by
  rcases text_cases name entries key hdefault hblank with
    ⟨hfind, hread⟩ | ⟨s, hfind, hs, hread⟩ | ⟨v, hfind, hv, hread⟩
  · rw [hread, hfind]
    exact .noText
  · rw [hread, hfind]
    exact .text hs
  · rw [hread]
    refine ⟨_, v, rfl, hfind, ?_⟩
    rintro ⟨setting, hmeans⟩
    cases hmeans with
    | text hs =>
      rw [hv _ rfl] at hs
      cases hs

/-- A text under a key is taken as a directory if it is relative and does not lead upward. -/
theorem directory_of_text {entries : List (Value × Value)} {key default path : String}
    (h : text "paths" entries key default = .ok path) :
    (Path.isAbsolute (withoutSlashes path) = false ∧
      Path.startsUpward (withoutSlashes path) = false ∧
      directory entries key default = .ok (withoutSlashes path)) ∨
    ((Path.isAbsolute (withoutSlashes path) || Path.startsUpward (withoutSlashes path)) = true ∧
      directory entries key default = .error (.under (keyName "paths" key) .notRelative)) := by
  have hdirectory : directory entries key default =
      if Path.isAbsolute (withoutSlashes path) || Path.startsUpward (withoutSlashes path) then
        .error (.under (keyName "paths" key) .notRelative)
      else .ok (withoutSlashes path) := by
    simp only [directory, h, bind, Except.bind]
    rfl
  cases hbad : Path.isAbsolute (withoutSlashes path) || Path.startsUpward (withoutSlashes path) with
  | true => exact .inr ⟨rfl, by rw [hdirectory, hbad, if_pos rfl]⟩
  | false =>
    rw [Bool.or_eq_false_iff] at hbad
    exact .inl ⟨hbad.1, hbad.2, by simp [hdirectory, hbad.1, hbad.2]⟩

theorem directory_of_text_error {entries : List (Value × Value)} {key default : String}
    {e : BuildError} (h : text "paths" entries key default = .error e) :
    directory entries key default = .error e := by
  unfold directory
  rw [h]
  rfl

theorem directory_reads (entries : List (Value × Value)) (key : String) {default : String}
    (hdefault : Text.trim default = default) (hblank : Text.isAllBlank default = false)
    (hslash : withoutSlashes default = default)
    (hdown : (Path.isAbsolute default || Path.startsUpward default) = false) :
    Ends (fun s => (Kind.directory default).Means (Value.find? entries key) (.text s))
      (Refuses (.directory default) "paths" entries key) (directory entries key default) := by
  rcases text_cases "paths" entries key hdefault hblank with
    ⟨hfind, hread⟩ | ⟨s, hfind, hs, hread⟩ | ⟨v, hfind, hv, hread⟩
  · rcases directory_of_text hread with ⟨-, -, h⟩ | ⟨hbad, -⟩
    · rw [h, hfind, hslash]
      exact .noDirectory
    · rw [hslash, hdown] at hbad
      cases hbad
  · rcases directory_of_text hread with ⟨hrelative, hdown, h⟩ | ⟨hbad, h⟩
    · rw [h, hfind]
      exact .directory hs hrelative hdown
    · rw [h]
      refine ⟨_, .string s, rfl, hfind, ?_⟩
      rintro ⟨setting, hmeans⟩
      cases hmeans with
      | directory _ hrelative hdown => simp [hrelative, hdown] at hbad
  · rw [directory_of_text_error hread]
    refine ⟨_, v, rfl, hfind, ?_⟩
    rintro ⟨setting, hmeans⟩
    cases hmeans with
    | directory hs hrelative hdown =>
      rw [hv _ rfl] at hs
      cases hs

theorem ofItems_cases (field : Option String) (items : List Value) :
    (∃ members, List.Forall₂ (fun item s => TextList.textOf? item = some s) items members ∧
      TextList.ofItems field items = .ok (members.filterMap TextList.member?)) ∨
    (∃ item ∈ items, TextList.textOf? item = none) ∧
      TextList.ofItems field items = .error (.entryNotText field) := by
  induction items with
  | nil => exact .inl ⟨[], .nil, rfl⟩
  | cons item rest ih =>
    rw [TextList.ofItems]
    cases htext : TextList.textOf? item with
    | none => exact .inr ⟨⟨item, List.mem_cons_self, htext⟩, rfl⟩
    | some s =>
      rcases ih with ⟨members, hmembers, hread⟩ | ⟨⟨other, hother, hnone⟩, hread⟩
      · refine .inl ⟨s :: members, .cons htext hmembers, ?_⟩
        simp only [hread, Except.map, List.filterMap_cons]
        cases TextList.member? s <;> rfl
      · exact .inr ⟨⟨other, List.mem_cons_of_mem item hother, hnone⟩, by simp [hread, Except.map]⟩

theorem items_unique {v : Value} {items others : List Value} (h : v = .list items ∨ v = .tuple items)
    (h' : v = .list others ∨ v = .tuple others) : items = others := by
  rcases h with rfl | rfl <;> rcases h' with heq | heq <;> cases heq <;> rfl

/-- A list or a tuple with something in it that is no text is no list of texts. -/
theorem not_accepts_of_item {v : Value} {items : List Value} (hv : v = .list items ∨ v = .tuple items)
    (h : ∃ item ∈ items, TextList.textOf? item = none) : ¬ Kind.texts.Accepts v := by
  obtain ⟨item, hitem, hnone⟩ := h
  rintro ⟨setting, hmeans⟩
  cases hmeans with
  | nullTexts => rcases hv with hv | hv <;> cases hv
  | oneText htext => rcases hv with rfl | rfl <;> cases htext
  | texts hother hmembers =>
    obtain rfl := items_unique hv hother
    obtain ⟨s, hs⟩ := exists_of_forall₂ hmembers hitem
    rw [hnone] at hs
    cases hs

/-- A value is read as a list of texts exactly if it means one. -/
theorem ofValue_cases (field : Option String) (v : Value) :
    (∃ members, Kind.texts.Means (some v) (.texts members) ∧
      TextList.ofValue v field = .ok members) ∨
    ∃ fault, ¬ Kind.texts.Accepts v ∧ TextList.ofValue v field = .error fault := by
  -- a list and a tuple are read by the same items
  have hitems : ∀ items, v = .list items ∨ v = .tuple items →
      TextList.ofValue v field = TextList.ofItems field items →
      (∃ members, Kind.texts.Means (some v) (.texts members) ∧
        TextList.ofValue v field = .ok members) ∨
      ∃ fault, ¬ Kind.texts.Accepts v ∧ TextList.ofValue v field = .error fault := by
    intro items hv hread
    rw [hread]
    rcases ofItems_cases field items with ⟨members, hmembers, h⟩ | ⟨hitem, h⟩
    · exact .inl ⟨_, .texts hv hmembers, h⟩
    · exact .inr ⟨_, not_accepts_of_item hv hitem, h⟩
  cases v with
  | null => exact .inl ⟨[], .nullTexts, rfl⟩
  | list items => exact hitems items (.inl rfl) rfl
  | tuple items => exact hitems items (.inr rfl) rfl
  | string s => exact .inl ⟨_, .oneText rfl, rfl⟩
  | bytes b => exact .inl ⟨_, .oneText rfl, rfl⟩
  | _ =>
    refine .inr ⟨_, ?_, rfl⟩
    rintro ⟨setting, hmeans⟩
    cases hmeans with
    | oneText htext => cases htext
    | texts hv => rcases hv with hv | hv <;> cases hv

theorem texts_reads (name : String) (entries : List (Value × Value)) (key : String) :
    Ends (fun items => Kind.texts.Means (Value.find? entries key) (.texts items))
      (Refuses .texts name entries key) (texts name entries key) := by
  rw [texts]
  cases hfind : Value.find? entries key with
  | none => exact .noTexts
  | some v =>
    rw [Option.getD_some]
    rcases ofValue_cases (some (keyName name key)) v with
      ⟨members, hmeans, hread⟩ | ⟨fault, hrefused, hread⟩
    · rw [hread]
      exact hmeans
    · rw [hread]
      exact ⟨_, v, rfl, hfind, hrefused⟩

/-- The level of log messages, as it is read from the entries of its section. -/
def level (entries : List (Value × Value)) : Except BuildError LogLevel := do
  let levelName := Text.lower (← text "global" entries "log_level" "warning")
  let some logLevel := LogLevel.ofName? levelName
    | .error (.under "global.log_level"
        (.unknownLogLevel levelName (", ".intercalate (LogLevel.all.map LogLevel.name))))
  .ok logLevel

/-- The file for log messages, as it is read from the entries of its section. -/
def logFile (entries : List (Value × Value)) : Except BuildError (Option String) :=
  match (Value.find? entries "log_file").getD .null with
  | .null => .ok none
  | .string s => .ok (if s.isEmpty then none else some s)
  | _ => .error (.under "global.log_file" .notString)

theorem readGlobals_eq (data : List (Value × Value)) :
    readGlobals data = (table data "global" >>= fun entries => level entries >>= fun logLevel =>
      logFile entries >>= fun file => text "global" entries "output" "Makefile" >>= fun output =>
        .ok ⟨logLevel, file, output⟩) := by
  unfold readGlobals
  congr 1
  funext entries
  unfold level logFile
  cases text "global" entries "log_level" "warning" with
  | error e => rfl
  | ok name =>
    simp only [bind, Except.bind]
    cases LogLevel.ofName? (Text.lower name) with
    | none => rfl
    | some level => cases (Value.find? entries "log_file").getD .null <;> rfl

theorem level_of_text {entries : List (Value × Value)} {written : String}
    (h : text "global" entries "log_level" "warning" = .ok written) :
    (∃ l, Text.lower written = l.name ∧ level entries = .ok l) ∨
    (∀ l : LogLevel, Text.lower written ≠ l.name) ∧
      ∃ fault, level entries = .error (.under "global.log_level" fault) := by
  unfold level
  rw [h]
  simp only [bind, Except.bind]
  cases hname : LogLevel.ofName? (Text.lower written) with
  | some l => exact .inl ⟨l, LogLevel.ofName?_eq_some_iff.1 hname, rfl⟩
  | none =>
    refine .inr ⟨fun l hl => ?_, _, rfl⟩
    rw [LogLevel.ofName?_eq_some_iff.2 hl] at hname
    cases hname

theorem level_of_text_error {entries : List (Value × Value)} {e : BuildError}
    (h : text "global" entries "log_level" "warning" = .error e) : level entries = .error e := by
  unfold level
  rw [h]
  rfl

/-- A blank text is not the name of a level. -/
theorem lower_trim_ne_name {s : String} (h : Text.isAllBlank s = true) (l : LogLevel) :
    Text.lower (Text.trim s) ≠ l.name := by
  have htrim : Text.trim s = "" := by
    rw [Text.isAllBlank, List.all_eq_true, ← List.dropWhile_eq_nil_iff] at h
    rw [Text.trim, Text.strip, Text.stripList, h]
    rfl
  rw [htrim]
  cases l <;> decide

theorem level_reads (entries : List (Value × Value)) :
    Ends (fun l => (Kind.level .warning).Means (Value.find? entries "log_level") (.level l))
      (Refuses (.level .warning) "global" entries "log_level") (level entries) := by
  rcases text_cases "global" entries "log_level" (rfl : Text.trim "warning" = "warning") rfl with
    ⟨hfind, hread⟩ | ⟨s, hfind, -, hread⟩ | ⟨v, hfind, hv, hread⟩
  · rcases level_of_text hread with ⟨l, hl, h⟩ | ⟨hnone, -⟩
    · rw [h, hfind]
      -- the default is spelled like `warning` only
      obtain rfl : l = .warning := by cases l <;> first | rfl | exact absurd hl (by decide)
      exact .noLevel
    · exact absurd rfl (hnone .warning)
  · rcases level_of_text hread with ⟨l, hl, h⟩ | ⟨hnone, fault, h⟩
    · rw [h, hfind]
      exact .level hl
    · rw [h]
      refine ⟨fault, _, rfl, hfind, ?_⟩
      rintro ⟨setting, hmeans⟩
      cases hmeans with
      | level hl => exact hnone _ hl
  · rw [level_of_text_error hread]
    refine ⟨_, v, rfl, hfind, ?_⟩
    rintro ⟨setting, hmeans⟩
    cases hmeans with
    | level hl => exact lower_trim_ne_name (hv _ rfl) _ hl

theorem logFile_reads (entries : List (Value × Value)) :
    Ends (fun file => Kind.optionalText.Means (Value.find? entries "log_file") (.optional file))
      (Refuses .optionalText "global" entries "log_file") (logFile entries) := by
  unfold logFile
  cases hfind : Value.find? entries "log_file" with
  | none => exact .noOptional
  | some v =>
    rw [Option.getD_some]
    cases v with
    | null => exact .nullOptional
    | string s =>
      by_cases hs : s = ""
      · subst hs
        exact .emptyOptional
      · have hread : (if s.isEmpty then none else some s) = some s :=
          if_neg (by simpa using hs)
        simp only [hread]
        exact .optional hs
    | _ =>
      refine ⟨_, _, rfl, hfind, ?_⟩
      rintro ⟨setting, hmeans⟩
      cases hmeans

/-! ## Sections -/

theorem table_reads (data : List (Value × Value)) (name : String) :
    Ends (IsTable (Value.find? data name))
      (fun e => (∃ fault, e = .under name fault) ∧
        ∀ entries, ¬ IsTable (Value.find? data name) entries) (table data name) := by
  unfold table
  cases Value.find? data name with
  | none => exact .missing
  | some v =>
    cases v with
    | null => exact IsTable.null
    | map entries => exact IsTable.map entries
    | _ => exact ⟨⟨_, rfl⟩, nofun⟩

/-- A section that is refused offends. -/
theorem blames_table {part : Part} (hpart : part ∈ schema) {e : BuildError}
    (h : (∃ fault, e = .under part.1 fault) ∧
      ∀ entries, ¬ IsTable (Value.find? data part.1) entries) : Blames data e := by
  obtain ⟨⟨fault, rfl⟩, hnone⟩ := h
  exact ⟨part.1, fault, rfl, .table hpart hnone⟩

/-- Only a map has a value under a key. -/
theorem IsTable.eq_map {found : Option Value} {v : Value} (h : IsTable found entries)
    (hv : Value.find? entries key = some v) : found = some (.map entries) := by
  cases h with
  | map => rfl
  | _ => cases hv

/-- A key of a section whose value is refused offends. -/
theorem blames_key {part : Part} (hpart : part ∈ schema) {key : String × Kind}
    (hkey : key ∈ part.2) (htable : IsTable (Value.find? data part.1) entries) {e : BuildError}
    (h : Refuses key.2 part.1 entries key.1 e) : Blames data e := by
  obtain ⟨fault, v, rfl, hv, hrefused⟩ := h
  exact ⟨_, fault, rfl, .key hpart hkey (htable.eq_map hv) hv hrefused⟩

theorem globals_mem : ("global", globalKeys) ∈ schema := by
  simp [schema]

theorem paths_mem : ("paths", pathKeys) ∈ schema := by
  simp [schema]

theorem toolchain_mem : ("toolchain", toolchainKeys) ∈ schema := by
  simp [schema]

theorem globals_read (data : List (Value × Value)) :
    Ends (fun globals => ConveysSection data ("global", globalKeys)
        [.level globals.logLevel, .optional globals.logFile, .text globals.output])
      (Blames data) (readGlobals data) := by
  rw [readGlobals_eq]
  refine Ends.bind ((table_reads data "global").mono ?_ fun e => blames_table globals_mem)
  intro entries htable
  have hblames : ∀ key ∈ globalKeys, ∀ e, Refuses key.2 "global" entries key.1 e → Blames data e :=
    fun key hkey e => blames_key globals_mem hkey htable
  refine Ends.bind ((level_reads entries).mono ?_
    (hblames ("log_level", .level .warning) (by simp [globalKeys])))
  intro logLevel hlevel
  refine Ends.bind ((logFile_reads entries).mono ?_
    (hblames ("log_file", .optionalText) (by simp [globalKeys])))
  intro logFile hfile
  refine Ends.bind ((text_reads "global" entries "output" rfl rfl).mono ?_
    (hblames ("output", .text "Makefile") (by simp [globalKeys])))
  intro output houtput
  exact ⟨entries, htable, .cons hlevel (.cons hfile (.cons houtput .nil))⟩

theorem dirs_read (data : List (Value × Value)) :
    Ends (fun dirs => ConveysSection data ("paths", pathKeys)
        [.text dirs.objectDir, .text dirs.genfileDir, .text dirs.sourceDir, .text dirs.pkgfileDir])
      (Blames data) (readDirs data) := by
  refine Ends.bind ((table_reads data "paths").mono ?_ fun e => blames_table paths_mem)
  intro entries htable
  have hblames : ∀ key ∈ pathKeys, ∀ e, Refuses key.2 "paths" entries key.1 e → Blames data e :=
    fun key hkey e => blames_key paths_mem hkey htable
  refine Ends.bind ((directory_reads entries "object_dir" rfl rfl rfl rfl).mono ?_
    (hblames ("object_dir", .directory ".gen-obj") (by simp [pathKeys])))
  intro objectDir hobjects
  refine Ends.bind ((directory_reads entries "genfile_dir" rfl rfl rfl rfl).mono ?_
    (hblames ("genfile_dir", .directory ".gen-files") (by simp [pathKeys])))
  intro genfileDir hgenerated
  refine Ends.bind ((directory_reads entries "source_dir" rfl rfl rfl rfl).mono ?_
    (hblames ("source_dir", .directory ".gen-src") (by simp [pathKeys])))
  intro sourceDir hsources
  refine Ends.bind ((directory_reads entries "pkgfile_dir" rfl rfl rfl rfl).mono ?_
    (hblames ("pkgfile_dir", .directory ".gen-pkg") (by simp [pathKeys])))
  intro pkgfileDir hpackages
  exact ⟨entries, htable,
    .cons hobjects (.cons hgenerated (.cons hsources (.cons hpackages .nil)))⟩

theorem toolchain_reads (data : List (Value × Value)) :
    Ends (fun toolchain => ConveysSection data ("toolchain", toolchainKeys)
        [.text toolchain.cc, .text toolchain.cxx, .texts toolchain.cflags,
          .texts toolchain.cxxflags, .texts toolchain.ldflags, .text toolchain.installRoot])
      (Blames data) (readToolchain data) := by
  refine Ends.bind ((table_reads data "toolchain").mono ?_ fun e => blames_table toolchain_mem)
  intro entries htable
  have hblames : ∀ key ∈ toolchainKeys, ∀ e, Refuses key.2 "toolchain" entries key.1 e →
      Blames data e :=
    fun key hkey e => blames_key toolchain_mem hkey htable
  refine Ends.bind ((text_reads "toolchain" entries "cc" rfl rfl).mono ?_
    (hblames ("cc", .text "cc") (by simp [toolchainKeys])))
  intro cc hcc
  refine Ends.bind ((text_reads "toolchain" entries "cxx" rfl rfl).mono ?_
    (hblames ("cxx", .text "c++") (by simp [toolchainKeys])))
  intro cxx hcxx
  refine Ends.bind ((texts_reads "toolchain" entries "cflags").mono ?_
    (hblames ("cflags", .texts) (by simp [toolchainKeys])))
  intro cflags hcflags
  refine Ends.bind ((texts_reads "toolchain" entries "cxxflags").mono ?_
    (hblames ("cxxflags", .texts) (by simp [toolchainKeys])))
  intro cxxflags hcxxflags
  refine Ends.bind ((texts_reads "toolchain" entries "ldflags").mono ?_
    (hblames ("ldflags", .texts) (by simp [toolchainKeys])))
  intro ldflags hldflags
  refine Ends.bind ((text_reads "toolchain" entries "prefix" rfl rfl).mono ?_
    (hblames ("prefix", .text "/usr/local") (by simp [toolchainKeys])))
  intro installRoot hroot
  exact ⟨entries, htable, .cons hcc (.cons hcxx (.cons hcflags (.cons hcxxflags
    (.cons hldflags (.cons hroot .nil)))))⟩

/-! ## Documents -/

/-- Reading gives settings that the document conveys, and an error names a key that offends. -/
theorem ofMap_ends (data : List (Value × Value)) :
    Ends (Conveys data) (Blames data) (ofMap data) := by
  refine Ends.bind ((globals_read data).mono ?_ fun _ he => he)
  intro globals hglobals
  refine Ends.bind ((dirs_read data).mono ?_ fun _ he => he)
  intro dirs hdirs
  refine Ends.bind ((toolchain_reads data).mono ?_ fun _ he => he)
  intro toolchain htoolchain
  exact .cons hglobals (.cons hdirs (.cons htoolchain .nil))

/-- A value of a kind means one thing. -/
theorem Kind.Means.unique {kind : Kind} {found : Option Value} {a b : Setting}
    (ha : kind.Means found a) (hb : kind.Means found b) : a = b := by
  cases ha with
  | level h =>
    cases hb with
    | level h' => rw [LogLevel.name_injective (h.symm.trans h')]
  | emptyOptional =>
    cases hb with
    | emptyOptional => rfl
    | optional h => exact absurd rfl h
  | optional h =>
    cases hb with
    | emptyOptional => exact absurd rfl h
    | optional => rfl
  | nullTexts =>
    cases hb with
    | nullTexts => rfl
    | oneText h => cases h
    | texts hv => rcases hv with hv | hv <;> cases hv
  | oneText h =>
    cases hb with
    | nullTexts => cases h
    | oneText h' => rw [Option.some.inj (h.symm.trans h')]
    | texts hv => rcases hv with rfl | rfl <;> cases h
  | texts hv h =>
    cases hb with
    | nullTexts => rcases hv with hv | hv <;> cases hv
    | oneText h' => rcases hv with rfl | rfl <;> cases h'
    | texts hv' h' =>
      obtain rfl := items_unique hv hv'
      have hmembers := List.right_unique_forall₂'
        (fun _ _ _ hx hy => Option.some.inj (hx.symm.trans hy)) h h'
      rw [hmembers]
  | _ => cases hb; rfl

theorem IsTable.unique {found : Option Value} {xs ys : List (Value × Value)}
    (hxs : IsTable found xs) (hys : IsTable found ys) : xs = ys := by
  cases hxs <;> cases hys <;> rfl

theorem ConveysSection.unique {part : Part} {xs ys : List Setting}
    (hxs : ConveysSection data part xs) (hys : ConveysSection data part ys) : xs = ys := by
  obtain ⟨entries, htable, hxs⟩ := hxs
  obtain ⟨others, hother, hys⟩ := hys
  obtain rfl := htable.unique hother
  exact List.right_unique_forall₂' (fun _ _ _ ha hb => ha.unique hb) hxs hys

theorem values_injective {s t : Settings} (h : s.values = t.values) : s = t := by
  obtain ⟨⟨_, _, _⟩, ⟨_, _, _, _⟩, ⟨_, _, _, _, _, _⟩⟩ := s
  obtain ⟨⟨_, _, _⟩, ⟨_, _, _, _⟩, ⟨_, _, _, _, _, _⟩⟩ := t
  simpa [values] using h

theorem Conveys.unique {s t : Settings} (hs : Conveys data s) (ht : Conveys data t) : s = t :=
  values_injective (List.right_unique_forall₂' (fun _ _ _ ha hb => ha.unique hb) hs ht)

/-- In a document that conveys settings, no key offends. -/
theorem Conveys.not_offends {s : Settings} (h : Conveys data s) : ¬ Offends data name := by
  rintro (⟨hpart, hnone⟩ | ⟨hpart, hkey, htable, hv, hrefused⟩)
  · obtain ⟨settings, entries, hentries, -⟩ := exists_of_forall₂ h hpart
    exact hnone entries hentries
  · obtain ⟨settings, entries, hentries, hkeys⟩ := exists_of_forall₂ h hpart
    rw [htable] at hentries
    cases hentries
    obtain ⟨setting, hmeans⟩ := exists_of_forall₂ hkeys hkey
    rw [hv] at hmeans
    exact hrefused ⟨setting, hmeans⟩

theorem ofMap_eq_ok_iff {s : Settings} : ofMap data = .ok s ↔ Conveys data s := by
  constructor
  · exact (ofMap_ends data).of_eq_ok
  · intro h
    cases hread : ofMap data with
    | ok t => rw [h.unique ((ofMap_ends data).of_eq_ok hread)]
    | error e =>
      obtain ⟨name, fault, -, hoffends⟩ := (ofMap_ends data).of_eq_error hread
      exact absurd hoffends h.not_offends

theorem exists_ofMap_iff : (∃ s, ofMap data = .ok s) ↔ ∀ name, ¬ Offends data name := by
  constructor
  · rintro ⟨s, hs⟩ name
    exact (ofMap_eq_ok_iff.1 hs).not_offends
  · intro h
    cases hread : ofMap data with
    | ok s => exact ⟨s, rfl⟩
    | error e =>
      obtain ⟨name, fault, -, hoffends⟩ := (ofMap_ends data).of_eq_error hread
      exact absurd hoffends (h name)

/-! ## Entries that are not looked at -/

/-- Under the keys that are kept, the values are found as before. -/
theorem find?_entriesUnder (keys : List (String × Kind)) (entries : List (Value × Value)) :
    ∀ key ∈ keys, Value.find? (entriesUnder keys entries) key.1 = Value.find? entries key.1 := by
  intro key hkey
  unfold Value.find? entriesUnder
  rw [List.find?_filter]
  congr 2
  funext entry
  cases hentry : entry.1.isText key.1 with
  | true => exact decide_eq_true ⟨List.any_eq_true.2 ⟨key, hkey, hentry⟩, rfl⟩
  | false => exact decide_eq_false fun h => Bool.false_ne_true h.2

/-- A section of the schema is the first one of its name. -/
theorem find?_schema {part : Part} (hpart : part ∈ schema) :
    (schema.find? fun other => (Value.string part.1).isText other.1) = some part := by
  simp only [schema, List.mem_cons, List.not_mem_nil, or_false] at hpart
  rcases hpart with rfl | rfl | rfl <;> rfl

/-- Of a section, only what stands under its keys is kept. -/
theorem find?_definedPart {part : Part} (hpart : part ∈ schema) (data : List (Value × Value)) :
    Value.find? (definedPart data) part.1 =
      (Value.find? data part.1).map (onlyKeys part.2) := by
  unfold definedPart
  induction data with
  | nil => rfl
  | cons entry rest ih =>
    rw [Value.find?_cons, List.filterMap_cons]
    cases hentry : entry.1.isText part.1 with
    | true =>
      rw [Value.isText_iff.1 hentry, find?_schema hpart]
      simp [Value.find?_cons, Value.isText]
    | false =>
      cases hother : schema.find? fun other => entry.1.isText other.1 with
      | none => simpa using ih
      | some other => simpa [Value.find?_cons, hentry] using ih

theorem table_definedPart {part : Part} (hpart : part ∈ schema) (data : List (Value × Value)) :
    table (definedPart data) part.1 = (table data part.1).map (entriesUnder part.2) := by
  unfold table
  rw [find?_definedPart hpart]
  cases Value.find? data part.1 with
  | none => rfl
  | some v => cases v <;> rfl

theorem readGlobals_definedPart (data : List (Value × Value)) :
    readGlobals (definedPart data) = readGlobals data := by
  have htable := table_definedPart globals_mem data
  unfold readGlobals
  rw [htable]
  cases table data "global" with
  | error e => rfl
  | ok entries =>
    have hsame := find?_entriesUnder globalKeys entries
    change (Except.ok (entriesUnder globalKeys entries) >>= _) = (Except.ok entries >>= _)
    generalize entriesUnder globalKeys entries = kept at hsame ⊢
    simp only [globalKeys, List.forall_mem_cons] at hsame
    obtain ⟨hlevel, hfile, houtput, -⟩ := hsame
    simp only [bind, Except.bind, text, hlevel, hfile, houtput]

theorem readDirs_definedPart (data : List (Value × Value)) :
    readDirs (definedPart data) = readDirs data := by
  have htable := table_definedPart paths_mem data
  unfold readDirs
  rw [htable]
  cases table data "paths" with
  | error e => rfl
  | ok entries =>
    have hsame := find?_entriesUnder pathKeys entries
    change (Except.ok (entriesUnder pathKeys entries) >>= _) = (Except.ok entries >>= _)
    generalize entriesUnder pathKeys entries = kept at hsame ⊢
    simp only [pathKeys, List.forall_mem_cons] at hsame
    obtain ⟨hobjects, hgenerated, hsources, hpackages, -⟩ := hsame
    simp only [bind, Except.bind, directory, text, hobjects, hgenerated, hsources, hpackages]

theorem readToolchain_definedPart (data : List (Value × Value)) :
    readToolchain (definedPart data) = readToolchain data := by
  have htable := table_definedPart toolchain_mem data
  unfold readToolchain
  rw [htable]
  cases table data "toolchain" with
  | error e => rfl
  | ok entries =>
    have hsame := find?_entriesUnder toolchainKeys entries
    change (Except.ok (entriesUnder toolchainKeys entries) >>= _) = (Except.ok entries >>= _)
    generalize entriesUnder toolchainKeys entries = kept at hsame ⊢
    simp only [toolchainKeys, List.forall_mem_cons] at hsame
    obtain ⟨hcc, hcxx, hcflags, hcxxflags, hldflags, hroot, -⟩ := hsame
    simp only [bind, Except.bind, text, texts, hcc, hcxx, hcflags, hcxxflags, hldflags, hroot]

/-- Leaving out the entries that stand under no key of the schema changes nothing. -/
theorem ofMap_definedPart (data : List (Value × Value)) : ofMap (definedPart data) = ofMap data := by
  unfold ofMap
  rw [readGlobals_definedPart, readDirs_definedPart, readToolchain_definedPart]

/-! ## The schema as a whole -/

theorem fitsSchema_iff :
    FitsSchema data ↔ AllDefined data ∧ ∀ name, ¬ Offends data name := by
  constructor
  · intro h
    refine ⟨⟨h.sections, fun part hpart entries htable => ?_⟩, ?_⟩
    · obtain ⟨found, hfound, hkeys, -⟩ := h.tables part hpart
      rwa [htable.unique hfound]
    · rintro name (⟨hpart, hnone⟩ | ⟨hpart, hkey, htable, hv, hrefused⟩)
      · obtain ⟨found, hfound, -⟩ := h.tables _ hpart
        exact hnone found hfound
      · obtain ⟨found, hfound, -, haccepts⟩ := h.tables _ hpart
        rw [htable] at hfound
        cases hfound
        exact hrefused (haccepts _ hkey _ hv)
  · rintro ⟨hdefined, hnone⟩
    refine ⟨hdefined.sections, fun part hpart => ?_⟩
    obtain ⟨entries, htable⟩ : ∃ entries, IsTable (Value.find? data part.1) entries := by
      -- a section that is no table would offend by its name
      by_contra hcontra
      exact hnone part.1 (.table hpart (not_exists.1 hcontra))
    refine ⟨entries, htable, hdefined.keys part hpart entries htable, fun key hkey v hv => ?_⟩
    by_contra hrefused
    exact hnone _ (.key hpart hkey (htable.eq_map hv) hv hrefused)

/-- Reading follows the schema as far as its keys go. It gives exactly the settings that the
document conveys, an error names a key that offends, and there is an error exactly if a key does.
Entries that stand under no key of the schema can be left out; among the documents without such
entries, exactly those are accepted that fit the schema. -/
theorem ofMap_follows (data : List (Value × Value)) :
    (∀ s, ofMap data = .ok s ↔ Conveys data s) ∧
    (∀ e, ofMap data = .error e → Blames data e) ∧
    ((∃ s, ofMap data = .ok s) ↔ ∀ name, ¬ Offends data name) ∧
    ofMap (definedPart data) = ofMap data ∧
    (FitsSchema data ↔ AllDefined data ∧ ∃ s, ofMap data = .ok s) := by
  refine ⟨fun s => ofMap_eq_ok_iff, fun e => (ofMap_ends data).of_eq_error, exists_ofMap_iff,
    ofMap_definedPart data, ?_⟩
  rw [exists_ofMap_iff]
  exact fitsSchema_iff

/-- A document whose flags stand under a misspelt key. -/
def misspelt : List (Value × Value) :=
  [(.string "toolchain", .map [(.string "cflag", .list [.string "-O2"])])]

/-- A document with a misspelt key is accepted, and what stands under the key is lost, though the
document does not fit the schema. -/
theorem ofMap_accepts_misspelt :
    (∃ s, ofMap misspelt = .ok s) ∧ ofMap misspelt = ofMap [] ∧ ¬ FitsSchema misspelt := by
  refine ⟨⟨_, rfl⟩, rfl, fun h => ?_⟩
  obtain ⟨entries, htable, hkeys, -⟩ := h.tables _ toolchain_mem
  cases htable
  obtain ⟨key, hkey, hcflag⟩ := hkeys _ List.mem_cons_self
  revert hcflag
  revert key
  simp [toolchainKeys]

end Settings

end Makewright
