import Makewright.Description
import Makewright.Proofs.Template

/-!
# Attributes as texts and as lists of texts

An attribute that is written as one text can be read as a text and as a list of texts. As a text its
placeholders are filled in first and the blanks around the result are dropped; as a list, the blanks
around the text are dropped first and the placeholders are filled in afterwards. So the list holds
what the text is before its blanks are dropped, and both readings agree exactly if there are none,
which is so whenever no placeholder stands for nothing or for a text with blanks around it
(`Description.reads_alike`). The path of the root package is empty, and a placeholder for it puts an
empty text into a list (`Description.reads_apart`).
-/

set_option autoImplicit false

namespace Makewright

namespace TextList

/-- A text stands in a list as it is if it is not empty and there are no blanks around it. -/
theorem member?_eq_self_iff {s : String} : member? s = some s ↔ s ≠ "" ∧ Text.trim s = s := by
  unfold member?
  by_cases hempty : (Text.trim s).isEmpty
  · simp only [hempty, if_true, reduceCtorEq, false_iff, not_and]
    intro hne htrim
    rw [htrim, String.isEmpty_iff] at hempty
    exact hne hempty
  · simp only [hempty, if_false, Bool.false_eq_true, Option.some.injEq, iff_and_self]
    rintro htrim rfl
    exact hempty (by rw [htrim]; rfl)

theorem eq_trim_of_member? {s text : String} (h : member? s = some text) :
    Text.trim s ≠ "" ∧ Text.trim s = text := by
  unfold member? at h
  simp only at h
  split_ifs at h with hempty
  exact ⟨by simpa using hempty, Option.some.inj h⟩

/-- The texts of a list are its members, trimmed and without the blank ones. -/
theorem ofItems_strings (field : Option String) (items : List String) :
    ofItems field (items.map .string) = .ok (items.filterMap member?) := by
  induction items with
  | nil => rfl
  | cons s rest ih =>
    rw [List.map_cons, ofItems, textOf?, ih, List.filterMap_cons]
    change Except.ok _ = _
    cases member? s <;> rfl

end TextList

namespace Settings

variable {settings : Settings} {target : Target}

/-- The texts that templates can name for a target. -/
def templateTexts (s : Settings) (target : Target) : List String :=
  [s.dirs.objectDir, s.dirs.genfileDir, s.dirs.sourceDir, s.dirs.pkgfileDir, target.package,
    target.name, s.toolchain.installRoot, s.toolchain.cc, s.toolchain.cxx]

/-- A path that leads on leads through an entry of a map. -/
theorem exists_of_follow {v found : Value} {key : String} {rest : List String}
    (h : Template.follow v (key :: rest) = some found) : ∃ entries, v = .map entries ∧
      ∃ entry ∈ entries, Template.follow entry.2 rest = some found := by
  cases v with
  | map entries =>
    obtain ⟨inner, hinner, hfound⟩ := Option.bind_eq_some_iff.1 h
    obtain ⟨entry, hentry, rfl⟩ := Option.map_eq_some_iff.1 hinner
    exact ⟨entries, rfl, entry, List.mem_of_find?_eq_some hentry, hfound⟩
  | _ => cases h

/-- Below a section that holds texts, a path leads to one of them. -/
theorem mem_of_follow_section {section_ : List (String × String)} {keys : List String}
    {found : Value} (h : Template.follow
      (.map (section_.map fun entry => (.string entry.1, .string entry.2))) keys = some found) :
    (∃ entries, found = .map entries) ∨ ∃ text ∈ section_.map Prod.snd, found = .string text := by
  cases keys with
  | nil => exact .inl ⟨_, (Option.some.inj h).symm⟩
  | cons key rest =>
    obtain ⟨entries, hentries, entry, hentry, hfound⟩ := exists_of_follow h
    obtain rfl := Value.map.inj hentries
    obtain ⟨named, hnamed, rfl⟩ := List.mem_map.1 hentry
    cases rest with
    | nil => exact .inr ⟨_, List.mem_map_of_mem hnamed, (Option.some.inj hfound).symm⟩
    | cons more others => cases hfound

/-- In the context of the templates, a path leads to the map of a section or to one of the texts. -/
theorem mem_of_follow_templateContext {keys : List String} {found : Value}
    (h : Template.follow (settings.templateContext target) keys = some found) :
    (∃ entries, found = .map entries) ∨
      ∃ text ∈ settings.templateTexts target, found = .string text := by
  cases keys with
  | nil => exact .inl ⟨_, (Option.some.inj h).symm⟩
  | cons name keys =>
    obtain ⟨entries, hentries, entry, hentry, hfound⟩ := exists_of_follow h
    obtain rfl := Value.map.inj hentries
    -- the three sections, each with its own texts
    have hsections : ∃ section_ : List (String × String),
        entry.2 = .map (section_.map fun entry => (.string entry.1, .string entry.2)) ∧
          section_.map Prod.snd ⊆ settings.templateTexts target := by
      simp only [List.mem_cons, List.not_mem_nil, or_false] at hentry
      rcases hentry with rfl | rfl | rfl
      · exact ⟨[("object_dir", settings.dirs.objectDir),
          ("genfile_dir", settings.dirs.genfileDir), ("source_dir", settings.dirs.sourceDir),
          ("pkgfile_dir", settings.dirs.pkgfileDir)], rfl, by simp [templateTexts]⟩
      · exact ⟨[("path", target.package), ("name", target.name)], rfl, by simp [templateTexts]⟩
      · exact ⟨[("prefix", settings.toolchain.installRoot), ("cc", settings.toolchain.cc),
          ("cxx", settings.toolchain.cxx)], rfl, by simp [templateTexts]⟩
    obtain ⟨section_, hsection, hsubset⟩ := hsections
    rw [hsection] at hfound
    rcases mem_of_follow_section hfound with hmap | ⟨text, htext, rfl⟩
    · exact .inl hmap
    · exact .inr ⟨text, hsubset htext, rfl⟩

/-- A path of templates names one of the texts, or it is refused; that a number is too long to be
written is never the reason. -/
theorem scalar_templateContext (settings : Settings) (target : Target) (path : String) :
    Ends (· ∈ settings.templateTexts target) (· ≠ .tooManyDigits)
      (Template.scalar (settings.templateContext target) path) := by
  unfold Template.scalar
  cases hfollow : Template.follow (settings.templateContext target)
    ((path.toList.splitOn '.').map String.ofList) with
  | none => exact nofun
  | some found =>
    rcases mem_of_follow_templateContext hfollow with ⟨entries, rfl⟩ | ⟨text, htext, rfl⟩
    · exact nofun
    · exact htext

end Settings

namespace Description

variable {settings : Settings} {d : Description} {key text : String}

/-! ## One text -/

theorem resolve_eq_ok_iff {filled : String} : d.resolve settings key text = .ok filled ↔
    Template.resolveText (settings.templateContext d.target) text = .ok filled := by
  unfold resolve
  cases Template.resolveText (settings.templateContext d.target) text with
  | ok s => simp
  | error e => cases e <;> simp

/-- A text whose placeholders cannot be filled in is reported under its key. -/
theorem resolve_ends (settings : Settings) (d : Description) (key text : String) :
    Ends (fun _ => True) (fun e => ∃ fault, e = d.fault key fault) (d.resolve settings key text) := by
  unfold resolve
  cases hresolve : Template.resolveText (settings.templateContext d.target) text with
  | ok s => trivial
  | error e =>
    obtain ⟨path, hpath⟩ := Template.exists_lookup_eq_error hresolve
    have hreason := (Settings.scalar_templateContext settings d.target path).of_eq_error hpath
    cases e with
    | tooManyDigits => exact absurd rfl hreason
    | _ => exact ⟨_, rfl⟩

/-- A text without two opening braces in a row stands for itself. -/
theorem resolve_of_plain (h : ¬ ['\x7b', '\x7b'] <:+: text.toList) :
    d.resolve settings key text = .ok text :=
  resolve_eq_ok_iff.2 (Template.substitute_eq_self _ h)

/-- Blanks around a text stay around what it stands for. -/
theorem exists_resolve_trim (settings : Settings) (d : Description) (key text : String) :
    ∃ front back : List Char, text.toList = front ++ (Text.trim text).toList ++ back ∧
      (∀ c ∈ front, Text.isBlank c = true) ∧ (∀ c ∈ back, Text.isBlank c = true) ∧
      d.resolve settings key text = (d.resolve settings key (Text.trim text)).map
        fun filled => String.ofList (front ++ filled.toList ++ back) := by
  obtain ⟨front, back, htext, hfront, hback⟩ := Text.exists_trim text
  refine ⟨front, back, htext, hfront, hback, ?_⟩
  have hpadded := Template.substitute_padded
    (Template.scalar (settings.templateContext d.target))
    (fun c hc => Template.isBrace_of_isBlank (hfront c hc))
    (fun c hc => Template.isBrace_of_isBlank (hback c hc)) (Text.trim text)
  rw [← htext, String.ofList_toList] at hpadded
  unfold resolve Template.resolveText
  rw [hpadded]
  cases Template.substitute (Template.scalar (settings.templateContext d.target))
    (Text.trim text) with
  | ok filled => rfl
  | error e => cases e <;> rfl

/-- When the blanks are dropped afterwards, it does not matter whether they have been dropped
before. -/
theorem member?_resolve (settings : Settings) (d : Description) (key text : String) :
    (d.resolve settings key text).map TextList.member? =
      (d.resolve settings key (Text.trim text)).map TextList.member? := by
  obtain ⟨front, back, -, hfront, hback, hresolve⟩ := exists_resolve_trim settings d key text
  have hmember : ∀ filled : String,
      TextList.member? (String.ofList (front ++ filled.toList ++ back)) =
        TextList.member? filled := by
    intro filled
    have htrim : Text.trim (String.ofList (front ++ filled.toList ++ back)) =
        Text.trim filled := by
      rw [Text.trim, Text.strip, String.toList_ofList, Text.stripList_padded hfront hback]
      rfl
    rw [TextList.member?, htrim]
    rfl
  rw [hresolve]
  cases d.resolve settings key (Text.trim text) with
  | error e => rfl
  | ok filled => exact congrArg Except.ok (hmember filled)

/-- Only a whole number can be too long to be written. -/
theorem scalarText?_eq_error_iff {v : Value} {e : BuildError} :
    scalarText? v = some (.error e) ↔
      ∃ n : Int, v = .int n ∧ Numeral.leastTooLong ≤ n.natAbs ∧ .scalar .tooLong = e := by
  cases v with
  | int n =>
    simp only [scalarText?, BuildError.textOf, Value.display?_int, ← Numeral.decimal?_eq_none_iff,
      Option.some.injEq, Value.int.injEq, exists_eq_left']
    cases Numeral.decimal? n with
    | none => simp
    | some text => simp
  | _ => simp [scalarText?]

/-- What an attribute that stands for a text is read as. -/
theorem optional_of_scalarText? (h : scalarText? (d.valueOf key) = some (.ok text)) :
    d.optional settings key = (d.resolve settings key text).map TextList.member? := by
  unfold optional string?
  split
  · next hnull => rw [hnull] at h; cases h
  · rw [h]
    change (d.resolve settings key text >>= _) = _
    cases d.resolve settings key text with
    | error e => rfl
    | ok filled =>
      simp only [bind, Except.bind, Except.map]
      unfold TextList.member?
      by_cases hempty : (Text.trim filled).isEmpty <;> simp [hempty]

/-! ## Lists of texts -/

/-- A text is read as a list with at most one member. -/
theorem strings_of_string (h : d.valueOf key = .string text) :
    d.strings settings key = if Text.trim text = "" then .ok []
      else (d.resolve settings key (Text.trim text)).map fun filled => [filled] := by
  have hmembers : TextList.ofValue (.string text) (some key) =
      .ok (TextList.member? text).toList := rfl
  unfold strings
  rw [h, hmembers]
  unfold TextList.member?
  by_cases hempty : Text.trim text = ""
  · simp [hempty, pure, Except.pure]
  · simp only [String.isEmpty_iff, hempty, if_false, Option.toList_some]
    rw [List.mapM_cons, List.mapM_nil]
    cases d.resolve settings key (Text.trim text) <;> rfl

theorem strings_of_list {items : List String} (h : d.valueOf key = .list (items.map .string)) :
    d.strings settings key =
      (items.filterMap TextList.member?).mapM (d.resolve settings key) := by
  have hmembers : TextList.ofValue (.list (items.map .string)) (some key) =
      .ok (items.filterMap TextList.member?) := TextList.ofItems_strings _ _
  unfold strings
  rw [h, hmembers]

/-! ## Both readings of one value -/

/-- The attribute reads alike as a text and as a list of texts: the list is empty if there is no
text, and it holds the text otherwise. -/
def ReadsAlike (settings : Settings) (d : Description) (key : String) : Prop :=
  ∃ text : Option String, d.optional settings key = .ok text ∧
    d.strings settings key = .ok text.toList

/-- As a text, the value is what the list holds, trimmed and unless it is blank. -/
theorem optional_eq_map_strings (h : d.valueOf key = .string text) :
    d.optional settings key =
      (d.strings settings key).map fun texts => texts.head?.bind TextList.member? := by
  have hscalar : scalarText? (d.valueOf key) = some (.ok text) := by rw [h]; rfl
  rw [optional_of_scalarText? hscalar, strings_of_string h, member?_resolve]
  by_cases hempty : Text.trim text = ""
  · rw [if_pos hempty, hempty, resolve_of_plain (by decide)]
    rfl
  · rw [if_neg hempty]
    cases d.resolve settings key (Text.trim text) with
    | error e => rfl
    | ok filled => simp only [Except.map, List.head?_cons, Option.bind_some]

/-- What can be read as a text can be read as a list. -/
theorem exists_strings_of_resolve (h : d.valueOf key = .string text) {filled : String}
    (hfilled : d.resolve settings key text = .ok filled) :
    ∃ texts, d.strings settings key = .ok texts := by
  obtain ⟨front, back, -, -, -, hresolve⟩ := exists_resolve_trim settings d key text
  rw [hfilled] at hresolve
  obtain ⟨inner, hinner, -⟩ := exists_of_map_eq_ok hresolve.symm
  rw [strings_of_string h, hinner]
  split
  · exact ⟨[], rfl⟩
  · exact ⟨[inner], rfl⟩

theorem length_strings_le_one (h : d.valueOf key = .string text) {texts : List String}
    (htexts : d.strings settings key = .ok texts) : texts.length ≤ 1 := by
  rw [strings_of_string h] at htexts
  split_ifs at htexts with hempty
  · obtain rfl := Except.ok.inj htexts
    exact Nat.zero_le 1
  · obtain ⟨filled, -, rfl⟩ := exists_of_map_eq_ok htexts
    exact le_refl 1

/-- Both readings agree exactly if what the list holds is not blank and has no blanks around it. -/
theorem readsAlike_iff (h : d.valueOf key = .string text) {texts : List String}
    (htexts : d.strings settings key = .ok texts) :
    d.ReadsAlike settings key ↔ ∀ s ∈ texts, s ≠ "" ∧ Text.trim s = s := by
  have hlength := length_strings_le_one h htexts
  have hoptional : d.optional settings key = _ := optional_eq_map_strings h
  rw [htexts] at hoptional
  unfold ReadsAlike
  rw [htexts, hoptional]
  cases texts with
  | nil => exact ⟨nofun, fun _ => ⟨none, rfl, rfl⟩⟩
  | cons s rest =>
    -- one text holds one member at most
    obtain rfl : rest = [] := List.eq_nil_of_length_eq_zero (by simpa using hlength)
    rw [List.forall_mem_singleton, ← TextList.member?_eq_self_iff]
    constructor
    · rintro ⟨found, hfound, hlist⟩
      simp only [Except.map, List.head?_cons, Option.bind_some] at hfound
      have hmember : TextList.member? s = found := Except.ok.inj hfound
      rw [hmember]
      cases found with
      | none => cases hlist
      | some other => rw [(List.cons.inj (Except.ok.inj hlist)).1]
    · intro hmember
      refine ⟨some s, ?_, rfl⟩
      simp only [Except.map, List.head?_cons, Option.bind_some, hmember]

/-- The placeholders of the text stand for texts that are not empty and have no blanks around
them. -/
def FillsTightly (settings : Settings) (d : Description) (text : String) : Prop :=
  Template.FillsTightly (Template.scalar (settings.templateContext d.target)) text

theorem tight_of_resolve_trim (htight : d.FillsTightly settings text) (hne : Text.trim text ≠ "")
    {filled : String} (h : d.resolve settings key (Text.trim text) = .ok filled) :
    filled ≠ "" ∧ Text.trim filled = filled := by
  refine Template.tight_of_substitute ?_ hne (Text.trim_trim text) (resolve_eq_ok_iff.1 h)
  exact Template.fillsTightly_trim htight

/-- Whatever it is written as, an attribute that is one text reads as a list of at most one text,
and as a text it is that one, trimmed and unless it is blank. Both readings agree exactly if that
one is not blank and has no blanks around it, and so they do if no placeholder stands for nothing or
for a text with blanks around it. Under the same condition a list of texts is read as texts that are not
empty and have no blanks around them. The condition holds of every text if it holds of what the
templates of the target can name. -/
theorem reads_alike (settings : Settings) (d : Description) (key : String) :
    (∀ text, d.valueOf key = .string text →
      ∀ filled, d.resolve settings key text = .ok filled →
        ∃ texts, d.strings settings key = .ok texts ∧ texts.length ≤ 1 ∧
          d.optional settings key = .ok (texts.head?.bind TextList.member?) ∧
          (d.ReadsAlike settings key ↔ ∀ s ∈ texts, s ≠ "" ∧ Text.trim s = s) ∧
          (d.FillsTightly settings text → d.ReadsAlike settings key)) ∧
    (∀ (items texts : List String), d.valueOf key = .list (items.map .string) →
      d.strings settings key = .ok texts → (∀ item ∈ items, d.FillsTightly settings item) →
        ∀ s ∈ texts, s ≠ "" ∧ Text.trim s = s) ∧
    ((∀ s ∈ settings.templateTexts d.target, s ≠ "" ∧ Text.trim s = s) →
      ∀ text, d.FillsTightly settings text) := by
  refine ⟨?text, ?list, ?context⟩
  case text =>
    intro text hvalue filled hfilled
    obtain ⟨texts, htexts⟩ := exists_strings_of_resolve hvalue hfilled
    have hiff := readsAlike_iff hvalue htexts
    refine ⟨texts, htexts, length_strings_le_one hvalue htexts, ?_, hiff, ?_⟩
    · rw [optional_eq_map_strings hvalue, htexts]
      rfl
    · intro htight
      rw [hiff]
      rw [strings_of_string hvalue] at htexts
      split_ifs at htexts with hempty
      · obtain rfl := Except.ok.inj htexts
        exact nofun
      · obtain ⟨one, hone, rfl⟩ := exists_of_map_eq_ok htexts
        exact List.forall_mem_singleton.2 (tight_of_resolve_trim htight hempty hone)
  case list =>
    intro items texts hvalue htexts htight s hs
    -- a text of the list comes from an item that is not blank
    rw [strings_of_list hvalue] at htexts
    obtain ⟨member, hmember, hresolve⟩ := exists_of_mem_mapM htexts hs
    obtain ⟨item, hitem, hkept⟩ := List.mem_filterMap.1 hmember
    obtain ⟨hne, rfl⟩ := TextList.eq_trim_of_member? hkept
    exact tight_of_resolve_trim (htight item hitem) hne hresolve
  case context =>
    intro htight text content _ filled hfilled
    exact htight filled ((Settings.scalar_templateContext settings d.target _).of_eq_ok hfilled)

/-- Settings without any key in the configuration. -/
def plainSettings : Settings :=
  ⟨⟨.warning, none, "Makefile"⟩, ⟨".gen-obj", ".gen-files", ".gen-src", ".gen-pkg"⟩,
    ⟨"cc", "c++", [], [], [], "/usr/local"⟩⟩

/-- A library whose sources are written as one value. -/
def sourcesFrom (package : String) (value : Value) : Description :=
  ⟨"cc_library", ⟨package, "point"⟩, [(.string "sources", value)], none⟩

/-- A template between blanks, and the same one in a list with a blank text. -/
theorem reads_alike_sample :
    (sourcesFrom "shapes" (.string " \x7b\x7bpackage.name\x7d\x7d.c ")).ReadsAlike plainSettings
        "sources" ∧
      ∃ texts, (sourcesFrom "shapes" (.list [.string " \x7b\x7bpackage.name\x7d\x7d.c ",
          .string " "])).strings plainSettings "sources" = .ok texts ∧ texts = ["point.c"] ∧
        ∀ s ∈ texts, s ≠ "" ∧ Text.trim s = s := by
  have htexts : ∀ s ∈ plainSettings.templateTexts ⟨"shapes", "point"⟩,
      s ≠ "" ∧ Text.trim s = s := by decide +kernel
  constructor
  · obtain ⟨hone, -, htight⟩ := reads_alike plainSettings
      (sourcesFrom "shapes" (.string " \x7b\x7bpackage.name\x7d\x7d.c ")) "sources"
    obtain ⟨texts, -, -, -, -, hread⟩ :=
      hone _ rfl " point.c " (eq_ok_of_toOption (by decide +kernel))
    exact hread (htight htexts _)
  · obtain ⟨-, hlist, htight⟩ := reads_alike plainSettings
      (sourcesFrom "shapes" (.list [.string " \x7b\x7bpackage.name\x7d\x7d.c ", .string " "]))
      "sources"
    have hstrings := eq_ok_of_toOption (a := ["point.c"])
      (x := (sourcesFrom "shapes" (.list [.string " \x7b\x7bpackage.name\x7d\x7d.c ",
        .string " "])).strings plainSettings "sources") (by decide +kernel)
    exact ⟨_, hstrings, rfl, hlist [" \x7b\x7bpackage.name\x7d\x7d.c ", " "] _ rfl hstrings
      fun item _ => htight htexts item⟩

/-- In the root package, a text that is nothing but the path of the package is missing as a text and
an empty text as a list, written as one text or in a list. -/
theorem reads_apart :
    (sourcesFrom "" (.string "\x7b\x7bpackage.path\x7d\x7d")).optional plainSettings "sources" =
        .ok none ∧
      (sourcesFrom "" (.string "\x7b\x7bpackage.path\x7d\x7d")).strings plainSettings "sources" =
        .ok [""] ∧
      (sourcesFrom "" (.list [.string "\x7b\x7bpackage.path\x7d\x7d"])).strings plainSettings
        "sources" = .ok [""] := by
  refine ⟨?_, ?_, ?_⟩
  · exact eq_ok_of_toOption (by decide +kernel)
  · exact eq_ok_of_toOption (by decide +kernel)
  · exact eq_ok_of_toOption (by decide +kernel)

end Description

end Makewright
