import Makewright.Proofs.Generation.Contribution
import Makewright.Proofs.Generation.Footprint
import Makewright.Proofs.Makefile.Legible
import Makewright.Proofs.Text

/-!
# Writing the output

The output is replaced in one step. What a pass that writes leaves on the disk is what generating
leaves there (`Context.Fetches`) and, if it succeeds, the output with the whole text
(`Disk.Written`). A pass that fails creates no file, changes none and leaves none behind
(`Disk.Untouched`); all that it may have made are directories that lead to the output.

There is one exception. A text with a lone surrogate has no encoding, and writing it fails in a way
that the cleaning up does not expect. Then an empty file stays behind next to the output
(`Disk.Stranded`, `Context.write_of_refusal`).

`Context.write_outcome` puts the outcomes together, and `Context.write_stranded` shows the exception
with a flag that a build file writes as an escape.
-/

set_option autoImplicit false

namespace Makewright

open FileTree Stateful

/-- No file is new, changed or gone, and nothing but directories that lead to the location is new on
the disk. -/
structure Disk.Untouched (before after : Disk) (l : Location) : Prop where
  texts : ∀ place, after.files.textAt? place = before.files.textAt? place
  output : ∀ text, before.files.read l = .ok text → after.files.read l = .ok text
  directories : before.files.Furnished l.parent.Passes after.files
  repositories : after.repositories = before.repositories

/-- The file at the location holds the text; no other file is new, changed or gone, and besides,
nothing but directories that lead to the location is new on the disk. -/
structure Disk.Written (before after : Disk) (l : Location) (text : String) : Prop where
  output : after.files.read l = .ok text
  texts : ∀ place, place ≠ l.settled → after.files.textAt? place = before.files.textAt? place
  directories : ∀ place, place ≠ l.settled →
    after.files.standing? place = before.files.standing? place ∨
      l.parent.Passes place ∧ before.files.standing? place = none ∧
        after.files.standing? place = some .directory
  repositories : after.repositories = before.repositories

/-- A new empty file stands at the spare location, which is next to the other one; no other file is
new, changed or gone, and besides, nothing but directories that lead there is new on the disk. -/
structure Disk.Stranded (before after : Disk) (l spare : Location) : Prop where
  parent : spare.parent = l.parent
  fresh : before.files.standing? spare.settled = none
  empty : after.files.read spare = .ok ""
  texts : ∀ place, place ≠ spare.settled →
    after.files.textAt? place = before.files.textAt? place
  output : ∀ text, before.files.read l = .ok text → after.files.read l = .ok text
  directories : ∀ place, place ≠ spare.settled →
    after.files.standing? place = before.files.standing? place ∨
      l.parent.Passes place ∧ before.files.standing? place = none ∧
        after.files.standing? place = some .directory
  repositories : after.repositories = before.repositories

/-- The name of a spare file next to a location. -/
def Location.spareName (l : Location) (n : Nat) : String :=
  "." ++ l.name ++ "." ++ padDigits 8 n ++ ".tmp"

/-- An empty spare file has just been made in a furnished tree. -/
structure Disk.Spared (before after : Disk) (l : Location) (n : Nat) (made : FileTree)
    (around : List String) : Prop where
  furnished : before.files.Furnished l.parent.Passes made
  isOpen : made.IsOpen (l.parent.child (l.spareName n)) around (l.spareName n)
  free : made.standing? (around ++ [l.spareName n]) = none
  eq : after = { before with files := made.put (around ++ [l.spareName n]) (.file "") }

/-- What an error in writing a text leaves: no file is touched, or the text has no encoding and a
spare file stays behind. -/
inductive Disk.Unwritten (before after : Disk) (l : Location) (text : String) : BuildError → Prop
  | untouched {e : BuildError} (h : before.Untouched after l) : Unwritten before after l text e
  | stranded {r : Text.Refusal} {spare : Location} (hrefusal : Text.refusal? text = some r)
    (h : before.Stranded after l spare) : Unwritten before after l text (.scalar (.unencodable r))

/-- Directories are all that is new. -/
theorem Disk.untouched_of_furnished {disk : Disk} {files : FileTree} {l : Location}
    (h : disk.files.Furnished l.parent.Passes files) : disk.Untouched { disk with files } l := by
  refine ⟨h.textAt?_eq, fun old hold => ?_, h, rfl⟩
  obtain ⟨place, hwalk, hplace⟩ := read_eq_ok_iff.1 hold
  exact read_eq_ok_iff.2 ⟨place, h.grows.walk_eq_ok hwalk, h.grows place _ hplace⟩

theorem Disk.Untouched.refl (disk : Disk) (l : Location) : disk.Untouched disk l :=
  untouched_of_furnished (.refl _ disk.files)

namespace Pass

variable {l : Location} {before : Disk} {made : FileTree} {around : List String} {n : Nat}

/-- A spare location is next to the file and goes by another name. -/
theorem child_spareName (hl : l.WellFormed) (n : Nat) :
    l.parent.child (l.spareName n) = ⟨l.slashes, l.parts.dropLast ++ [l.spareName n]⟩ ∧
      l.parts.getLast? ≠ some (l.spareName n) := by
  have hlist : (l.spareName n).toList =
      '.' :: (l.name.toList ++ '.' :: ((padDigits 8 n).toList ++ ['.', 't', 'm', 'p'])) := by
    simp [Location.spareName]
  have hplain : Path.IsPlain (l.spareName n).toList := by
    have hdigits : '/' ∉ (padDigits 8 n).toList := by
      simp only [padDigits, String.toList_ofList, List.mem_append, not_or]
      refine ⟨fun hzero => absurd (List.eq_of_mem_replicate hzero) (by decide), ?_⟩
      exact Text.noSlash_toDigits (by decide) (by decide) n
    -- the letters at the end tell the name from a dot and from two
    have hletter : 't' ∈ (l.spareName n).toList := by
      simp [hlist]
    refine ⟨List.ne_nil_of_mem hletter, ?_, ?_, ?_⟩
    · intro h
      rw [h] at hletter
      exact absurd hletter (by decide)
    · intro h
      rw [h] at hletter
      exact absurd hletter (by decide)
    · simp [hlist, hl.noSlash_name, hdigits]
  refine ⟨Location.child_plain hplain, ?_⟩
  -- the spare name is longer
  intro hlast
  have hsame : l.name = l.spareName n := by
    rw [Location.name, List.getLastD_eq_getLast?, hlast, Option.getD_some]
  have hlength := congrArg List.length (hsame ▸ hlist)
  simp at hlength
  omega

theorem parent_child_spareName (hl : l.WellFormed) (n : Nat) :
    (l.parent.child (l.spareName n)).parent = l.parent := by
  rw [(child_spareName hl n).1, Location.parent, Location.parent, List.dropLast_concat]

/-- What filling the spare file leaves: the text under the other name, or the spare file with some
text or, if the text cannot be written, still without one. -/
theorem fillSpare_concludes {spare : Location} {name text : String} {s : Session}
    (hopen : made.IsOpen spare around name)
    (hfiles : s.disk.files = made.put (around ++ [name]) (.file "")) :
    Concludes
      (fun _ after => Text.refusal? text = none ∧ ∃ renamed,
        (made.put (around ++ [name]) (.file text)).rename spare l = .ok renamed ∧
          after.disk = { s.disk with files := renamed })
      (fun e after => (∃ r, Text.refusal? text = some r ∧ e = .scalar (.unencodable r) ∧
          after.disk = s.disk) ∨
        e.isFileFault ∧ ∃ content, after.disk =
          { s.disk with files := made.put (around ++ [name]) (.file content) })
      (fillSpare spare l text) s := by
  unfold fillSpare
  cases hrefusal : Text.refusal? text with
  | some r => exact .throw (.inl ⟨r, rfl, rfl, rfl⟩)
  | none =>
    have hwritten : Concludes
        (fun _ after => after.disk =
          { s.disk with files := made.put (around ++ [name]) (.file text) })
        (fun e after => e.isFileFault ∧ after.disk =
          { s.disk with files := made.put (around ++ [name]) (.file "") })
        (changeFiles (·.write spare text)) s := by
      apply changeFiles_concludes
      · intro written hwritten
        rw [hfiles] at hwritten
        rw [hopen.write_put hwritten]
      · intro e he
        exact ⟨isFileFault_of_write he, by rw [← hfiles]⟩
    apply hwritten.seq
    · exact fun e after hbad => .inr ⟨hbad.1, "", hbad.2⟩
    · intro _ between hbetween
      apply changeFiles_concludes
      · intro renamed hrenamed
        rw [hbetween] at hrenamed ⊢
        exact ⟨rfl, renamed, hrenamed, rfl⟩
      · exact fun e he => .inr ⟨isFileFault_of_rename he, text, hbetween⟩

/-- The spare file is left behind. -/
theorem stranded_of_spared {after : Disk} (hl : l.WellFormed)
    (h : before.Spared after l n made around) :
    before.Stranded after l (l.parent.child (l.spareName n)) := by
  obtain ⟨hmade, hopen, hfree, rfl⟩ := h
  have hne : around ++ [l.spareName n] ≠ [] := by simp
  have hgrows : made.Grows (made.put (around ++ [l.spareName n]) (.file "")) := grows_put hfree
  have hwalk := hopen.walk_eq_ok hgrows.keepsWays (by simp [standing?_put hne])
  have hplace := walk_settled hwalk
  have hothers : ∀ place, place ≠ (l.parent.child (l.spareName n)).settled →
      (made.put (around ++ [l.spareName n]) (.file "")).standing? place = made.standing? place := by
    intro place hother
    rw [standing?_put hne, hplace, if_neg hother]
  constructor
  · exact parent_child_spareName hl n
  · rcases hmade (l.parent.child (l.spareName n)).settled with hsame | ⟨-, hnone, -⟩
    · rw [← hsame, ← hplace, hfree]
    · exact hnone
  · exact read_eq_ok_iff.2 ⟨_, hwalk, by rw [standing?_put hne, if_pos rfl]⟩
  · intro place hother
    rw [textAt?_congr (hothers place hother), hmade.textAt?_eq]
  · -- the ways in the tree still lead where they led
    intro text htext
    obtain ⟨place, hold, htext⟩ := read_eq_ok_iff.1 htext
    have hstill := hgrows _ _ (hmade.grows _ _ htext)
    exact read_eq_ok_iff.2 ⟨place, hgrows.walk_eq_ok (hmade.grows.walk_eq_ok hold), hstill⟩
  · intro place hother
    rw [hothers place hother]
    exact hmade place
  · rfl

/-- The spare file, filled with the text, has been renamed. -/
theorem written_of_rename {after : Disk} {renamed : FileTree} {text : String} (hl : l.WellFormed)
    (h : before.Spared after l n made around)
    (hrenamed : (made.put (around ++ [l.spareName n]) (.file text)).rename
      (l.parent.child (l.spareName n)) l = .ok renamed) :
    before.Written { before with files := renamed } l text := by
  obtain ⟨hmade, hopen, hfree, -⟩ := h
  obtain ⟨place, hwalk, hreplaces⟩ := replaces_of_rename hopen hfree
    (parent_child_spareName hl n).symm (child_spareName hl n).2 hrenamed
  have hothers : ∀ other, other ≠ l.settled →
      renamed.standing? other = made.standing? other := by
    rw [← walk_settled hwalk]
    exact hreplaces.others
  constructor
  · exact read_eq_ok_iff.2 ⟨place, hwalk, hreplaces.output⟩
  · intro other hother
    rw [textAt?_congr (hothers other hother), hmade.textAt?_eq]
  · intro other hother
    change renamed.standing? other = _ ∨ _ ∧ _ ∧ renamed.standing? other = _
    rw [hothers other hother]
    exact hmade other
  · rfl

/-- Taking the spare file away leaves no file touched. -/
theorem untouched_of_unlink {after : Disk} {content : String}
    (h : before.Spared after l n made around) : before.Untouched { before with
      files := (made.put (around ++ [l.spareName n]) (.file content)).unlink
        (l.parent.child (l.spareName n)) } l := by
  apply Disk.untouched_of_furnished
  intro place
  rw [standing?_unlink h.isOpen h.free]
  exact h.furnished place

/-- The spare file is filled and renamed, or else it is taken away unless the text cannot be
written. -/
theorem fillSpare_handled {text : String} {s : Session} (hl : l.WellFormed)
    (h : before.Spared s.disk l n made around) :
    Concludes (fun _ after => Text.refusal? text = none ∧ before.Written after.disk l text)
      (fun e after => before.Unwritten after.disk l text e)
      (tryCatch (fillSpare (l.parent.child (l.spareName n)) l text)
        (abandon (l.parent.child (l.spareName n)))) s := by
  have hfiles : s.disk.files = made.put (around ++ [l.spareName n]) (.file "") := by rw [h.eq]
  apply Concludes.tryCatch
  apply (fillSpare_concludes h.isOpen hfiles).mono
  · rintro _ after ⟨hrefusal, renamed, hrenamed, hafter⟩
    rw [hafter, h.eq]
    exact ⟨hrefusal, written_of_rename hl h hrenamed⟩
  · rintro e after (⟨r, hrefusal, rfl, hafter⟩ | ⟨hfault, content, hafter⟩)
    · apply Concludes.throw
      rw [hafter]
      exact .stranded hrefusal (stranded_of_spared hl h)
    · -- the file system has refused something
      rw [abandon, if_pos hfault]
      have hcleared : Concludes (fun _ after => before.Untouched after.disk l)
          (fun e after => before.Unwritten after.disk l text e)
          (changeFiles fun files => .ok (files.unlink (l.parent.child (l.spareName n)))) after := by
        apply changeFiles_concludes
        · rintro _ ⟨⟩
          rw [hafter, h.eq]
          exact untouched_of_unlink h
        · rintro e ⟨⟩
      apply hcleared.andThen
      exact fun _ _ huntouched => .throw (.untouched huntouched)

/-- Making the spare file itself. -/
theorem create_concludes {s : Session} (hl : l.WellFormed)
    (hmade : before.files.Furnished l.parent.Passes made)
    (hs : s.disk = { before with files := made }) :
    Concludes (fun _ after => ∃ around, before.Spared after.disk l n made around)
      (fun _ after => before.Untouched after.disk l)
      (changeFiles (·.create (l.parent.child (l.spareName n)) "")) s := by
  apply changeFiles_concludes
  · intro created hcreate
    rw [hs] at hcreate ⊢
    obtain ⟨around, part, hopen, hfree, rfl⟩ := create_eq_ok hcreate
    obtain rfl : part = l.spareName n := by
      have hlast := hopen.last
      rw [(child_spareName hl n).1, List.getLast?_concat] at hlast
      exact (Option.some.inj hlast).symm
    exact ⟨around, hmade, hopen, hfree, rfl⟩
  · intro _ _
    rw [hs]
    exact Disk.untouched_of_furnished hmade

/-- A spare file is made next to the location, or no file is touched. -/
theorem makeSpare_concludes (hl : l.WellFormed) (s : Session) :
    Concludes
      (fun spare after => ∃ n made around, spare = l.parent.child (l.spareName n) ∧
        s.disk.Spared after.disk l n made around)
      (fun _ after => s.disk.Untouched after.disk l) (makeSpare l) s := by
  have hchecked : Concludes (fun _ after => s = after)
      (fun _ after => s.disk.Untouched after.disk l) (lift l.parent.checkName) s :=
    lift_concludes (fun _ _ => rfl) fun _ _ => .refl s.disk l
  apply hchecked.andThen
  rintro _ _ rfl
  have hfurnished : Concludes (fun _ after => ∃ made,
        s.disk.files.Furnished l.parent.Passes made ∧ after.disk = { s.disk with files := made })
      (fun _ after => s.disk.Untouched after.disk l)
      (changeFiles (·.makeDirectories l.parent)) s := by
    apply changeFiles_concludes
    · exact fun made hmade => ⟨made, makeDirectories_furnished hmade, rfl⟩
    · exact fun _ _ => .refl s.disk l
  apply hfurnished.andThen
  rintro _ between ⟨made, hmade, hbetween⟩
  apply Concludes.get_bind
  obtain ⟨n, hn⟩ : ∃ n, spareLocation between.disk.files l = l.parent.child (l.spareName n) :=
    ⟨_, rfl⟩
  dsimp only
  rw [hn]
  have hspareChecked : Concludes (fun _ after => between = after)
      (fun _ after => s.disk.Untouched after.disk l)
      (lift (l.parent.child (l.spareName n)).checkName) between := by
    apply lift_concludes
    · exact fun _ _ => rfl
    · intro _ _
      rw [hbetween]
      exact Disk.untouched_of_furnished hmade
  apply hspareChecked.andThen
  rintro _ _ rfl
  apply (create_concludes hl hmade hbetween).andThen
  rintro _ created ⟨around, hspared⟩
  exact .pure ⟨n, made, around, rfl, hspared⟩

/-- A file is replaced as a whole or not at all, but for a text that cannot be written. -/
theorem replaceFile_concludes (hl : l.WellFormed) (text : String) (s : Session) :
    Concludes (fun _ after => Text.refusal? text = none ∧ s.disk.Written after.disk l text)
      (fun e after => s.disk.Unwritten after.disk l text e) (replaceFile l text) s := by
  apply (makeSpare_concludes hl s).seq
  · exact fun e after huntouched => .untouched huntouched
  · rintro _ created ⟨n, made, around, rfl, hspared⟩
    exact fillSpare_handled hl hspared

end Pass

namespace Context

variable {ctx : Context}

/-- A text that can be written ends up in the output if the file system takes both steps. -/
theorem write_of_rename {output : Option String} {roots : List Target} {packages : List String}
    {s generated created filled renamed : Session} {text : String} {spare : Location}
    (htext : ctx.generate roots packages s = .ok text generated)
    (hspare : Pass.makeSpare (ctx.outputLocation output) generated = .ok spare created)
    (hrefusal : Text.refusal? text = none)
    (hfilled : Pass.changeFiles (·.write spare text) created = .ok () filled)
    (hrenamed : Pass.changeFiles (·.rename spare (ctx.outputLocation output)) filled =
      .ok () renamed) :
    ∃ after, ctx.write output roots packages s = .ok (ctx.outputLocation output) after := by
  have hfill : Pass.fillSpare spare (ctx.outputLocation output) text created = .ok () renamed := by
    rw [Pass.fillSpare, hrefusal]
    exact (bind_of_ok hfilled).trans hrenamed
  have hreplace : Pass.replaceFile (ctx.outputLocation output) text generated =
      .ok () renamed := by
    rw [Pass.replaceFile, bind_of_ok hspare, tryCatch_of_ok hfill]
  rw [write, bind_of_ok htext, bind_of_ok hreplace]
  exact ⟨_, rfl⟩

/-- A text that has no encoding is never written: the pass ends with an empty file next to the
output. -/
theorem write_of_refusal (hroot : ctx.workspace.root.WellFormed) {output : Option String}
    {roots : List Target} {packages : List String} {s generated created : Session} {text : String}
    {spare : Location} {refusal : Text.Refusal}
    (htext : ctx.generate roots packages s = .ok text generated)
    (hspare : Pass.makeSpare (ctx.outputLocation output) generated = .ok spare created)
    (hrefusal : Text.refusal? text = some refusal) :
    ctx.write output roots packages s = .error (.scalar (.unencodable refusal)) created ∧
      generated.disk.Stranded created.disk (ctx.outputLocation output) spare := by
  have hl : (ctx.outputLocation output).WellFormed := hroot.child _
  constructor
  · have hfill : Pass.fillSpare spare (ctx.outputLocation output) text =
        throw (.scalar (.unencodable refusal)) := by
      rw [Pass.fillSpare, hrefusal]
    have hreplace : Pass.replaceFile (ctx.outputLocation output) text generated =
        .error (.scalar (.unencodable refusal)) created := by
      rw [Pass.replaceFile, bind_of_ok hspare, hfill]
      rfl
    rw [write, bind_of_ok htext, bind_of_error hreplace]
  · obtain ⟨n, made, around, rfl, hspared⟩ := (Pass.makeSpare_concludes hl generated).ok hspare
    exact Pass.stranded_of_spared hl hspared

/-- A workspace whose executable is linked with a flag, which a build file holds as JSON writes
it. -/
def flagDisk (flag : String) : Disk :=
  ⟨⟨[(["work"], .directory),
    (["work", "BUILD.json"], .file ("\x7b\"targets\": [\x7b\"kind\": \"cc_binary\", " ++
      "\"name\": \"draw\", \"sources\": [\"draw.c\"], \"ldflags\": [\"" ++ flag ++
        "\"]\x7d]\x7d"))]⟩, []⟩

/-- The lines of the Makefile for that workspace in front of the one that links. -/
def linesBeforeFlag : List String :=
  ["# Generated by buildgen. Do not edit.", "", ".DEFAULT_GOAL := all", "PREFIX := /usr/local",
    "DESTDIR ?=", "OBJ_DIR := .gen-obj", "GEN_DIR := .gen-files", "PKG_DIR := .gen-pkg", "",
    "# C/C++ toolchain", "CC := cc", "CXX := c++", "CFLAGS :=", "CXXFLAGS :=",
    "CPPFLAGS := -I. -I.gen-files", "LDFLAGS :=", "", "# Executables",
    "BINDIR := $(PREFIX)/bin", "", "all: draw", "", ".gen-obj/draw.c.o: draw.c",
    "\t@mkdir -p $(@D)", "\t$(CC) $(CPPFLAGS) $(CFLAGS) -c draw.c -o $@", "",
    ".gen-pkg/draw: .gen-obj/draw.c.o", "\t@mkdir -p $(@D)"]

/-- The lines behind it. -/
def linesAfterFlag : List String :=
  ["", "draw: .gen-pkg/draw", "", "clean:", "\trm -rf .gen-obj .gen-files .gen-pkg", "",
    "install: .gen-pkg/draw", "\tmkdir -p $(DESTDIR)$(BINDIR)",
    "\tinstall -m 0755 .gen-pkg/draw $(DESTDIR)$(BINDIR)/draw", "",
    ".PHONY: install all draw clean"]

/-- The lines of the Makefile; the flag ends the one that links. -/
def flagLines (word : String) : List String :=
  linesBeforeFlag ++ ("\t$(CC) -o $@ .gen-obj/draw.c.o $(LDFLAGS) " ++ word) :: linesAfterFlag

def flagText (word : String) : String :=
  "\n".intercalate (flagLines word) ++ "\n"

theorem flagText_toList (word : String) :
    (flagText word).toList = Make.unlines ((flagLines word).map String.toList) :=
  Makefile.unlines_intercalate (flagLines word) (by simp [flagLines])

theorem outputLocation_none :
    Loading.sampleContext.outputLocation none = ⟨1, ["work", "Makefile"]⟩ := by
  decide +kernel

/-- Generating leaves the workspace as it is. -/
theorem disk_of_generate {flag text : String} {generated : Session}
    (h : Loading.sampleContext.generate [] [""] (.new (flagDisk flag) []) = .ok text generated) :
    generated.disk = flagDisk flag := by
  have hfetches := ((generate_keeps [] [""]).stateAfter
    (.refl Loading.sampleContext (.new (flagDisk flag) []))).disk
  rw [stateAfter_of_ok h] at hfetches
  exact hfetches.eq fun base hbase => by cases hbase

theorem refusal?_flagText {word : String}
    (h : ∀ line ∈ flagLines word, Text.surrogateMark ∉ line.toList) :
    Text.refusal? (flagText word) = none := by
  apply Text.refusal?_eq_none
  rw [flagText_toList]
  intro hmark
  obtain ⟨chars, hchars, hmark⟩ := List.mem_flatMap.1 hmark
  obtain ⟨line, hline, rfl⟩ := List.mem_map.1 hchars
  rcases List.mem_append.1 hmark with hmark | hmark
  · exact h line hline hmark
  · exact absurd (List.mem_singleton.1 hmark) (by decide)

/-- A flag with half a character as a rule writes it. -/
def halfWord : String :=
  "'-L" ++ String.ofList (Text.charsOfCode 0xD800) ++ "'"

theorem exists_refusal_halfWord : ∃ refusal, Text.refusal? (flagText halfWord) = some refusal := by
  have hhalf : Text.isSurrogate 0xD800 = true := by decide
  apply Text.exists_refusal? hhalf
  have hword : Text.charsOfCode 0xD800 <:+: halfWord.toList :=
    ⟨"'-L".toList, "'".toList, by simp only [halfWord, String.toList_append, String.toList_ofList]⟩
  obtain ⟨line, hline, hend⟩ : ∃ line ∈ flagLines halfWord, halfWord.toList <:+ line.toList := by
    refine ⟨_, List.mem_append_right _ List.mem_cons_self, ?_⟩
    rw [String.toList_append]
    exact List.suffix_append _ _
  have hin : line.toList ++ ['\n'] <:+: (flagText halfWord).toList := by
    rw [flagText_toList, Make.unlines, List.flatMap_def]
    apply List.infix_of_mem_flatten
    exact List.mem_map_of_mem (List.mem_map_of_mem hline)
  exact hword.trans (hend.isInfix.trans ((List.prefix_append _ _).isInfix.trans hin))

/-- Writing either puts the whole text into the output and touches no other file, or it touches no
file at all, with one exception: if the text has no encoding, an empty spare file may stay behind
next to the output, and the error says where the text cannot be encoded. What comes before is
generating, which changes the disk by fetching only. -/
theorem write_outcome (hroot : ctx.workspace.root.WellFormed) (output : Option String)
    (roots : List Target) (packages : List String) (s : Session) :
    ctx.Fetches s.recorder.script s.disk (stateAfter (ctx.generate roots packages) s).disk ∧
      Concludes
        (fun l after => l = ctx.outputLocation output ∧
          ∃ text generated, ctx.generate roots packages s = .ok text generated ∧
            Text.refusal? text = none ∧ generated.disk.Written after.disk l text)
        (fun e after =>
          (stateAfter (ctx.generate roots packages) s).disk.Untouched after.disk
              (ctx.outputLocation output) ∨
            ∃ text generated refusal spare, ctx.generate roots packages s = .ok text generated ∧
              Text.refusal? text = some refusal ∧ e = .scalar (.unencodable refusal) ∧
              generated.disk.Stranded after.disk (ctx.outputLocation output) spare)
        (ctx.write output roots packages) s := by
  constructor
  · exact ((generate_keeps roots packages).stateAfter (.refl ctx s)).disk
  apply Concludes.bind
  · intro text generated htext
    have hl : (ctx.outputLocation output).WellFormed := hroot.child _
    apply (Pass.replaceFile_concludes hl text generated).seq
    · rintro e after (huntouched | ⟨hrefusal, hstranded⟩)
      · rw [stateAfter_of_ok htext]
        exact .inl huntouched
      · exact .inr ⟨text, generated, _, _, htext, hrefusal, rfl, hstranded⟩
    · rintro _ after ⟨hrefusal, hwritten⟩
      -- the entry in the journal leaves the disk as it is
      apply Concludes.bind
      · rintro _ last ⟨⟩
        exact .pure ⟨rfl, text, generated, htext, hrefusal, hwritten⟩
      · rintro _ _ ⟨⟩
  · -- there is no text
    intro e generated htext
    rw [stateAfter_of_error htext]
    exact .inl (.refl generated.disk _)

/-- The Makefile of the workspace is written without a change to any of its files. -/
theorem write_outcome_sample :
    Loading.sampleContext.workspace.root.WellFormed ∧
      ∃ after generated,
        Loading.sampleContext.write none [] [""] (.new (flagDisk "-lm") []) =
          .ok ⟨1, ["work", "Makefile"]⟩ after ∧
        Loading.sampleContext.generate [] [""] (.new (flagDisk "-lm") []) =
          .ok (flagText "-lm") generated ∧
        Text.refusal? (flagText "-lm") = none ∧
        (flagDisk "-lm").Written after.disk ⟨1, ["work", "Makefile"]⟩ (flagText "-lm") := by
  have hroot : Loading.sampleContext.workspace.root.WellFormed :=
    Location.wellFormed_parse "/work"
  have hlines : ∀ line ∈ flagLines "-lm", Text.surrogateMark ∉ line.toList := by
    decide +kernel
  have hrefusal := refusal?_flagText hlines
  have hsteps : (outcome (do
      let text ← Loading.sampleContext.generate [] [""]
      let spare ← Pass.makeSpare ⟨1, ["work", "Makefile"]⟩
      Pass.changeFiles (·.write spare text)
      Pass.changeFiles (·.rename spare ⟨1, ["work", "Makefile"]⟩)
      pure text) (.new (flagDisk "-lm") [])).toOption = some (flagText "-lm") := by
    decide +kernel
  obtain ⟨last, hsteps⟩ := exists_of_outcome hsteps
  obtain ⟨text, generated, htext, hsteps⟩ := exists_between_of_bind hsteps
  obtain ⟨spare, created, hspare, hsteps⟩ := exists_between_of_bind hsteps
  obtain ⟨⟨⟩, filled, hfilled, hsteps⟩ := exists_between_of_bind hsteps
  obtain ⟨⟨⟩, renamed, hrenamed, hlast⟩ := exists_between_of_bind hsteps
  obtain ⟨rfl, rfl⟩ := EStateM.Result.ok.inj hlast
  rw [← outputLocation_none] at hspare hrenamed
  obtain ⟨after, hwrite⟩ := write_of_rename htext hspare hrefusal hfilled hrenamed
  obtain ⟨-, hends⟩ := write_outcome hroot none [] [""] (.new (flagDisk "-lm") [])
  obtain ⟨-, text, generated', htext', -, hwritten⟩ := hends.ok hwrite
  obtain ⟨rfl, rfl⟩ := EStateM.Result.ok.inj (htext.symm.trans htext')
  rw [disk_of_generate htext] at hwritten
  exact ⟨hroot, after, generated, hwrite, htext, hrefusal, hwritten⟩

/-- A flag with half a character keeps the Makefile from being written, and a file that was not
there before stays behind next to the output. -/
theorem write_stranded :
    ∃ refusal after,
      Loading.sampleContext.write none [] [""] (.new (flagDisk "-L\\ud800") []) =
        .error (.scalar (.unencodable refusal)) after ∧
      (flagDisk "-L\\ud800").Stranded after.disk ⟨1, ["work", "Makefile"]⟩
        ⟨1, ["work", ".Makefile.00000000.tmp"]⟩ := by
  have hroot : Loading.sampleContext.workspace.root.WellFormed :=
    Location.wellFormed_parse "/work"
  have hsteps : (outcome (do
      let text ← Loading.sampleContext.generate [] [""]
      let spare ← Pass.makeSpare (Loading.sampleContext.outputLocation none)
      pure (text, spare)) (.new (flagDisk "-L\\ud800") [])).toOption =
        some (flagText halfWord, ⟨1, ["work", ".Makefile.00000000.tmp"]⟩) := by
    decide +kernel
  obtain ⟨created, hsteps⟩ := exists_of_outcome hsteps
  obtain ⟨text, generated, htext, hsteps⟩ := exists_between_of_bind hsteps
  obtain ⟨spare, created, hspare, hlast⟩ := exists_between_of_bind hsteps
  obtain ⟨hsame, rfl⟩ := EStateM.Result.ok.inj hlast
  obtain ⟨rfl, rfl⟩ := Prod.mk.inj hsame
  obtain ⟨refusal, hrefusal⟩ := exists_refusal_halfWord
  obtain ⟨hwrite, hstranded⟩ := write_of_refusal hroot htext hspare hrefusal
  rw [disk_of_generate htext, outputLocation_none] at hstranded
  exact ⟨refusal, created, hwrite, hstranded⟩

end Context

end Makewright
