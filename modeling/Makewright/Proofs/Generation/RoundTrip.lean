import Makewright.Proofs.Generation.HeadLines
import Makewright.Proofs.Generation.Legible
import Makewright.Proofs.Generation.Selection

/-!
# The text means what the Makefile says

Generating gives a text that make reads back as the Makefile: its rules, each with its prerequisites
and its recipe, and its phony names (`Context.generate_reads_back`). What the settings and the nodes
name has to be words for that and must not break a line. Nothing sees to it: the name of a target
may hold a blank, and no word that make reads does (`Make.read_words`), so that such a target is
taken for two (`Context.generate_splits_name`).
-/

set_option autoImplicit false

namespace Makewright

namespace Make

/-! ## Words -/

/-- The text is not empty and no blank stands in it. -/
def IsUnsplit (text : String) : Prop :=
  text ≠ "" ∧ ∀ c ∈ text.toList, isBlank c = false

theorem isUnsplit_of_mem_wordsFrom {s word : List Char} {found : String}
    (hword : ∀ c ∈ word, isBlank c = false) (h : found ∈ wordsFrom word s) : IsUnsplit found := by
  -- a word that has been begun and holds no blank
  have hbegun : ∀ text : List Char, (∀ c ∈ text, isBlank c = false) →
      ∀ found ∈ (if text.isEmpty then [] else [String.ofList text]), IsUnsplit found := by
    intro text htext found hfound
    -- a blank ends the word, and any other character joins it
    split at hfound
    · cases hfound
    · next hne =>
      rw [List.mem_singleton.1 hfound]
      refine ⟨?_, by simpa using htext⟩
      simpa [← String.toList_eq_nil_iff] using hne
  induction s generalizing word with
  | nil => exact hbegun word hword found h
  | cons c rest ih =>
    rw [wordsFrom] at h
    split at h
    · rcases List.mem_append.1 h with h | h
      · exact hbegun word hword found h
      · exact ih (by simp) h
    · next hblank =>
      refine ih ?_ h
      intro d hd
      rcases List.mem_append.1 hd with hd | hd
      · exact hword d hd
      · rw [List.mem_singleton.1 hd]
        simpa using hblank

/-- Everything that the rules name is a word. -/
def Reading.Worded (r : Reading) : Prop :=
  ∀ entry ∈ r.entries, ∀ name ∈ entry.targets ++ entry.prerequisites, IsUnsplit name

/-- A line leaves a reading of words. -/
theorem Reading.Worded.line {r after : Reading} (h : r.Worded) {text : List Char}
    (hline : r.line text = some after) : after.Worded := by
  unfold Reading.line at hline
  split at hline
  · -- a command is kept as it is
    next command entry earlier hentries =>
    cases hline
    rw [Worded, hentries, List.forall_mem_cons] at h
    rw [Worded, List.forall_mem_cons]
    exact ⟨h.1, h.2⟩
  · dsimp only at hline
    split at hline
    · cases hline
      exact h
    · -- only a rule has names, and they are words
      unfold Reading.statement at hline
      split at hline
      · obtain ⟨values, -, rfl⟩ := Option.map_eq_some_iff.1 hline
        exact h
      · simp only [Option.bind_eq_bind, Option.bind_eq_some_iff, Option.some.injEq] at hline
        obtain ⟨expanded, -, ⟨targets, prerequisites⟩, -, rfl⟩ := hline
        rw [Worded, List.forall_mem_cons]
        refine ⟨fun name hname => ?_, h⟩
        rcases List.mem_append.1 hname with hname | hname
        · exact isUnsplit_of_mem_wordsFrom (by simp) hname
        · exact isUnsplit_of_mem_wordsFrom (by simp) hname

/-- Whatever the text, the targets and prerequisites that make reads are words. -/
theorem read_words {given : Values} {text : List Char} {r : Reading}
    (h : read given text = some r) : r.Worded := by
  have hlines : ∀ (lines : List (List Char)) (start : Reading), start.Worded →
      lines.foldlM Reading.line start = some r → r.Worded := by
    intro lines
    induction lines with
    | nil =>
      intro start hstart hfold
      cases hfold
      exact hstart
    | cons first rest ih =>
      intro start hstart hfold
      rw [List.foldlM_cons] at hfold
      obtain ⟨next, hnext, hrest⟩ := Option.bind_eq_some_iff.1 hfold
      exact ih next (hstart.line hnext) hrest
  exact hlines _ ⟨given, []⟩ (by simp [Reading.Worded]) h

/-! ## Values of variables -/

/-- The text can be the value of a variable: it fills a line, and the references in front of its
comment have ends. -/
structure IsSetting (text : List Char) : Prop where
  isLine : IsLine text
  expands : ∀ value, ∃ expanded,
    expand value ((uncommented 0 text).dropWhile isBlank) = some expanded

theorem mem_uncommented {s : List Char} {slashes : Nat} {c : Char}
    (h : c ∈ uncommented slashes s) : c = '\\' ∨ c ∈ s := by
  induction s generalizing slashes with
  | nil => exact .inl (List.eq_of_mem_replicate h)
  | cons d rest ih =>
    have hrest : ∀ n, c ∈ uncommented n rest → c = '\\' ∨ c ∈ d :: rest := fun n hmem =>
      (ih hmem).imp id (List.mem_cons_of_mem d)
    rw [uncommented] at h
    -- backslashes are counted, so they may stand anywhere in front of a character
    split at h
    · exact hrest _ h
    · split at h
      · rcases List.mem_append.1 h with h | h
        · exact .inl (List.eq_of_mem_replicate h)
        · split at h
          · rcases List.mem_cons.1 h with rfl | h
            · exact .inr List.mem_cons_self
            · exact hrest 0 h
          · cases h
      · rcases List.mem_append.1 h with h | h
        · exact .inl (List.eq_of_mem_replicate h)
        · rcases List.mem_cons.1 h with rfl | h
          · exact .inr List.mem_cons_self
          · exact hrest 0 h

/-- A text without references. -/
theorem IsSetting.of_isLine {text : List Char} (h : IsLine text) (hreference : '$' ∉ text) :
    IsSetting text := by
  refine ⟨h, fun value => ⟨_, Expands.expand_eq (.plain fun hmem => ?_)⟩⟩
  rcases mem_uncommented ((List.dropWhile_sublist _).subset hmem) with hmem | hmem
  · exact absurd hmem (by decide)
  · exact hreference hmem

end Make

open Make Makefile

/-- The directories are words, and make can take the other settings for values of variables. -/
structure Settings.Legible (s : Settings) : Prop where
  dirs : s.dirs.Named isVerbatim
  values : ∀ text ∈ [s.toolchain.cc, s.toolchain.cxx, s.toolchain.installRoot,
    Shell.commandLine s.toolchain.cflags, Shell.commandLine s.toolchain.cxxflags,
    Shell.commandLine s.toolchain.ldflags], IsSetting text.toList

namespace Settings.Legible

variable {s : Settings}

/-- A directory that is a word can be the value of a variable. -/
theorem directory (h : s.Legible) :
    ∀ name ∈ [s.dirs.objectDir, s.dirs.genfileDir, s.dirs.pkgfileDir], IsSetting name.toList := by
  have hword : ∀ {name : String}, IsWord name → IsSetting name.toList := fun hname =>
    .of_isLine hname.isLine (hname.not_mem (by decide))
  simp only [List.forall_mem_cons]
  exact ⟨hword h.dirs.objectDir, hword h.dirs.genfileDir, hword h.dirs.pkgfileDir, by simp⟩

theorem unbroken (h : s.Legible) : s.Unbroken := by
  have hvalues := h.values
  have hdirs := h.directory
  simp only [List.forall_mem_cons] at hvalues hdirs
  obtain ⟨hcc, hcxx, hroot, hcflags, hcxxflags, hldflags, -⟩ := hvalues
  obtain ⟨hobjects, hgenerated, hpackages, -⟩ := hdirs
  -- a line break in a flag would stand between its quotes
  have hflags : ∀ flags, IsSetting (Shell.commandLine flags).toList →
      ∀ flag ∈ flags, '\n' ∉ flag.toList := by
    intro flags hline flag hflag hbreak
    refine hline.isLine.unbroken ?_
    have hquoted : '\n' ∈ (Shell.quote flag).toList := by
      rw [Shell.quote, String.toList_ofList]
      exact Shell.subset_quoteList _ hbreak
    rw [Shell.commandLine, String.toList_intercalate]
    exact Text.mem_intercalate_of_mem _
      (List.mem_map_of_mem (List.mem_map_of_mem hflag)) hquoted
  refine ⟨?_, ?_⟩
  · simp only [List.forall_mem_cons]
    exact ⟨hcc.isLine, hcxx.isLine, hroot.isLine, hobjects.isLine, hgenerated.isLine,
      hpackages.isLine, by simp⟩
  · simp only [List.forall_mem_append]
    exact ⟨⟨hflags _ hcflags, hflags _ hcxxflags⟩, hflags _ hldflags⟩

theorem settingsExpand (h : s.Legible) : SettingsExpand s := by
  refine ⟨fun text htext => ?_⟩
  simp only [List.mem_cons, List.not_mem_nil, or_false] at htext
  have hknown : text ∈ [s.toolchain.cc, s.toolchain.cxx, s.toolchain.installRoot,
      Shell.commandLine s.toolchain.cflags, Shell.commandLine s.toolchain.cxxflags,
      Shell.commandLine s.toolchain.ldflags] ∨
      text ∈ [s.dirs.objectDir, s.dirs.genfileDir, s.dirs.pkgfileDir] := by
    simp only [List.mem_cons, List.not_mem_nil, or_false]
    tauto
  rcases hknown with hknown | hknown
  · exact (h.values text hknown).expands
  · exact (h.directory text hknown).expands

end Settings.Legible

namespace Context

variable {ctx : Context} {session : Session} {roots : List Target} {packages : List String}
  {g settled : Graph} {m : Makefile}

/-- What a selection makes can be read back if it is made of words. -/
theorem Makes.legible (h : ctx.Makes session roots packages g m settled)
    (hregistry : ctx.registry = .standard) (hsettings : ctx.workspace.settings.Legible)
    (hnodes : ∀ node ∈ g.nodes, node.Legible) : m.Legible ∧
      ∀ given, ∃ values, ((m.heads.flatMap Prod.snd).map String.toList).foldlM Reading.line
        ⟨given, []⟩ = some ⟨values, []⟩ := by
  obtain ⟨nodes, hresolve, -⟩ := assembled_of_ofGraph h.made
  have hmade := h.made
  rw [ofGraph_eq ctx hresolve, Prod.mk.injEq] at hmade
  have hfronted := fronted_of_assemble hregistry (assemble_of_ofNodes hmade.1)
  have hfront := hfronted.stacked.isFront hsettings.unbroken
  constructor
  · exact legible_of_ofNodes hregistry (closures_of_resolve hresolve) hsettings.dirs hnodes hmade.1
      fun head hhead line hline => (hfront head hhead line hline).1
  · exact hfronted.stacked.exists_foldlM_heads hsettings.unbroken hsettings.settingsExpand

/-- Make reads in the text that generating gives the rules, the prerequisites, the recipes and the
phony names of the Makefile, if all that is named is words and no flag breaks a line; every target
and every prerequisite is then a word. -/
theorem generate_reads_back (hregistry : ctx.registry = .standard)
    (hsettings : ctx.workspace.settings.Legible) {text : String} {after later : Session}
    (h : ctx.generate roots packages session = .ok text after)
    (hload : Loading.load ctx roots packages ⟨.empty, session⟩ = .ok () ⟨g, later⟩)
    (hnodes : ∀ node ∈ g.nodes, node.Legible) (given : Values) :
    ∃ m settled values, ctx.Makes session roots packages g m settled ∧ text = m.serialize ∧
      Make.read given text.toList = some (m.reading values) ∧
      ∀ rule ∈ m.allRules, ∀ name ∈ rule.target :: rule.prerequisites,
        wordsFrom [] name.toList = [name] := by
  obtain ⟨g', m, settled, hmakes, rfl⟩ := generate_eq_ok_iff.1 ⟨after, h⟩
  obtain rfl : g = g' := by
    obtain ⟨later', hload'⟩ := hmakes.loads
    rw [hload, EStateM.Result.ok.injEq, Loading.mk.injEq] at hload'
    exact hload'.2.1
  obtain ⟨hlegible, hheads⟩ := hmakes.legible hregistry hsettings hnodes
  obtain ⟨values, hvalues⟩ := hheads given
  refine ⟨m, settled, values, hmakes, rfl, read_serialize hlegible hvalues, ?_⟩
  intro rule hrule name hname
  have hrule := hlegible.rules rule hrule
  rcases List.mem_cons.1 hname with rfl | hname
  · exact hrule.target.wordsFrom
  · exact (hrule.prerequisites name hname).wordsFrom

/-- A session at the start of a pass over a workspace with one build file, which declares a program
with this name and these flags. -/
def programSession (name flags : String) : Session :=
  .new ⟨⟨[(["work"], .directory),
    (["work", "BUILD.toml"], .file ("[[targets]]\nkind = 'cc_binary'\nname = \"" ++ name ++
      "\"\nsources = ['tool.c']\ncflags = [" ++ flags ++ "]\n"))]⟩, []⟩ []

/-- A program with a quote in its name and a reference in its flags is read back. -/
theorem generate_reads_back_sample :
    ∃ text after g later, Loading.sampleContext.registry = .standard ∧
      Loading.sampleContext.workspace.settings.Legible ∧
      Loading.sampleContext.generate [] [""] (programSession "it's" "'-DHOME=$HOME'") =
        .ok text after ∧
      Loading.load Loading.sampleContext [] [""] ⟨.empty, programSession "it's" "'-DHOME=$HOME'"⟩ =
        .ok () ⟨g, later⟩ ∧
      (∀ node ∈ g.nodes, node.Legible) ∧ ∃ m settled values,
        Loading.sampleContext.Makes (programSession "it's" "'-DHOME=$HOME'") [] [""] g m settled ∧
        text = m.serialize ∧ Make.read [] text.toList = some (m.reading values) ∧
        ∀ rule ∈ m.allRules, ∀ name ∈ rule.target :: rule.prerequisites,
          wordsFrom [] name.toList = [name] := by
  have hchecked : Loading.sampleContext.checkMade (programSession "it's" "'-DHOME=$HOME'") [] [""]
      (fun g _ => decide (∀ node ∈ g.nodes, node.Legible)) = true := by
    decide +kernel
  have hsettings : Loading.sampleContext.workspace.settings.Legible := by
    have hvalues : ∀ text ∈ ["cc", "c++", "/usr/local", ""],
        IsLine text.toList ∧ '$' ∉ text.toList := by
      decide
    refine ⟨⟨by decide, by decide, by decide⟩, fun text htext => ?_⟩
    have hmem : text ∈ ["cc", "c++", "/usr/local", ""] := by
      simpa [Loading.sampleContext, Shell.commandLine] using htext
    exact .of_isLine (hvalues text hmem).1 (hvalues text hmem).2
  obtain ⟨g, later, m, settled, hload, hmakes, hnodes⟩ := exists_makes_of_check hchecked
  have hlegible : ∀ node ∈ g.nodes, node.Legible := of_decide_eq_true hnodes
  obtain ⟨after, hgenerate⟩ := generate_eq_ok_iff.2 ⟨g, m, settled, hmakes, rfl⟩
  exact ⟨_, after, g, later, rfl, hsettings, hgenerate, hload, hlegible,
    generate_reads_back rfl hsettings hgenerate hload hlegible []⟩

/-- A name with a blank is accepted, and make reads the text as some other Makefile: the target of
the rule for it is no word. -/
theorem generate_splits_name :
    ∃ text after g m settled, Loading.sampleContext.registry = .standard ∧
      Loading.sampleContext.generate [] [""] (programSession "my tool" "") = .ok text after ∧
      Loading.sampleContext.Makes (programSession "my tool" "") [] [""] g m settled ∧
      text = m.serialize ∧
      ∀ given values, Make.read given text.toList ≠ some (m.reading values) := by
  have hchecked : Loading.sampleContext.checkMade (programSession "my tool" "") [] [""]
      (fun _ m => decide ("my tool" ∈ m.phony)) = true := by
    decide +kernel
  obtain ⟨g, later, m, settled, -, hmakes, hphony⟩ := exists_makes_of_check hchecked
  obtain ⟨after, hgenerate⟩ := generate_eq_ok_iff.2 ⟨g, m, settled, hmakes, rfl⟩
  refine ⟨_, after, g, m, settled, rfl, hgenerate, hmakes, rfl, ?_⟩
  intro given values hread
  have hword : IsUnsplit "my tool" := by
    refine read_words hread _ List.mem_cons_self _ (List.mem_append_right _ ?_)
    exact of_decide_eq_true hphony
  exact absurd (hword.2 ' ' (by decide)) (by decide)

end Context

end Makewright
