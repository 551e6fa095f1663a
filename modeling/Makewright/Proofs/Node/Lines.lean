import Makewright.Proofs.Makefile.Definitions
import Makewright.Proofs.Node.Naming

/-!
# The lines of a node

A node is `Legible` if everything that its rules name is a single word to make and no flag of it
breaks a line. The commands of its rules are single lines then (`Node.Legible.lined_recipes`), and
so are the commands that install what it makes (`Node.Legible.lined_installPart`).
-/

set_option autoImplicit false

namespace Makewright

open Make

variable {dirs : GeneratedDirs} {node : Node} {closure : List Node} {recipes : List Recipe}

/-- The texts that the commands of a body hand on beside the names of files. -/
def Body.texts : Body → List String
  | .library c | .binary c | .sharedLibrary c _ => c.cflags ++ c.cxxflags
  | .autoconf spec =>
    spec.sourceDir :: spec.configureArgs ++ spec.makeTargets
      ++ spec.configureEnv.flatMap fun setting => [setting.1, setting.2]
  | .listing _ => []

/-- The rules of the node name files by words, and their commands are single lines. -/
structure Node.Legible (node : Node) : Prop where
  named : node.Named isVerbatim
  unbroken : ∀ text ∈ node.ldflags ++ node.body.texts, '\n' ∉ text.toList

instance (p : Char → Bool) (node : Node) : Decidable (node.Named p) :=
  decidable_of_iff ((∀ c ∈ node.target.package.toList, p c = true) ∧
      IsMadeOf p node.target.name ∧ ∀ path ∈ node.inputFiles, IsMadeOf p path)
    ⟨fun h => ⟨h.1, h.2.1, h.2.2⟩, fun h => ⟨h.1, h.2, h.3⟩⟩

instance (node : Node) : Decidable node.Legible :=
  decidable_of_iff (node.Named isVerbatim ∧
      ∀ text ∈ node.ldflags ++ node.body.texts, '\n' ∉ text.toList)
    ⟨fun h => ⟨h.1, h.2⟩, fun h => ⟨h.1, h.2⟩⟩

theorem Node.Legible.ldflags (h : node.Legible) : ∀ flag ∈ node.ldflags, '\n' ∉ flag.toList :=
  fun flag hflag => h.unbroken flag (List.mem_append_left _ hflag)

theorem Node.Legible.texts (h : node.Legible) : ∀ text ∈ node.body.texts, '\n' ∉ text.toList :=
  fun text htext => h.unbroken text (List.mem_append_right _ htext)

/-! ## The commands of a node -/

/-- The words make one line: none of them breaks it. -/
def Lined (words : List Word) : Prop :=
  ∀ w ∈ words, IsLine w.text.toList

namespace Lined

variable {words more : List Word}

theorem isLine (h : Lined words) : IsLine (Word.line words).toList := by
  rw [Word.line, String.toList_intercalate, List.map_map]
  refine .intercalate (.of_forall (by decide)) fun text htext => ?_
  obtain ⟨w, hw, rfl⟩ := List.mem_map.1 htext
  exact h w hw

theorem append (h : Lined words) (hmore : Lined more) : Lined (words ++ more) :=
  List.forall_mem_append.2 ⟨h, hmore⟩

/-- Words that stand as they are. -/
theorem plains (texts : List String)
    (h : ∀ text ∈ texts, ∀ c ∈ text.toList, c ≠ '\n' ∧ c ≠ '\\') :
    Lined (texts.map Word.plain) := by
  intro w hw
  obtain ⟨text, htext, rfl⟩ := List.mem_map.1 hw
  exact .of_forall (h text htext)

theorem word {text : String} (h : IsLine text.toList) : Lined [.plain text] := by
  intro w hw
  exact List.mem_singleton.1 hw ▸ h

theorem name {path : String} (h : IsWord path) : Lined [.plain path] :=
  word h.isLine

theorem flags {flags : List String} (h : ∀ flag ∈ flags, '\n' ∉ flag.toList) :
    Lined (flags.map Word.flag) := by
  intro w hw
  obtain ⟨flag, hflag, rfl⟩ := List.mem_map.1 hw
  exact isLine_quote (h flag hflag)

theorem files {files : List Resource} (h : ∀ r ∈ files, IsWord r.fullPath)
    (option : String) (hoption : ∀ c ∈ option.toList, c ≠ '\n' ∧ c ≠ '\\') :
    Lined (files.map (Word.file · option)) := by
  intro w hw
  obtain ⟨r, hr, rfl⟩ := List.mem_map.1 hw
  rw [Word.text, String.toList_append]
  exact (IsLine.of_forall hoption).append (h r hr).isLine

theorem file {r : Resource} (h : IsWord r.fullPath) : Lined [.file r] := by
  simpa using files (List.forall_mem_singleton.2 h) "" (by decide)

theorem makeOwnDir : Lined makeOwnDir :=
  .plains ["@mkdir -p $(@D)"] (by decide)

variable {c : Compilation} {spec : SharedSpec} {inputs : FileSet}

theorem compileLine (h : ∀ flag ∈ c.cflags ++ c.cxxflags, '\n' ∉ flag.toList) {source : Resource}
    (hsource : IsWord source.fullPath) (language : Language) :
    Lined (Node.compileLine c source language) := by
  unfold Node.compileLine
  refine append ?_ ((plains ["-c"] (by decide)).append
    ((file hsource).append (plains ["-o", "$@"] (by decide))))
  split
  · exact (plains ["$(CXX)", "$(CPPFLAGS)", "$(CXXFLAGS)"] (by decide)).append
      (flags fun flag hflag => h flag (List.mem_append_right _ hflag))
  · exact (plains ["$(CC)", "$(CPPFLAGS)", "$(CFLAGS)"] (by decide)).append
      (flags fun flag hflag => h flag (List.mem_append_left _ hflag))

theorem linker (inputs : FileSet) : Lined [.plain (Node.linker inputs)] := by
  unfold Node.linker
  split
  · exact plains ["$(CXX)"] (by decide)
  · exact plains ["$(CC)"] (by decide)

theorem linkTail (h : ∀ next ∈ node :: closure, next.Legible) : Lined (node.linkTail closure) := by
  refine (plains ["$(LDFLAGS)"] (by decide)).append (flags fun flag hflag => ?_)
  rw [Node.collectLdflags, mem_distinct] at hflag
  obtain ⟨next, hnext, hflag⟩ := List.mem_flatMap.1 hflag
  exact (h next hnext).ldflags flag hflag

theorem compileRecipes (hpaths : ∀ path ∈ c.inputFiles, IsWord path)
    (hflags : ∀ flag ∈ c.cflags ++ c.cxxflags, '\n' ∉ flag.toList) :
    ∀ recipe ∈ Node.compileRecipes dirs c closure, ∀ words ∈ recipe.lines, Lined words := by
  intro recipe hrecipe
  obtain ⟨⟨source, language⟩, hentry, rfl⟩ := List.mem_map.1 hrecipe
  have hsource : IsWord source.fullPath := by
    refine hpaths _ (List.mem_append_left _ (FileSet.mem_paths.2 ⟨source, ?_, rfl⟩))
    exact List.mem_map.2 ⟨_, hentry, rfl⟩
  simp only [Node.compileRecipe, List.forall_mem_cons]
  exact ⟨makeOwnDir, compileLine hflags hsource language, by simp⟩

/-- The link inputs are words if the recipe waits for words only, since it waits for them. -/
theorem linkBinary (htail : Lined (node.linkTail closure))
    (hwaits : ∀ name ∈ (Node.linkBinary dirs node inputs closure).prerequisites, IsWord name) :
    ∀ words ∈ (Node.linkBinary dirs node inputs closure).lines, Lined words := by
  have hinputs : ∀ r ∈ inputs.toList, IsWord r.fullPath := fun r hr =>
    hwaits _ (List.mem_append_left _ (FileSet.mem_paths.2 ⟨r, hr, rfl⟩))
  simp only [Node.linkBinary, List.forall_mem_cons]
  refine ⟨makeOwnDir, ?_, by simp⟩
  exact (((linker inputs).append (plains ["-o", "$@"] (by decide))).append
    (files hinputs "" (by decide))).append htail

theorem linkShared (hsoname : IsWord (spec.soname node.target))
    (htail : Lined (node.linkTail closure))
    (hwaits : ∀ name ∈ (Node.linkShared dirs node spec inputs closure).prerequisites,
      IsWord name) :
    ∀ words ∈ (Node.linkShared dirs node spec inputs closure).lines, Lined words := by
  simp only [Node.linkShared, List.forall_mem_append] at hwaits
  have hinputs : ∀ r ∈ inputs.toList, IsWord r.fullPath := fun r hr =>
    hwaits.1.1 _ (FileSet.mem_paths.2 ⟨r, hr, rfl⟩)
  have hsymbols : ∀ r ∈ spec.exportedSymbols.toList, IsWord r.fullPath := fun r hr =>
    hwaits.2 _ (List.mem_map_of_mem hr)
  have hoption : Lined [.plain ("-Wl,-soname," ++ spec.soname node.target)] := by
    have hfront : IsLine "-Wl,-soname,".toList := .of_forall (by decide)
    exact word (by simpa using hfront.append hsoname.isLine)
  simp only [Node.linkShared, List.forall_mem_cons]
  refine ⟨makeOwnDir, ?_, by simp⟩
  exact (((((linker inputs).append (plains ["$(SHARED_LDFLAGS)", "-o", "$@"] (by decide))).append
    (files hinputs "" (by decide))).append hoption).append
      (files hsymbols "-Wl,--version-script=" (by decide))).append htail

theorem aliasRecipes {previous : Resource} {links : List Resource}
    (h : ∀ r ∈ previous :: links, IsWord r.fullPath) :
    ∀ recipe ∈ Node.aliasRecipes previous links, ∀ words ∈ recipe.lines, Lined words := by
  induction links generalizing previous with
  | nil => simp [Node.aliasRecipes]
  | cons link rest ih =>
    rw [List.forall_mem_cons] at h
    rw [Node.aliasRecipes, List.forall_mem_cons]
    refine ⟨?_, ih h.2⟩
    intro words hwords
    rw [List.mem_singleton.1 hwords]
    have hsibling : Lined [.sibling previous] := by
      intro w hw
      rw [List.mem_singleton.1 hw]
      exact isLine_of_isVerbatim (all_basename h.1)
    exact (plains ["ln", "-sf"] (by decide)).append
      (hsibling.append (plains ["$@"] (by decide)))

theorem configureLine (h : node.Legible) (hdirs : dirs.Named isVerbatim) {spec : AutoconfSpec}
    (hbody : node.body = .autoconf spec) : Lined (Node.configureLine dirs node.target spec) := by
  have htexts := h.texts
  simp only [hbody, Body.texts, List.forall_mem_append, List.forall_mem_cons] at htexts
  obtain ⟨⟨⟨-, harguments⟩, -⟩, hsettings⟩ := htexts
  have henvironment : Lined (spec.configureEnv.map fun entry =>
      .plain (entry.1 ++ "=" ++ Shell.quote entry.2)) := by
    intro w hw
    obtain ⟨⟨name, value⟩, hentry, rfl⟩ := List.mem_map.1 hw
    have hsetting : ∀ text ∈ [name, value], '\n' ∉ text.toList := fun text htext =>
      hsettings text (List.mem_flatMap.2 ⟨_, hentry, htext⟩)
    simp only [List.forall_mem_cons] at hsetting
    have hvalue := isLine_quote hsetting.2.1
    -- the line is closed by the quoted value
    have hclosed : IsLine ('=' :: (Shell.quote value).toList) :=
      Makefile.isLine_cons (by decide) hvalue
    refine ⟨by simp [Word.text, hsetting.1, hvalue.unbroken], ?_⟩
    have hlast := hclosed.closed
    simp only [Word.text, String.toList_append, List.append_assoc]
    rwa [List.getLast?_append_of_ne_nil _ (by simp)]
  have hprefix : Lined
      [.plain ("--prefix=$(CURDIR)/" ++ (AutoconfSpec.outputDir dirs node.target).fullPath)] := by
    intro w hw
    rw [List.mem_singleton.1 hw, Word.text, String.toList_append]
    exact (IsLine.of_forall (by decide)).append
      (IsWord.isLine (h.named.target.outputDir .isVerbatim hdirs.genfileDir))
  have hbuild := name (h.named.target.buildDir .isVerbatim hdirs.objectDir)
  exact ((((plains ["cd"] (by decide)).append (hbuild.append
    (plains ["&&"] (by decide)))).append henvironment).append
    ((plains ["./configure"] (by decide)).append hprefix)).append (flags harguments)

theorem stampRecipe (h : node.Legible) (hdirs : dirs.Named isVerbatim) {spec : AutoconfSpec}
    (hbody : node.body = .autoconf spec) :
    ∀ words ∈ (node.stampRecipe dirs spec closure).lines, Lined words := by
  have htexts := h.texts
  simp only [hbody, Body.texts, List.forall_mem_append, List.forall_mem_cons] at htexts
  obtain ⟨⟨⟨hdirectory, -⟩, htargets⟩, -⟩ := htexts
  have hbuild := name (h.named.target.buildDir .isVerbatim hdirs.objectDir)
  have houtput := name (h.named.target.outputDir .isVerbatim hdirs.genfileDir)
  have hsource : Lined [.tree spec.sourceDir] := by
    intro w hw
    rw [List.mem_singleton.1 hw]
    exact ⟨by simp [Word.text, hdirectory], by simp [Word.text]⟩
  have hmake := (plains ["$(MAKE)", "-C"] (by decide)).append hbuild
  simp only [Node.stampRecipe, List.forall_mem_cons]
  refine ⟨?_, ?_, configureLine h hdirs hbody, hmake.append (flags htargets), ?_, ?_, by simp⟩
  · exact (plains ["@rm", "-rf"] (by decide)).append (hbuild.append
      ((plains ["&&", "mkdir", "-p"] (by decide)).append (hbuild.append houtput)))
  · exact (plains ["cp", "-R"] (by decide)).append (hsource.append hbuild)
  · exact hmake.append (plains ["install"] (by decide))
  · exact makeOwnDir.append (plains ["&&", "touch", "$@"] (by decide))

end Lined

namespace Node.Legible

/-- The commands of the node are lines, if what they wait for are words. -/
theorem lined_recipes (h : node.Legible) (hdirs : dirs.Named isVerbatim)
    (hclosure : ∀ next ∈ closure, next.Legible)
    (hrecipes : node.recipes dirs closure = .ok recipes)
    (hwaits : ∀ recipe ∈ recipes, ∀ name ∈ recipe.prerequisites, IsWord name) :
    ∀ recipe ∈ recipes, ∀ words ∈ recipe.lines, Lined words := by
  have hfiles := h.named.files
  have htexts := h.texts
  unfold Node.inputFiles at hfiles
  have htail : Lined (node.linkTail closure) :=
    .linkTail (List.forall_mem_cons.2 ⟨h, hclosure⟩)
  have huser : ∀ outputs, ∀ words ∈ (node.userRecipe outputs).lines, Lined words := by
    simp [userRecipe]
  cases written_of_recipes hrecipes with
  | library hbody =>
    rw [hbody] at hfiles htexts
    simp only [List.forall_mem_append, List.forall_mem_singleton]
    exact ⟨.compileRecipes hfiles htexts, huser _⟩
  | @binary c inputs hbody hlink =>
    rw [hbody] at hfiles htexts
    simp only [List.forall_mem_append, List.forall_mem_cons] at hwaits ⊢
    exact ⟨.compileRecipes hfiles htexts, .linkBinary htail hwaits.2.1, huser _, by simp⟩
  | @sharedLibrary c spec inputs hbody hlink =>
    rw [hbody] at hfiles htexts
    simp only [List.forall_mem_append, List.forall_mem_singleton] at hfiles hwaits ⊢
    have hsoname : IsWord (spec.soname node.target) := h.named.target.soname .isVerbatim spec
    have houtputs : ∀ r ∈ spec.outputs dirs node.target, IsWord r.fullPath := fun r hr =>
      h.named.target.outputs .isVerbatim hdirs.pkgfileDir spec hr
    exact ⟨⟨⟨.compileRecipes hfiles.1 htexts, .linkShared hsoname htail hwaits.1.1.2⟩,
      .aliasRecipes houtputs⟩, huser _⟩
  | autoconf hbody =>
    simp only [List.forall_mem_cons]
    exact ⟨.stampRecipe h hdirs hbody, huser _, by simp⟩
  | listing hbody => simp

end Node.Legible

/-- A shared library is installed to the directory for libraries or below it, or else to an absolute
path, and but for that directory the text of the place is made of characters of its own path. -/
theorem installDir_eq (spec : SharedSpec) (file : Resource) :
    ∃ directory : String, (∀ c ∈ directory.toList, c ∈ file.dirname.toList) ∧
      spec.installDir file = if directory.isEmpty then SharedSpec.libDir
        else Path.join SharedSpec.libDir directory := by
  unfold SharedSpec.installDir
  refine ⟨_, ?_, rfl⟩
  intro c hc
  split at hc
  · rw [String.toList_ofList] at hc
    exact (List.drop_sublist _ _).subset ((List.dropWhile_sublist _).subset hc)
  · exact hc

/-- The place that a shared library is installed to stands on one line. -/
theorem isLine_installDir (spec : SharedSpec) {file : Resource} (h : IsWord file.fullPath) :
    IsLine (spec.installDir file).toList := by
  obtain ⟨directory, hmem, heq⟩ := installDir_eq spec file
  have hlibDir : IsLine SharedSpec.libDir.toList := .of_forall (by decide)
  have hdirectory : IsLine directory.toList :=
    isLine_of_isVerbatim fun c hc => all_dirname .isVerbatim h c (hmem c hc)
  rw [heq]
  split
  · exact hlibDir
  · rw [Path.toList_join]
    split_ifs
    · exact hdirectory
    · exact hlibDir.append hdirectory
    · exact hlibDir.append (Makefile.isLine_cons (by decide) hdirectory)

namespace Lined

variable {destination : String}

/-- The line that makes a directory to install to. -/
theorem installDirectory (h : IsLine destination.toList) :
    Lined [.plain "mkdir", .plain "-p", .plain destination] :=
  (plains ["mkdir", "-p"] (by decide)).append (word h)

/-- The place of a file in a directory. -/
theorem place (h : IsLine destination.toList) {r : Resource} (hr : IsWord r.fullPath) :
    Lined [.plain (destination ++ "/" ++ r.basename)] := by
  have hname := Makefile.isLine_cons (c := '/') (by decide) (isLine_of_isVerbatim (all_basename hr))
  exact word (by simpa using h.append hname)

theorem installFile (h : IsLine destination.toList) {r : Resource} (hr : IsWord r.fullPath) :
    Lined (Node.installFile destination r) :=
  ((plains ["install", "-m", "0755"] (by decide)).append
    (file hr)).append (place h hr)

theorem installAliases (h : IsLine destination.toList) {previous : Resource}
    {links : List Resource} (hlinks : ∀ r ∈ previous :: links, IsWord r.fullPath) :
    ∀ words ∈ Node.installAliases destination previous links, Lined words := by
  induction links generalizing previous with
  | nil => simp [Node.installAliases]
  | cons link rest ih =>
    rw [List.forall_mem_cons] at hlinks
    rw [Node.installAliases, List.forall_mem_cons]
    refine ⟨?_, ih hlinks.2⟩
    have hprevious := word (isLine_of_isVerbatim (all_basename hlinks.1))
    exact (plains ["ln", "-sf"] (by decide)).append
      (hprevious.append (place h (hlinks.2 link List.mem_cons_self)))

end Lined

namespace Node.Legible

/-- The lines that install what the node makes are lines. -/
theorem lined_installPart (h : node.Legible) (hdirs : dirs.Named isVerbatim) :
    ∀ words ∈ (node.installPart dirs).2, Lined words := by
  unfold installPart
  cases hbody : node.body with
  | library c | autoconf spec | listing prerequisites => simp
  | binary c =>
    have hdestination : IsLine binDir.toList := .of_forall (by decide)
    simp only [List.forall_mem_cons]
    have hfile := h.named.target.executable .isVerbatim hdirs.pkgfileDir
    exact ⟨.installDirectory hdestination, .installFile hdestination hfile, by simp⟩
  | sharedLibrary c spec =>
    have houtputs : ∀ r ∈ spec.outputs dirs node.target, IsWord r.fullPath := fun r hr =>
      h.named.target.outputs .isVerbatim hdirs.pkgfileDir spec hr
    have hfile := houtputs _ List.mem_cons_self
    have hdestination := isLine_installDir spec hfile
    simp only [List.forall_mem_append, List.forall_mem_cons]
    exact ⟨⟨.installDirectory hdestination, .installFile hdestination hfile, by simp⟩,
      .installAliases hdestination houtputs⟩

end Node.Legible

end Makewright
