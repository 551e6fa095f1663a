import Makewright.Proofs.Makefile.Assignments
import Makewright.Proofs.Node.Lines

/-!
# The variables in the lines of a node

Each kind of node is written with variables of its own (`Body.variables`). The words in the recipes
of a node and in the lines that install what it makes start with references to these only
(`Node.speaks_recipes`, `Node.speaks_installPart`), but for a few words that consist of nothing but
names and values that the node was given (`Node.givenWords`).
-/

set_option autoImplicit false

namespace Makewright

open Make

variable {dirs : GeneratedDirs} {node : Node} {closure : List Node} {recipes : List Recipe}

/-- The variables that a word which stands as it is starts with. -/
def Word.variables : Word → List String
  | .plain text => references text.toList
  | .flag _ | .file .. | .sibling _ | .tree _ => []

example : Word.variables (.plain SharedSpec.libDir) = ["DESTDIR", "LIBDIR"] := by decide

/-- The variables that the lines for a body are written with. -/
def Body.variables : Body → List String
  | .library _ => ["CC", "CXX", "CPPFLAGS", "CFLAGS", "CXXFLAGS"]
  | .binary _ => ["CC", "CXX", "CPPFLAGS", "CFLAGS", "CXXFLAGS", "LDFLAGS", "DESTDIR", "BINDIR"]
  | .sharedLibrary .. =>
    ["CC", "CXX", "CPPFLAGS", "CFLAGS", "CXXFLAGS", "SHARED_LDFLAGS", "LDFLAGS", "DESTDIR",
      "LIBDIR"]
  | .autoconf _ => ["MAKE"]
  | .listing _ => []

/-- The words in the lines of a node that are made of names and values that it was given. -/
def Node.givenWords (dirs : GeneratedDirs) (node : Node) : List Word :=
  match node.body with
  | .sharedLibrary _ spec => (spec.outputs dirs node.target).map fun r => .plain r.basename
  | .autoconf spec =>
    [.plain (AutoconfSpec.buildDir dirs node.target).fullPath,
      .plain (AutoconfSpec.outputDir dirs node.target).fullPath]
    ++ spec.configureEnv.map fun (name, value) => .plain (name ++ "=" ++ Shell.quote value)
  | .library _ | .binary _ | .listing _ => []

/-- The words are given or start with references to these variables only. -/
def Speaks (given : List Word) (names : List String) (words : List Word) : Prop :=
  ∀ w ∈ words, w ∈ given ∨ w.variables ⊆ names

namespace Speaks

variable {given words more : List Word} {names : List String}

theorem append (h : Speaks given names words) (hmore : Speaks given names more) :
    Speaks given names (words ++ more) :=
  List.forall_mem_append.2 ⟨h, hmore⟩

/-- Words that stand as they are. -/
theorem plains (texts : List String) (h : ∀ text ∈ texts, references text.toList ⊆ names) :
    Speaks given names (texts.map Word.plain) := by
  intro w hw
  obtain ⟨text, htext, rfl⟩ := List.mem_map.1 hw
  exact Or.inr (h text htext)

/-- Words that refer to nothing. -/
theorem bare (texts : List String) (h : ∀ text ∈ texts, references text.toList = []) :
    Speaks given names (texts.map Word.plain) :=
  plains texts fun text htext => h text htext ▸ List.nil_subset names

theorem flags (flags : List String) : Speaks given names (flags.map Word.flag) := by
  intro w hw
  obtain ⟨flag, -, rfl⟩ := List.mem_map.1 hw
  exact Or.inr (List.nil_subset names)

theorem files (files : List Resource) (option : String) :
    Speaks given names (files.map (Word.file · option)) := by
  intro w hw
  obtain ⟨r, -, rfl⟩ := List.mem_map.1 hw
  exact Or.inr (List.nil_subset names)

theorem tree (directory : String) : Speaks given names [.tree directory] :=
  List.forall_mem_singleton.2 (Or.inr (List.nil_subset names))

theorem of_mem (h : words ⊆ given) : Speaks given names words :=
  fun _ hw => Or.inl (h hw)

/-- A text that starts with some other character than a dollar sign. -/
theorem text {text : String} {c : Char} {rest : List Char} (h : text.toList = c :: rest)
    (hc : c ≠ '$') : Speaks given names [.plain text] := by
  intro w hw
  rw [List.mem_singleton.1 hw, Word.variables, h, references_cons hc]
  exact Or.inr (List.nil_subset names)

theorem mono (h : Speaks given names words) {others : List String} (hnames : names ⊆ others) :
    Speaks given others words :=
  fun w hw => (h w hw).imp_right fun hvariables => List.Subset.trans hvariables hnames

/-! ## The lines one by one -/

theorem makeOwnDir : Speaks given names makeOwnDir :=
  text (c := '@') rfl (by decide)

theorem compileLine (c : Compilation) (source : Resource) (language : Language) :
    Speaks given ["CC", "CXX", "CPPFLAGS", "CFLAGS", "CXXFLAGS"]
      (Node.compileLine c source language) := by
  unfold Node.compileLine
  refine append ?_ ((plains ["-c"] (by decide)).append
    ((files [source] "").append (plains ["-o", "$@"] (by decide))))
  split
  · exact (plains ["$(CXX)", "$(CPPFLAGS)", "$(CXXFLAGS)"] (by decide)).append (flags c.cxxflags)
  · exact (plains ["$(CC)", "$(CPPFLAGS)", "$(CFLAGS)"] (by decide)).append (flags c.cflags)

theorem compileRecipes (c : Compilation) (h : ["CC", "CXX", "CPPFLAGS", "CFLAGS", "CXXFLAGS"] ⊆ names) :
    ∀ recipe ∈ Node.compileRecipes dirs c closure, ∀ words ∈ recipe.lines,
      Speaks given names words := by
  intro recipe hrecipe
  obtain ⟨⟨source, language⟩, -, rfl⟩ := List.mem_map.1 hrecipe
  simp only [Node.compileRecipe, List.forall_mem_cons]
  exact ⟨makeOwnDir, (compileLine c source language).mono h, by simp⟩

theorem linker (inputs : FileSet) : Speaks given ["CC", "CXX"] [.plain (Node.linker inputs)] := by
  unfold Node.linker
  split
  · exact plains ["$(CXX)"] (by decide)
  · exact plains ["$(CC)"] (by decide)

theorem linkTail : Speaks given ["LDFLAGS"] (node.linkTail closure) :=
  (plains ["$(LDFLAGS)"] (by decide)).append (flags _)

theorem aliasRecipes (previous : Resource) (links : List Resource) :
    ∀ recipe ∈ Node.aliasRecipes previous links, ∀ words ∈ recipe.lines,
      Speaks given names words := by
  induction links generalizing previous with
  | nil => simp [Node.aliasRecipes]
  | cons link rest ih =>
    rw [Node.aliasRecipes, List.forall_mem_cons]
    refine ⟨?_, ih link⟩
    intro words hwords w hw
    rw [List.mem_singleton.1 hwords] at hw
    have hnone : ∀ w ∈ [Word.plain "ln", .plain "-sf", .sibling previous, .plain "$@"],
        w.variables = [] := by
      simp only [List.forall_mem_cons]
      exact ⟨by decide, by decide, rfl, by decide, by simp⟩
    exact Or.inr (hnone w hw ▸ List.nil_subset names)

/-- The lines that build a package with its own configure script. -/
theorem stampRecipe {spec : AutoconfSpec} (hbody : node.body = .autoconf spec) :
    ∀ words ∈ (node.stampRecipe dirs spec closure).lines,
      Speaks (node.givenWords dirs) ["MAKE"] words := by
  let buildDir := (AutoconfSpec.buildDir dirs node.target).fullPath
  let outputDir := (AutoconfSpec.outputDir dirs node.target).fullPath
  let environment := spec.configureEnv.map fun (name, value) =>
    Word.plain (name ++ "=" ++ Shell.quote value)
  have hgiven : node.givenWords dirs = [.plain buildDir, .plain outputDir] ++ environment := by
    rw [Node.givenWords, hbody]
  have hbuild : Speaks (node.givenWords dirs) ["MAKE"] [.plain buildDir] :=
    of_mem (by simp [hgiven])
  have houtput : Speaks (node.givenWords dirs) ["MAKE"] [.plain outputDir] :=
    of_mem (by simp [hgiven])
  have henvironment : Speaks (node.givenWords dirs) ["MAKE"] environment :=
    of_mem (by simp [hgiven])
  have hprefix : Speaks (node.givenWords dirs) ["MAKE"]
      [.plain ("--prefix=$(CURDIR)/" ++ outputDir)] :=
    text (String.toList_append ..) (by decide)
  have hmake : Speaks (node.givenWords dirs) ["MAKE"]
      [.plain "$(MAKE)", .plain "-C", .plain buildDir] :=
    (plains ["$(MAKE)", "-C"] (by decide)).append hbuild
  simp only [Node.stampRecipe, List.forall_mem_cons]
  refine ⟨?_, ?_, ?_, ?_, ?_, ?_, by simp⟩
  · exact (((plains ["@rm", "-rf"] (by decide)).append hbuild).append
      (plains ["&&", "mkdir", "-p"] (by decide))).append (hbuild.append houtput)
  · exact ((plains ["cp", "-R"] (by decide)).append (tree spec.sourceDir)).append hbuild
  · exact ((((plains ["cd"] (by decide)).append (hbuild.append (plains ["&&"] (by decide)))).append
      henvironment).append ((plains ["./configure"] (by decide)).append hprefix)).append
        (flags spec.configureArgs)
  · exact hmake.append (flags spec.makeTargets)
  · exact hmake.append (plains ["install"] (by decide))
  · exact makeOwnDir.append (plains ["&&", "touch", "$@"] (by decide))

end Speaks

/-! ## Lines that install -/

/-- The text of a directory starts with references to these variables only, also if a name follows
behind it. -/
structure LeadsFrom (names : List String) (destination : String) : Prop where
  bare : references destination.toList ⊆ names
  behind : ∀ rest, references (destination.toList ++ '/' :: rest) ⊆ names

theorem leadsFrom_binDir : LeadsFrom ["DESTDIR", "BINDIR"] Node.binDir := by
  have hbehind : ∀ rest, references (Node.binDir.toList ++ '/' :: rest) = ["DESTDIR", "BINDIR"] :=
    fun _ => rfl
  exact ⟨by decide, fun rest => hbehind rest ▸ List.Subset.refl _⟩

theorem leadsFrom_installDir (spec : SharedSpec) (file : Resource) :
    LeadsFrom ["DESTDIR", "LIBDIR"] (spec.installDir file) := by
  have hbehind : ∀ rest, references (SharedSpec.libDir.toList ++ '/' :: rest) =
    ["DESTDIR", "LIBDIR"] := fun _ => rfl
  have hlibDir : LeadsFrom ["DESTDIR", "LIBDIR"] SharedSpec.libDir :=
    ⟨by decide, fun rest => hbehind rest ▸ List.Subset.refl _⟩
  obtain ⟨directory, -, heq⟩ := installDir_eq spec file
  rw [heq]
  split
  · exact hlibDir
  · have hjoin := Path.toList_join SharedSpec.libDir directory
    have hopen : ¬ (SharedSpec.libDir.toList = [] ∨ SharedSpec.libDir.toList.getLast? = some '/') := by
      decide
    rw [if_neg hopen] at hjoin
    by_cases habsolute : directory.toList.head? = some '/'
    · -- an absolute directory is taken instead of the one for libraries
      rw [if_pos habsolute] at hjoin
      obtain ⟨rest, hrest⟩ := List.head?_eq_some_iff.1 habsolute
      have hnone : ∀ more, references ('/' :: more) = [] := references_cons (by decide)
      refine ⟨?_, fun more => ?_⟩
      · rw [hjoin, hrest, hnone]
        exact List.nil_subset _
      · rw [hjoin, hrest, List.cons_append, hnone]
        exact List.nil_subset _
    · rw [if_neg habsolute] at hjoin
      refine ⟨hjoin ▸ hlibDir.behind _, fun more => ?_⟩
      rw [hjoin, List.append_assoc, List.cons_append]
      exact hlibDir.behind _

namespace Speaks

variable {given : List Word} {names : List String} {destination : String}

theorem directory (h : LeadsFrom names destination) : Speaks given names [.plain destination] :=
  List.forall_mem_singleton.2 (Or.inr h.bare)

/-- The place of a file in a directory. -/
theorem place (h : LeadsFrom names destination) (name : String) :
    Speaks given names [.plain (destination ++ "/" ++ name)] := by
  have htext : (destination ++ "/" ++ name).toList = destination.toList ++ '/' :: name.toList := by
    simp
  refine List.forall_mem_singleton.2 (Or.inr ?_)
  rw [Word.variables, htext]
  exact h.behind _

theorem installDirectory (h : LeadsFrom names destination) :
    Speaks given names [.plain "mkdir", .plain "-p", .plain destination] :=
  (bare ["mkdir", "-p"] (by decide)).append (directory h)

theorem installFile (h : LeadsFrom names destination) (file : Resource) :
    Speaks given names (Node.installFile destination file) :=
  ((bare ["install", "-m", "0755"] (by decide)).append (files [file] "")).append
    (place h file.basename)

theorem installAliases (h : LeadsFrom names destination) {previous : Resource} {links : List Resource}
    (hgiven : ∀ r ∈ previous :: links, Word.plain r.basename ∈ given) :
    ∀ words ∈ Node.installAliases destination previous links, Speaks given names words := by
  induction links generalizing previous with
  | nil => simp [Node.installAliases]
  | cons link rest ih =>
    rw [List.forall_mem_cons] at hgiven
    rw [Node.installAliases, List.forall_mem_cons]
    refine ⟨?_, ih hgiven.2⟩
    have hprevious : Speaks given names [.plain previous.basename] :=
      List.forall_mem_singleton.2 (Or.inl hgiven.1)
    exact (bare ["ln", "-sf"] (by decide)).append (hprevious.append (place h link.basename))

end Speaks

namespace Node

/-! ## All lines of a node -/

/-- The recipes of a node are written with the variables of its kind. -/
theorem speaks_recipes (h : node.recipes dirs closure = .ok recipes) :
    ∀ recipe ∈ recipes, ∀ words ∈ recipe.lines,
      Speaks (node.givenWords dirs) node.body.variables words := by
  have huser : ∀ outputs, ∀ words ∈ (node.userRecipe outputs).lines,
      Speaks (node.givenWords dirs) node.body.variables words := fun _ words hwords => nomatch hwords
  cases written_of_recipes h with
  | library hbody =>
    rw [hbody] at huser ⊢
    simp only [List.forall_mem_append, List.forall_mem_cons]
    exact ⟨.compileRecipes _ (by simp [Body.variables]), huser _, by simp⟩
  | @binary c inputs hbody hlink =>
    rw [hbody] at huser ⊢
    simp only [List.forall_mem_append, List.forall_mem_cons]
    refine ⟨.compileRecipes _ (by simp [Body.variables]), ?_, huser _, by simp⟩
    have hinputs : Speaks (node.givenWords dirs) (Body.binary c).variables
        (inputs.toList.map (.file ·)) := .files inputs.toList ""
    simp only [linkBinary, List.forall_mem_cons]
    refine ⟨.makeOwnDir, ?_, by simp⟩
    exact ((((Speaks.linker inputs).mono (by simp [Body.variables])).append
      (.bare ["-o", "$@"] (by decide))).append hinputs).append
        (.mono .linkTail (by simp [Body.variables]))
  | @sharedLibrary c spec inputs hbody hlink =>
    rw [hbody] at huser ⊢
    have hcompile : ["CC", "CXX", "CPPFLAGS", "CFLAGS", "CXXFLAGS"] ⊆
        (Body.sharedLibrary c spec).variables := by simp [Body.variables]
    simp only [List.forall_mem_append, List.forall_mem_cons]
    refine ⟨⟨⟨.compileRecipes _ hcompile, ?_, by simp⟩, .aliasRecipes _ _⟩, huser _, by simp⟩
    have hsoname : Speaks (node.givenWords dirs) (Body.sharedLibrary c spec).variables
        [.plain ("-Wl,-soname," ++ spec.soname node.target)] :=
      .text (String.toList_append ..) (by decide)
    -- the variable that only shared libraries are linked with
    have hflags : Speaks (node.givenWords dirs) (Body.sharedLibrary c spec).variables
        (["$(SHARED_LDFLAGS)", "-o", "$@"].map Word.plain) := by
      have hbound : ∀ text ∈ ["$(SHARED_LDFLAGS)", "-o", "$@"],
          references text.toList ⊆ ["SHARED_LDFLAGS"] := by
        decide
      exact (Speaks.plains _ hbound).mono (by simp [Body.variables])
    simp only [linkShared, List.forall_mem_cons]
    refine ⟨.makeOwnDir, ?_, by simp⟩
    exact ((((((Speaks.linker inputs).mono (by simp [Body.variables])).append hflags).append
      (.files inputs.toList "")).append hsoname).append
        (.files spec.exportedSymbols.toList "-Wl,--version-script=")).append
          (.mono .linkTail (by simp [Body.variables]))
  | autoconf hbody =>
    rw [hbody] at huser ⊢
    simp only [List.forall_mem_cons]
    exact ⟨.stampRecipe hbody, huser _, by simp⟩
  | listing hbody => simp

/-- The lines that install what a node makes are written with the variables of its kind. -/
theorem speaks_installPart (dirs : GeneratedDirs) (node : Node) :
    ∀ words ∈ (node.installPart dirs).2,
      Speaks (node.givenWords dirs) node.body.variables words := by
  unfold installPart
  cases hbody : node.body with
  | library c | autoconf spec | listing prerequisites => simp
  | binary c =>
    have hnames : ["DESTDIR", "BINDIR"] ⊆ (Body.binary c).variables := by simp [Body.variables]
    simp only [List.forall_mem_cons]
    exact ⟨(Speaks.installDirectory leadsFrom_binDir).mono hnames,
      (Speaks.installFile leadsFrom_binDir _).mono hnames, by simp⟩
  | sharedLibrary c spec =>
    have hnames : ["DESTDIR", "LIBDIR"] ⊆ (Body.sharedLibrary c spec).variables := by
      simp [Body.variables]
    have hleads := leadsFrom_installDir spec (spec.linked dirs node.target)
    have hgiven : ∀ r ∈ spec.outputs dirs node.target,
        Word.plain r.basename ∈ node.givenWords dirs := by
      intro r hr
      rw [givenWords, hbody]
      exact List.mem_map_of_mem hr
    simp only [List.forall_mem_append, List.forall_mem_cons]
    refine ⟨⟨(Speaks.installDirectory hleads).mono hnames,
      (Speaks.installFile hleads _).mono hnames, by simp⟩, fun words hwords => ?_⟩
    exact (Speaks.installAliases hleads hgiven words hwords).mono hnames

end Node

end Makewright
