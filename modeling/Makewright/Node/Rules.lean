import Makewright.Node.LinkInputs
import Makewright.Node.Recipe

/-!
# Rules of a node

The rules and the install commands that a node contributes to a Makefile, as recipes. The recipes
come in a fixed order: one for each compiled source, one for the link, one for each symbolic link,
and last that of the phony rule under the path-like name of the target.
-/

set_option autoImplicit false

namespace Makewright

/-- The line that makes the directory of the file that a rule makes. -/
def makeOwnDir : List Word := [.plain "@mkdir -p $(@D)"]

namespace Node

/-- The line that compiles one source. -/
def compileLine (c : Compilation) (source : Resource) (language : Language) : List Word :=
  let front : List Word :=
    match language with
    | .cxx => [.plain "$(CXX)", .plain "$(CPPFLAGS)", .plain "$(CXXFLAGS)"] ++ c.cxxflags.map .flag
    | _ => [.plain "$(CC)", .plain "$(CPPFLAGS)", .plain "$(CFLAGS)"] ++ c.cflags.map .flag
  front ++ [.plain "-c", .file source, .plain "-o", .plain "$@"]

/-- The rule that compiles one source: it waits for the source, the headers of the target and the
files that the dependencies make a build step wait for. -/
def compileRecipe (dirs : GeneratedDirs) (c : Compilation) (waitsFor : FileSet) (source : Resource)
    (language : Language) : Recipe :=
  ⟨(Compilation.objectFor dirs source).fullPath,
   [source.fullPath] ++ c.headers.paths ++ waitsFor.paths,
   [makeOwnDir, compileLine c source language]⟩

/-- The rules that compile the sources of a node. -/
def compileRecipes (dirs : GeneratedDirs) (c : Compilation) (closure : List Node) : List Recipe :=
  let waitsFor := collectDependencyFiles dirs closure
  c.sources.entries.map fun (source, language) => compileRecipe dirs c waitsFor source language

/-- The linker that a set of inputs needs. -/
def linker (inputs : FileSet) : String :=
  if .cxx ∈ inputs.languages then "$(CXX)" else "$(CC)"

/-- The linker flags at the end of a link command. -/
def linkTail (node : Node) (closure : List Node) : List Word :=
  .plain "$(LDFLAGS)" :: (node.collectLdflags closure).map .flag

/-- The rule that builds everything a node produces. -/
def userRecipe (node : Node) (outputs : List Resource) : Recipe :=
  ⟨node.userTarget, outputs.map Resource.fullPath, []⟩

/-- The rule that links an executable. -/
def linkBinary (dirs : GeneratedDirs) (node : Node) (inputs : FileSet) (closure : List Node) :
    Recipe :=
  ⟨(executable dirs node.target).fullPath,
   inputs.paths ++ (collectDependencyFiles dirs closure).paths,
   [makeOwnDir,
    [.plain (linker inputs), .plain "-o", .plain "$@"] ++ inputs.toList.map (.file ·)
      ++ node.linkTail closure]⟩

/-- The rule that links a shared library. -/
def linkShared (dirs : GeneratedDirs) (node : Node) (spec : SharedSpec) (inputs : FileSet)
    (closure : List Node) : Recipe :=
  let symbols := spec.exportedSymbols.toList
  ⟨(spec.linked dirs node.target).fullPath,
   inputs.paths ++ (collectDependencyFiles dirs closure).paths ++ symbols.map Resource.fullPath,
   [makeOwnDir,
    [.plain (linker inputs), .plain "$(SHARED_LDFLAGS)", .plain "-o", .plain "$@"]
      ++ inputs.toList.map (.file ·)
      ++ [.plain ("-Wl,-soname," ++ spec.soname node.target)]
      ++ symbols.map (.file · "-Wl,--version-script=")
      ++ node.linkTail closure]⟩

/-- The rules that make symbolic links, each pointing at the file before it. -/
def aliasRecipes : Resource → List Resource → List Recipe
  | _, [] => []
  | previous, link :: rest =>
    ⟨link.fullPath, [previous.fullPath],
      [[.plain "ln", .plain "-sf", .sibling previous, .plain "$@"]]⟩
      :: aliasRecipes link rest

/-- The line that configures a package in its build directory. -/
def configureLine (dirs : GeneratedDirs) (target : Target) (spec : AutoconfSpec) : List Word :=
  [.plain "cd", .plain (AutoconfSpec.buildDir dirs target).fullPath, .plain "&&"]
    ++ spec.configureEnv.map (fun (name, value) => .plain (name ++ "=" ++ Shell.quote value))
    ++ [.plain "./configure",
        .plain ("--prefix=$(CURDIR)/" ++ (AutoconfSpec.outputDir dirs target).fullPath)]
    ++ spec.configureArgs.map .flag

/-- The command that configures a package in its build directory. -/
def configureCommand (dirs : GeneratedDirs) (target : Target) (spec : AutoconfSpec) : String :=
  Word.line (configureLine dirs target spec)

/-- The rule that builds a package with its own configure script. -/
def stampRecipe (dirs : GeneratedDirs) (node : Node) (spec : AutoconfSpec) (closure : List Node) :
    Recipe :=
  let buildDir := (AutoconfSpec.buildDir dirs node.target).fullPath
  let outputDir := (AutoconfSpec.outputDir dirs node.target).fullPath
  ⟨(AutoconfSpec.stamp dirs node.target).fullPath,
   (collectDependencyFiles dirs closure).paths,
   [[.plain "@rm", .plain "-rf", .plain buildDir, .plain "&&", .plain "mkdir", .plain "-p",
     .plain buildDir, .plain outputDir],
    [.plain "cp", .plain "-R", .tree spec.sourceDir, .plain buildDir],
    configureLine dirs node.target spec,
    [.plain "$(MAKE)", .plain "-C", .plain buildDir] ++ spec.makeTargets.map .flag,
    [.plain "$(MAKE)", .plain "-C", .plain buildDir, .plain "install"],
    makeOwnDir ++ [.plain "&&", .plain "touch", .plain "$@"]]⟩

/-- The recipes of a node, given the nodes that it depends on directly or through others. -/
def recipes (dirs : GeneratedDirs) (node : Node) (closure : List Node) :
    Except BuildError (List Recipe) :=
  match node.body with
  | .library c =>
    .ok (compileRecipes dirs c closure ++ [node.userRecipe (c.objects dirs).toList])
  | .binary c => do
    let inputs ← linkInputs dirs node c closure
    .ok (compileRecipes dirs c closure
      ++ [node.linkBinary dirs inputs closure, node.userRecipe [executable dirs node.target]])
  | .sharedLibrary c spec => do
    let inputs ← linkInputs dirs node c closure
    .ok (compileRecipes dirs c closure ++ [node.linkShared dirs spec inputs closure]
      ++ aliasRecipes (spec.linked dirs node.target) (spec.aliases dirs node.target)
      ++ [node.userRecipe (spec.outputs dirs node.target)])
  | .autoconf spec =>
    .ok [node.stampRecipe dirs spec closure,
      node.userRecipe [AutoconfSpec.stamp dirs node.target]]
  | .listing prerequisites => .ok [⟨node.userTarget, prerequisites, []⟩]

/-- The rules of a node, given the nodes that it depends on directly or through others. -/
def rules (dirs : GeneratedDirs) (node : Node) (closure : List Node) :
    Except BuildError (List Rule) :=
  (node.recipes dirs closure).map (·.map Recipe.rule)

/-- The name that a node declares phony: that of its rule, unless it is a listing. -/
def phonyNames (node : Node) : List String :=
  match node.body with
  | .listing _ => []
  | _ => [node.userTarget]

/-- The lines that link the installed symbolic links, each pointing at the file before it. -/
def installAliases (destination : String) : Resource → List Resource → List (List Word)
  | _, [] => []
  | previous, link :: rest =>
    [.plain "ln", .plain "-sf", .plain previous.basename,
      .plain (destination ++ "/" ++ link.basename)] :: installAliases destination link rest

/-- The line that installs a file. -/
def installFile (destination : String) (file : Resource) : List Word :=
  [.plain "install", .plain "-m", .plain "0755", .file file,
    .plain (destination ++ "/" ++ file.basename)]

/-- The directory for executables in the tree that is installed to. -/
def binDir : String := "$(DESTDIR)$(BINDIR)"

/-- What a node adds to the install rule: prerequisites and lines. -/
def installPart (dirs : GeneratedDirs) (node : Node) : List String × List (List Word) :=
  match node.body with
  | .binary _ =>
    let file := executable dirs node.target
    ([file.fullPath],
     [[.plain "mkdir", .plain "-p", .plain binDir], installFile binDir file])
  | .sharedLibrary _ spec =>
    let file := spec.linked dirs node.target
    let destination := spec.installDir file
    ((spec.outputs dirs node.target).map Resource.fullPath,
     [[.plain "mkdir", .plain "-p", .plain destination], installFile destination file]
       ++ installAliases destination file (spec.aliases dirs node.target))
  | .library _ | .autoconf _ | .listing _ => ([], [])

end Node

namespace Makefile

/-- Add the rules of a node. -/
def addNode (m : Makefile) (dirs : GeneratedDirs) (node : Node) (closure : List Node) :
    Except BuildError Makefile := do
  let m ← m.addRules (← node.rules dirs closure)
  .ok (node.phonyNames.foldl addPhony m)

/-- Add the install commands of a node to the install rule. -/
def addInstall (m : Makefile) (dirs : GeneratedDirs) (node : Node) : Makefile :=
  let (prerequisites, lines) := node.installPart dirs
  { m with
    install := (m.install.addPrerequisites prerequisites).addCommands (lines.map Word.line) }

end Makefile

end Makewright
