import Makewright.Graph.Load

/-!
# Generating a Makefile

A pass loads a graph, puts its targets in order and renders them as one Makefile. The Makefile
starts with the settings of the workspace and the head blocks of the kinds in use; the rule `all`
comes first and waits for every target, and the rule `clean` comes last. A rule that waits for
something that nothing provides is an error.

`Context.write` replaces the output in one step: the text goes to a new file next to it, which is
then renamed. A pass that fails does not change the output. It takes the new file away when the
file system has refused something, but not when the text itself cannot be written: a text with a
lone surrogate has no encoding, and the new file stays behind without a text.
-/

set_option autoImplicit false

namespace Makewright

namespace Makefile

/-- The comment that every generated Makefile starts with. -/
def standardHeader : String := "Generated by buildgen. Do not edit."

/-- The lines about the workspace. -/
def workspaceHead (s : Settings) : List String :=
  [".DEFAULT_GOAL := all",
   "PREFIX := " ++ s.toolchain.installRoot,
   "DESTDIR ?=",
   "OBJ_DIR := " ++ s.dirs.objectDir,
   "GEN_DIR := " ++ s.dirs.genfileDir,
   "PKG_DIR := " ++ s.dirs.pkgfileDir]

/-- Write the head blocks of the kinds of some nodes. The class of a kind is the one registered
under the name that its nodes go by; `seen` holds the kinds that are done. -/
def addKindHeads (ctx : Context) : List String → List Node → Makefile → Except BuildError Makefile
  | _, [], m => .ok m
  | seen, node :: rest, m =>
    if node.kind ∈ seen then addKindHeads ctx seen rest m
    else do
      let nodeClass ← ctx.registry.find node.kind (some node.target)
      addKindHeads ctx (seen ++ [node.kind]) rest
        (nodeClass.writeHeads ctx.workspace.settings m)

/-- Add the rules and the install commands of some nodes; `closureOf` gives what a target depends
on. -/
def addNodes (dirs : GeneratedDirs) (closureOf : Target → Except BuildError (List Node)) :
    List Node → Makefile → Except BuildError Makefile
  | [], m => .ok m
  | node :: rest, m => do
    let m ← m.addNode dirs node (← closureOf node.target)
    addNodes dirs closureOf rest (m.addInstall dirs node)

/-- The target of the rule that waits for every target. -/
def allTarget : String := "all"

/-- The rule that removes everything generated. -/
def cleanRule (s : Settings) : Rule :=
  (Rule.start "clean" []).addCommand ("rm -rf " ++ " ".intercalate s.cleanedDirs)

/-- The Makefile of some nodes in order, not yet checked for prerequisites that nothing provides. -/
def assemble (ctx : Context) (nodes : List Node)
    (closureOf : Target → Except BuildError (List Node)) : Except BuildError Makefile := do
  let settings := ctx.workspace.settings
  let m := (new (some standardHeader)).addHead "workspace" (workspaceHead settings)
  let m ← addKindHeads ctx [] nodes m
  let m := (← m.addRule (Rule.start allTarget [])).addPhony allTarget
  let m ← addNodes settings.dirs closureOf nodes m
  let m := m.modifyRule allTarget (·.addPrerequisites (nodes.map Node.userTarget))
  .ok ((← m.addRule (cleanRule settings)).addPhony "clean")

/-- The Makefile of some nodes in order. -/
def ofNodes (ctx : Context) (nodes : List Node)
    (closureOf : Target → Except BuildError (List Node)) : Except BuildError Makefile := do
  let m ← assemble ctx nodes closureOf
  match m.dangling (nodes.flatMap Node.inputFiles) with
  | [] => .ok m
  | pairs => .error (.dangling pairs)

/-- The Makefile for a graph, which is walked on the way. -/
def ofGraph (ctx : Context) (g : Graph) : Except BuildError Makefile × Graph :=
  let (outcome, settled) := g.resolve
  (outcome.bind fun nodes => ofNodes ctx nodes fun target => (settled.dependenciesOf target).1,
    settled)

end Makefile

namespace Loading

/-- Load with a fresh graph, in the course of a pass. -/
def afresh {α : Type} (step : LoadM α) : Pass α := fun session =>
  match step ⟨Graph.empty, session⟩ with
  | .ok a loading => .ok a loading.session
  | .error e loading => .error e loading.session

/-- Put the targets of the graph in order. -/
def resolve : LoadM (List Node) := do
  let loading ← get
  let (outcome, graph) := loading.graph.resolve
  set { loading with graph }
  lift outcome

/-- The text of the Makefile for the graph. -/
def render (ctx : Context) : LoadM String := do
  let loading ← get
  let (outcome, graph) := Makefile.ofGraph ctx loading.graph
  set { loading with graph }
  let m ← lift outcome
  inPass (Pass.report .info .generator
    ("generated " ++ toString m.rules.length ++ " rules for " ++ toString graph.nodes.length
      ++ " targets"))
  pure m.serialize

end Loading

namespace Pass

/-- A location next to a file that is still free. -/
def spareLocation (files : FileTree) (l : Location) : Location :=
  let candidate (n : Nat) : Location :=
    l.parent.child ("." ++ l.name ++ "." ++ padDigits 8 n ++ ".tmp")
  let isFree (n : Nat) : Bool :=
    match files.status (candidate n) with
    | .ok none => true
    | _ => false
  candidate (((List.range (files.entries.length + 1)).find? isFree).getD 0)

/-- Make an empty file next to a location, and the directories around them, and tell where it is. -/
def makeSpare (l : Location) : Pass Location := do
  lift l.parent.checkName
  changeFiles (·.makeDirectories l.parent)
  let spare := spareLocation (← get).disk.files l
  lift spare.checkName
  changeFiles (·.create spare "")
  pure spare

/-- Write a text to the spare file, which is there already, and rename it. -/
def fillSpare (spare l : Location) (text : String) : Pass Unit := do
  match Text.refusal? text with
  | some refusal => throw (.scalar (.unencodable refusal))
  | none =>
    changeFiles (·.write spare text)
    changeFiles (·.rename spare l)

/-- End with an error, taking the spare file away only if it is one of the file system. -/
def abandon (spare : Location) (e : BuildError) : Pass Unit := do
  if e.isFileFault then changeFiles fun files => .ok (files.unlink spare)
  throw e

/-- Put a text in place of a file in one step. -/
def replaceFile (l : Location) (text : String) : Pass Unit := do
  let spare ← makeSpare l
  tryCatch (fillSpare spare l text) (abandon spare)

end Pass

namespace Context

/-- The text of the Makefile for the requested roots and packages. -/
def generate (ctx : Context) (roots : List Target) (packages : List String) : Pass String :=
  Loading.afresh do
    Loading.load ctx roots packages
    Loading.render ctx

/-- The graph for the requested roots and packages, which has not been walked. -/
def buildGraph (ctx : Context) (roots : List Target) (packages : List String) : Pass Graph :=
  Loading.afresh do
    Loading.load ctx roots packages
    let loading ← get
    pure loading.graph

/-- The location of the output: the one asked for or else the one in the settings, seen from the
root of the workspace. -/
def outputLocation (ctx : Context) (output : Option String) : Location :=
  ctx.workspace.root.child (output.getD ctx.workspace.settings.globals.output)

/-- Write the Makefile for the requested roots and packages, and tell where it is. -/
def write (ctx : Context) (output : Option String) (roots : List Target)
    (packages : List String) : Pass Location := do
  let l := ctx.outputLocation output
  let text ← ctx.generate roots packages
  Pass.replaceFile l text
  Pass.report .info .generator ("wrote " ++ l.render)
  pure l

end Context

end Makewright
