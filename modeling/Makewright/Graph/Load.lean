import Makewright.Fetch.Fetcher
import Makewright.Graph.Basic
import Makewright.Registry

/-!
# Loading a graph

Loading starts from requested packages and roots and goes on to every target that these reach. The
requests are worked off from the front of a queue. A request for a target of a package that has not
been loaded loads the package, and the dependencies of its targets join the queue behind all others.
A request that its package does not answer is an error, which names the target that made it.

A load that fails keeps the targets that it has added. The targets of a package that were in the
graph before are left alone, and so are their dependencies.
-/

set_option autoImplicit false

namespace Makewright

/-- What a pass works with: the workspace, the registered kinds and the way to fetch sources. -/
structure Context where
  workspace : Workspace
  registry : Registry
  fetcher : Option Fetcher

/-- A graph that is being loaded, in the course of a pass. -/
structure Loading where
  graph : Graph
  session : Session

/-- A step of loading. -/
abbrev LoadM := EStateM BuildError Loading

/-- A target that is wanted, and the target that wants it unless it was asked for. -/
structure Request where
  requester : Option Target
  target : Target
  deriving DecidableEq, Repr

namespace Loading

/-- Take a step of the pass. -/
def inPass {α : Type} (step : Pass α) : LoadM α := fun loading =>
  match step loading.session with
  | .ok a session => .ok a { loading with session }
  | .error e session => .error e { loading with session }

/-- Take the answer of a step that changes nothing. -/
def lift {α : Type} (answer : Except BuildError α) : LoadM α :=
  inPass (Pass.lift answer)

/-- The directory of fetched sources as rules name it: seen from the workspace if it lies there. -/
def workspacePath (root l : Location) : String :=
  match (Location.resolve root l).relativeTo? (Location.resolve root root) with
  | some relative => relative.render
  | none => l.render

/-- An error of a fetcher, told to be about a target. -/
def blame (target : Target) : BuildError → BuildError
  | .sourceUnavailable identifier reason _ => .sourceUnavailable identifier reason (some target)
  | e => e

/-- Fetch the sources of a target. -/
def fetchFor (ctx : Context) (d : Description) (identifier : String) : LoadM String :=
  match ctx.fetcher with
  | none => throw (d.fault "source_url" .noFetcher)
  | some fetcher => do
    let l ← tryCatch (inPass (fetcher.fetch identifier)) fun e => throw (blame d.target e)
    pure (workspacePath ctx.workspace.root l)

/-- Read the node of a description. -/
def readNode (ctx : Context) (d : Description) : LoadM Node := do
  let nodeClass ← lift (ctx.registry.find d.kind (some d.target))
  match ← lift (nodeClass.read ctx.workspace.settings d) with
  | .complete node => pure node
  | .awaiting identifier finish => finish <$> fetchFor ctx d identifier

/-- Add the node of a description, whose target must be new. -/
def add (ctx : Context) (d : Description) : LoadM Node := do
  if (← get).graph.contains d.target then
    throw (.config .repeatedTarget (some d.target) none)
  let node ← readNode ctx d
  inPass (Pass.report .debug .graph
    ("parsed " ++ d.target.toString ++ " (" ++ d.kind ++ ") with "
      ++ toString node.dependencies.length ++ " dependencies"))
  modify fun loading => { loading with graph := loading.graph.declare node }
  pure node

/-- The requests that a node makes. -/
def requestsOf (node : Node) : List Request :=
  node.dependencies.map fun dependency => ⟨some node.target, dependency⟩

/-- Add the descriptions of a package whose targets are new; the answer holds the requests they
make. -/
def addAll (ctx : Context) : List Description → LoadM (List Request)
  | [] => pure []
  | d :: rest => do
    if (← get).graph.contains d.target then addAll ctx rest
    else
      let node ← add ctx d
      let further ← addAll ctx rest
      pure (requestsOf node ++ further)

/-- The name of a package in messages. -/
def showPackage (package : String) : String :=
  if package.isEmpty then "." else package

/-- The error that a package has no build file; `wanted` is the request it was needed for, unless
the package itself was asked for. -/
def missingPackage (package : String) : Option Request → BuildError
  | some ⟨some requester, target⟩ =>
    .unresolved requester target (some ("package '" ++ package ++ "' has no build file"))
  | _ => .plain (.noBuildFile (showPackage package))

/-- The targets of a package, if it has a build file. -/
def describePackage (ctx : Context) (package : String) : LoadM (Option (List Description)) :=
  inPass do
    let s ← get
    let (found, packages) ←
      Pass.lift (BuildFile.load s.disk.files ctx.workspace.root s.packages package)
    modify fun s => { s with packages }
    pure found

/-- Load a package; the answer holds the requests of its new targets. -/
def loadPackage (ctx : Context) (package : String) (wanted : Option Request) :
    LoadM (List Request) := do
  match ← describePackage ctx package with
  | none => throw (missingPackage package wanted)
  | some descriptions =>
    inPass (Pass.report .info .graph
      ("loaded package '" ++ showPackage package ++ "' (" ++ toString descriptions.length
        ++ " targets)"))
    addAll ctx descriptions

/-- Load the requested packages, each once; the answer holds them and the requests of their
targets. -/
def loadPackages (ctx : Context) : List String → List String → List Request →
    LoadM (List String × List Request)
  | [], loaded, queue => pure (loaded, queue)
  | package :: rest, loaded, queue => do
    if package ∈ loaded then loadPackages ctx rest loaded queue
    else
      let further ← loadPackage ctx package none
      loadPackages ctx rest (package :: loaded) (queue ++ further)

/-- A target that is not in its package. -/
def missingTarget : Request → BuildError
  | ⟨some requester, target⟩ => .unresolved requester target none
  | ⟨none, target⟩ => .config .notInPackage (some target) none

/-- Refuse a request that its package has not answered. -/
def answer (request : Request) : LoadM Unit := do
  if !(← get).graph.contains request.target then throw (missingTarget request)

/-- Work off the requests at the front of the queue whose packages are loaded. -/
def answerLoaded (loaded : List String) : List Request → LoadM (List Request)
  | [] => pure []
  | request :: rest => do
    if request.target.package ∈ loaded then
      answer request
      answerLoaded loaded rest
    else pure (request :: rest)

/-- One round of the work: the requests at the front of the queue are answered, and then the package
of the next one is loaded. The answer holds the loaded packages and the queue after the round, or
nothing when the queue is worked off. -/
def round (ctx : Context) (loaded : List String) (queue : List Request) :
    LoadM (Option (List String × List Request)) := do
  match ← answerLoaded loaded queue with
  | [] => pure none
  | request :: rest =>
    let further ← loadPackage ctx request.target.package (some request)
    answer request
    pure (some (request.target.package :: loaded, rest ++ further))

/-- Work in rounds, at most so many of them. The answer is what is left to do. -/
def rounds (ctx : Context) : Nat → List String → List Request →
    LoadM (Option (List String × List Request))
  | 0, loaded, queue => pure (some (loaded, queue))
  | fuel + 1, loaded, queue => do
    match ← round ctx loaded queue with
    | none => pure none
    | some (more, rest) => rounds ctx fuel more rest

/-- How many packages can still be loaded while the disk stays as it is: those that are asked for
already, those that are known, and those whose build files are among the entries of the disk. -/
def reach (queue : List Request) (loading : Loading) : Nat :=
  queue.length + loading.session.packages.length + loading.session.disk.files.entries.length

/-- Work off the queue. More packages than can be reached are loaded only if the reply to a command
has put new build files on the disk; then it is counted again how many can be reached, `replies`
times at most. -/
def work (ctx : Context) : Nat → List String → List Request → LoadM Unit
  | replies, loaded, queue => do
    let fuel := reach queue (← get) + 1
    match ← rounds ctx fuel loaded queue with
    | none => pure ()
    | some (more, rest) =>
      match replies with
      | 0 => throw .endlessWalk
      | replies + 1 => work ctx replies more rest

/-- Load the requested packages and roots and everything they reach. -/
def load (ctx : Context) (roots : List Target) (packages : List String) : LoadM Unit := do
  let (loaded, queue) ← loadPackages ctx packages [] []
  let requests := roots.map fun root => (⟨none, root⟩ : Request)
  let replies := (← get).session.recorder.script.length
  work ctx replies loaded (queue ++ requests)

end Loading

end Makewright
