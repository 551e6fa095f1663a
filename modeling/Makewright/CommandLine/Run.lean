import Makewright.CommandLine.Arguments
import Makewright.Generation

/-!
# Running the command line

`CommandLine.run` is the whole program as a function of its arguments and of what it finds: a disk,
a working directory and an environment variable that may name the configuration file. What it would
print and the changed disk are its answer.

The journal goes to the error output and, where the settings name one, to a log file, which is made
before anything else happens. An error that the program knows how to report ends it with code 1.
-/

set_option autoImplicit false

namespace Makewright.CommandLine

/-- The variable of the environment that may name the configuration file. -/
def configVariable : String := "BUILDGEN_CONFIG"

/-- What the program finds when it starts. -/
structure Surroundings where
  disk : Disk
  cwd : Location
  configVariable : Option String

/-- How a run ends: refused arguments, an exit code, or an error that it does not report. -/
inductive Ending where
  | refused (refusal : Refusal)
  | finished (code : Nat)
  | escaped (error : BuildError)

/-- What a run leaves behind. The locations are those whose contents it may have asked for. -/
structure Outcome where
  ending : Ending
  stdout : String
  stderr : String
  disk : Disk
  asked : List Location

/-- The level from which on the journal is shown. -/
def threshold (args : Arguments) (s : Settings) : LogLevel :=
  if args.verbose then .debug else s.globals.logLevel

/-- The log file, if there is to be one, without any `..` on its way. -/
def logLocation (w : Workspace) : Option Location :=
  w.settings.globals.logFile.map fun file =>
    Location.parse (Path.normalize (w.root.child file).render)

/-- Add a text at the end of a file, which is made if it is not there. -/
def appendFile (files : FileTree) (l : Location) (text : String) : Except BuildError FileTree := do
  l.checkName
  let before :=
    match files.read l with
    | .ok before => before
    | .error _ => ""
  files.write l (before ++ text)

/-- The requested roots and packages. Without any, it is the package at the root. -/
def selection (args : Arguments) : Except BuildError (List Target × List String) := do
  let roots ← args.targets.mapM fun reference =>
    match Target.parse reference "" with
    | .ok target => .ok target
    | .error e => .error (BuildError.reference e)
  let packages := args.packages.map (Text.strip (· == '/'))
  .ok (roots, if roots.isEmpty && packages.isEmpty then [""] else packages)

/-- What the program works with. -/
def contextOf (w : Workspace) : Context :=
  ⟨w, .standard, some (.repositories (w.root.child w.settings.dirs.sourceDir))⟩

/-- The line that lists a target. -/
def listLine (node : Node) : String :=
  node.target.toString ++ "\t" ++ node.kind ++ "\n"

/-- Do what was asked for; the answer is the text for the standard output. -/
def perform (ctx : Context) (args : Arguments) : Pass String := do
  let (roots, packages) ← Pass.lift (selection args)
  match args.action with
  | .generate output toStdout =>
    if toStdout then ctx.generate roots packages
    else
      let l ← ctx.write (output.filter (!·.isEmpty)) roots packages
      pure ("Wrote " ++ l.render ++ "\n")
  | .validate =>
    let nodes ← Loading.afresh do
      Loading.load ctx roots packages
      Loading.resolve
    pure ("OK: " ++ toString nodes.length ++ " targets\n")
  | .list =>
    let nodes ← Loading.afresh do
      Loading.load ctx roots packages
      Loading.resolve
    pure ("".intercalate (nodes.map listLine))

/-- An error that the program reports itself. -/
def isReported : BuildError → Bool
  | .config .. | .unresolved .. | .cycle _ | .sourceUnavailable .. | .dangling _ => true
  | .reference _ | .template _ | .kind _ | .custom _ => true
  | .scalar (.calendar _) | .scalar (.badInteger ..) | .scalar (.badFloat _) => true
  | .scalar (.tooManyDigits _) | .scalar .tooLong | .scalar .codePoint => true
  | .scalar (.unencodable _) | .scalar .nullCharacter => true
  | .file .. => true
  | _ => false

/-- The ending and the last line of the error output that an error makes. -/
def report (e : BuildError) : Ending × String :=
  if isReported e then (.finished 1, "Error: " ++ e.message ++ "\n") else (.escaped e, "")

/-- The files that a pass may have asked for. -/
def askedFor (w : Workspace) (args : Arguments) (packages : PackageCache) : List Location :=
  let output :=
    match args.action with
    | .generate output _ => [(contextOf w).outputLocation output]
    | _ => []
  let inPackage (package : String) : List Location :=
    Document.formats.map fun format =>
      (BuildFile.directory w.root package).child (BuildFile.stem ++ format.1)
  (logLocation w).toList ++ output ++ packages.flatMap fun entry => inPackage entry.1

/-- The configuration files that the program may ask for. -/
def configFiles (args : Arguments) (s : Surroundings) (root : Location) : List Location :=
  match Workspace.requested (args.config.filter (!·.isEmpty)) s.configVariable with
  | some file => [root.child file]
  | none => Document.formats.map fun format => root.child (Workspace.configStem ++ format.1)

/-- Run with a workspace that has been loaded. -/
def runIn (w : Workspace) (args : Arguments) (disk : Disk) : Outcome :=
  let log := logLocation w
  match log.elim (.ok disk.files) fun l => appendFile disk.files l "" with
  | .error e =>
    let (ending, line) := report e
    ⟨ending, "", line, disk, askedFor w args []⟩
  | .ok files =>
    let (result, session) : Except BuildError String × Session :=
      match perform (contextOf w) args (Session.new { disk with files } []) with
      | .ok text session => (.ok text, session)
      | .error e session => (.error e, session)
    let lines := session.journal.log (threshold args w.settings)
    let disk :=
      match log.map fun l => appendFile session.disk.files l lines with
      | some (.ok files) => { session.disk with files }
      | _ => session.disk
    let asked := askedFor w args session.packages
    match result with
    | .ok text => ⟨.finished 0, text, lines, disk, asked⟩
    | .error e =>
      let (ending, line) := report e
      ⟨ending, "", lines ++ line, disk, asked⟩

/-- The whole program. -/
def run (words : List String) (s : Surroundings) : Outcome :=
  match Arguments.parse words with
  | .error refusal => ⟨.refused refusal, "", "", s.disk, []⟩
  | .ok args =>
    let root := Location.resolve s.cwd (Location.parse args.root)
    let asked := configFiles args s root
    match Workspace.load s.disk.files root (args.config.filter (!·.isEmpty)) s.configVariable with
    | .error e =>
      let (ending, line) := report e
      ⟨ending, "", line, s.disk, asked⟩
    | .ok w =>
      let outcome := runIn w args s.disk
      { outcome with asked := asked ++ outcome.asked }

end Makewright.CommandLine
