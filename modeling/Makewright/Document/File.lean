import Makewright.Disk.FileTree
import Makewright.Document.Json
import Makewright.Document.Toml
import Makewright.Document.Yaml.Basic
import Makewright.Settings

/-!
# Documents on a disk

Documents are files whose extension says in which format they are written. A document that is looked
for by its stem may have any of the known extensions, but there may be only one such file. Whatever
the format, a document holds a map; one without a value counts as empty.

Any reader can be taken for YAML (`YamlReader`): it may give a value, find that the text is no YAML,
or end with an error of its own, which is passed on. `load` takes the reader of this library. A
value that contains itself, as an alias inside its own anchor would make it, is no `Value`, and that
reader refuses it.
-/

set_option autoImplicit false

namespace Makewright

namespace Document

/-- The known extensions with their formats, in the order in which files are looked for. -/
def formats : List (String × Format) :=
  [(".toml", .toml), (".json", .json), (".yaml", .yaml), (".yml", .yaml)]

/-- The known extensions as a message lists them. -/
def supported : String := ".json, .toml, .yaml, .yml"

/-- A reader of YAML texts with plain line ends. -/
abbrev YamlReader := List Char → Except DocumentFault Value

/-- The value of a text in a format. -/
def readWith (yaml : YamlReader) (format : Format) (text : String) : Except DocumentFault Value :=
  match format with
  | .toml => Toml.read text.toList
  | .json => Json.read (plainLineEnds text.toList)
  | .yaml => yaml (plainLineEnds text.toList)

/-- The entries of a document with a given text; `path` is where it was found. -/
def entriesWith (yaml : YamlReader) (path : String) (format : Format) (text : String) :
    Except BuildError (List (Value × Value)) :=
  match readWith yaml format text with
  | .error .malformed => .error (.plain (.unparsable path format))
  | .error (.scalar fault) => .error (.scalar fault)
  | .ok .null => .ok []
  | .ok (.map found) => .ok found
  | .ok _ => .error (.plain (.notMapping path))

/-- The entries of the document at a location. -/
def loadWith (yaml : YamlReader) (files : FileTree) (l : Location) :
    Except BuildError (List (Value × Value)) :=
  let extension := Text.lower l.extension
  match formats.lookup extension with
  | none => .error (.plain (.unsupportedExtension extension l.render supported))
  | some format => do entriesWith yaml l.render format (← files.read l)

/-- The entries of the document at a location, by the reader of this library. -/
def load (files : FileTree) (l : Location) : Except BuildError (List (Value × Value)) :=
  loadWith Yaml.read files l

/-- The one document in a directory with a given stem, if there is any. -/
def find (files : FileTree) (directory : Location) (stem : String) :
    Except BuildError (Option Location) := do
  if !(← files.isDirectory directory) then .ok none
  else
    let candidates := formats.map fun format => directory.child (stem ++ format.1)
    match ← candidates.filterM files.isFile with
    | [] => .ok none
    | [one] => .ok (some one)
    | several =>
      .error (.plain (.severalFiles stem directory.render (several.map Location.name)))

end Document

/-- A workspace: its root directory, its settings and the file that they come from. -/
structure Workspace where
  root : Location
  settings : Settings
  source : Option Location

namespace Workspace

/-- The stem of the configuration file. -/
def configStem : String := "buildgen"

/-- The configuration file that was asked for by name: directly, or else by the environment, where
an empty name does not count. -/
def requested (name environment : Option String) : Option String :=
  match name with
  | some file => some file
  | none => environment.filter (!·.isEmpty)

/-- The configuration file: the one asked for, which has to be there, or the one that stands in the
root directory. -/
def configFile (files : FileTree) (root : Location) (name environment : Option String) :
    Except BuildError (Option Location) := do
  match requested name environment with
  | none => Document.find files root configStem
  | some file =>
    let l := root.child file
    if ← files.isFile l then .ok (some l) else .error (.plain (.fileNotFound l.render))

/-- Load the settings of the workspace at a root directory. -/
def load (files : FileTree) (root : Location) (name environment : Option String) :
    Except BuildError Workspace := do
  let source ← configFile files root name environment
  let data ← source.elim (.ok []) (Document.load files)
  .ok ⟨root, ← Settings.ofMap data, source⟩

end Workspace

end Makewright
