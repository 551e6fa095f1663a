import Makewright.Shell.Quote
import Makewright.Target
import Makewright.Template

/-!
# Errors

Everything that can go wrong between reading a workspace and writing a Makefile, one constructor per
cause. The wording of every error is in the `message` functions of this module and nowhere else.

A `BuildError.config` says what is wrong with a description or a setting and, where it is known, at
which target and under which key; the key is a value, because the key of a map need not be a text.
-/

set_option autoImplicit false

namespace Makewright

/-- Why a value is no list of texts; `field` is the name it goes by. -/
inductive ListFault where
  | entryNotText (field : Option String)
  | notList (field : Option String)
  deriving DecidableEq, Repr

/-- The wording of a list fault. -/
def ListFault.message (fault : ListFault) : String :=
  match fault with
  | .entryNotText field => label field ++ "entries must be strings"
  | .notList field => label field ++ "must be a string or sequence of strings"
where
  /-- The name of the field as it stands in front of the wording. -/
  label : Option String → String
    | some name => if name.isEmpty then "" else name ++ " "
    | none => ""

/-- The format that a document is written in. -/
inductive Format where
  | toml
  | json
  | yaml
  deriving DecidableEq, Repr

/-- The name of a format. -/
def Format.name : Format → String
  | .toml => "TOML"
  | .json => "JSON"
  | .yaml => "YAML"

/-- What is wrong with a description, a build file or a setting. -/
inductive ConfigFault where
  | custom (text : String)
  | unsupportedExtension (extension path supported : String)
  | unparsable (path : String) (format : Format)
  | notMapping (path : String)
  | severalFiles (stem directory : String) (names : List String)
  | fileNotFound (path : String)
  | sectionNotTable (name : String)
  | notNonEmptyString
  | notString
  | unknownLogLevel (level expected : String)
  | notRelative
  | badList (fault : ListFault)
  | unexpectedKeys (path : String) (keys : List Value)
  | targetsNotList (path : String)
  | targetNotTable (path : String) (position : Nat)
  | nameMissing (path : String) (position : Nat)
  | badName (path name : String)
  | kindMissing (path : String)
  | repeatedInFile (path : String)
  | unsupportedByKind (kind : String)
  | badTemplate (error : TemplateError)
  | required
  | empty
  | notTextTable
  | entryNotText (name : String)
  | badReference (error : ReferenceError)
  | dependsOnItself
  | leavesWorkspace (path : String)
  | unsupportedSource (path : String)
  | notFrontOfPackage (front package : String)
  | combinedWithParts
  | notVersion (text : String)
  | notUnsigned (text : String)
  | requiresMajor
  | combinedWithUrl
  | requiresUrl
  | noFetcher
  | repeatedRule (target : String)
  | unknownKind (kind : String) (available : List String)
  | repeatedTarget
  | noBuildFile (package : String)
  | notInPackage
  deriving Repr

/-- The wording of a fault, without the place where it was found. -/
def ConfigFault.message : ConfigFault → String
  | .custom text => text
  | .unsupportedExtension extension path supported =>
    "Unsupported configuration file extension '" ++ extension ++ "' for " ++ path ++ ". Supported: "
      ++ supported
  | .unparsable path format => "Unable to parse " ++ path ++ ": malformed " ++ format.name
  | .notMapping path => "Configuration file '" ++ path ++ "' must contain a mapping at the root"
  | .severalFiles stem directory names =>
    "Multiple files found for '" ++ stem ++ "' in " ++ directory ++ ": '"
      ++ "', '".intercalate names ++ "'. Only one format is allowed."
  | .fileNotFound path => "Configuration file not found: " ++ path
  | .sectionNotTable name => "[" ++ name ++ "] must be a table"
  | .notNonEmptyString => "must be a non-empty string"
  | .notString => "must be a string"
  | .unknownLogLevel level expected =>
    "unknown log level '" ++ level ++ "'; expected one of " ++ expected
  | .notRelative => "must be relative to the workspace root"
  | .badList fault => fault.message
  | .unexpectedKeys path keys =>
    path ++ ": unexpected top-level keys: " ++ ", ".intercalate (keys.map Value.display)
  | .targetsNotList path => path ++ ": 'targets' must be a list of tables"
  | .targetNotTable path position =>
    path ++ ": targets[" ++ toString position ++ "] must be a table"
  | .nameMissing path position =>
    path ++ ": targets[" ++ toString position ++ "] needs a non-empty string"
  | .badName path name => path ++ ": invalid target name '" ++ name ++ "'"
  | .kindMissing path => path ++ ": missing target kind"
  | .repeatedInFile path => path ++ ": target defined more than once"
  | .unsupportedByKind kind => "not supported by kind '" ++ kind ++ "'"
  | .badTemplate error => error.message
  | .required => "is required"
  | .empty => "cannot be empty"
  | .notTextTable => "must be a table of strings"
  | .entryNotText name => "entry '" ++ name ++ "' must be a string"
  | .badReference error => error.message
  | .dependsOnItself => "a target cannot depend on itself"
  | .leavesWorkspace path => "'" ++ path ++ "' must stay inside the workspace"
  | .unsupportedSource path => "unsupported source file '" ++ path ++ "'"
  | .notFrontOfPackage front package =>
    "'" ++ front ++ "' is not a prefix of package '" ++ package ++ "'"
  | .combinedWithParts => "cannot be combined with major_version/minor_version/release_version"
  | .notVersion text => "'" ++ text ++ "' does not look like MAJOR.MINOR.RELEASE"
  | .notUnsigned text => "'" ++ text ++ "' is not an unsigned integer"
  | .requiresMajor => "requires major_version"
  | .combinedWithUrl => "cannot be combined with source_url"
  | .requiresUrl => "requires source_url"
  | .noFetcher => "no source fetcher is configured"
  | .repeatedRule target => "Rule for '" ++ target ++ "' is defined more than once"
  | .unknownKind kind available =>
    "unknown target kind '" ++ kind ++ "'. Available kinds: "
      ++ if available.isEmpty then "<none>" else ", ".intercalate available
  | .repeatedTarget => "target is defined more than once"
  | .noBuildFile package => "package '" ++ package ++ "' has no build file"
  | .notInPackage => "target is not defined in its package"

/-- Why a kind cannot be registered. -/
inductive KindError where
  | empty
  | repeated (kind : String)
  deriving DecidableEq, Repr

/-- The wording of a kind error. -/
def KindError.message : KindError → String
  | .empty => "Node kind cannot be empty"
  | .repeated kind => "Node kind '" ++ kind ++ "' is already registered"

/-- Why a text or another scalar does not make a value of the type it is wanted as. -/
inductive ScalarFault where
  | calendar (error : CalendarError)
  | badInteger (base : Nat) (text : String)
  | badFloat (text : String)
  | tooManyDigits (count : Nat)
  | tooLong
  | unencodable (refusal : Text.Refusal)
  | nullCharacter
  | codePoint
  | hugeCodePoint
  | emptyNumber
  | unknownBoolean
  | noTimestamp
  | hugeUnit
  | notText
  deriving DecidableEq, Repr

/-- The wording of a scalar fault. -/
def ScalarFault.message : ScalarFault → String
  | .calendar error => error.message
  | .badInteger base text =>
    "invalid literal for int() with base " ++ toString base ++ ": "
      ++ String.ofList ((Text.quoted text).toList.take 200)
  | .badFloat text => "could not convert string to float: " ++ Text.quoted text
  | .tooManyDigits count =>
    "Exceeds the limit (" ++ toString Numeral.mostDigits
      ++ " digits) for integer string conversion: value has " ++ toString count
      ++ " digits; use sys.set_int_max_str_digits() to increase the limit"
  | .tooLong => Numeral.limitMessage
  | .unencodable refusal =>
    "'utf-8' codec can't encode character" ++ run refusal ++ ": surrogates not allowed"
  | .nullCharacter => "embedded null byte"
  | .codePoint => "chr() arg not in range(0x110000)"
  | .hugeCodePoint => "the code point is too large"
  | .emptyNumber => "a number without digits"
  | .unknownBoolean => "no truth value"
  | .noTimestamp => "no timestamp"
  | .hugeUnit => "int too large to convert to float"
  | .notText => "expected string or bytes-like object, got 'list'"
where
  /-- One code point with its position, or the first and the last position of several. -/
  run (refusal : Text.Refusal) : String :=
    match refusal.codes with
    | [code] =>
      " '" ++ String.ofList (Text.numericEscape code) ++ "' in position "
        ++ toString refusal.position
    | codes =>
      "s in position " ++ toString refusal.position ++ "-"
        ++ toString (refusal.position + codes.length - 1)

/-- What the file system refuses. -/
inductive FileFault where
  | notFound
  | notDirectory
  | isDirectory
  | alreadyThere
  | nameTooLong
  | busy
  deriving DecidableEq, Repr

/-- The wording of a file fault at a path. -/
def FileFault.message (fault : FileFault) (path : String) : String :=
  head fault ++ ": " ++ Text.quoted path
where
  /-- The number and the text of the fault. -/
  head : FileFault → String
    | .notFound => "[Errno 2] No such file or directory"
    | .notDirectory => "[Errno 20] Not a directory"
    | .isDirectory => "[Errno 21] Is a directory"
    | .alreadyThere => "[Errno 17] File exists"
    | .nameTooLong => "[Errno 36] File name too long"
    | .busy => "[Errno 16] Device or resource busy"

/-- The outcome of a command that has run. -/
structure CommandResult where
  command : List String
  returncode : Int
  stdout : String
  stderr : String
  deriving DecidableEq, Repr, Inhabited

/-- The wording of a failed command. -/
def CommandResult.failure (r : CommandResult) : String :=
  "Command failed with exit code " ++ toString r.returncode ++ ": "
    ++ Shell.commandLine r.command ++ "\nstderr: " ++ Text.trim r.stderr

/-- Everything that can go wrong. -/
inductive BuildError where
  | config (fault : ConfigFault) (target : Option Target) (key : Option Value)
  | unresolved (target dependency : Target) (reason : Option String)
  | cycle (path : List Target)
  | sourceUnavailable (identifier reason : String) (target : Option Target)
  | dangling (pairs : List (String × String))
  | reference (error : ReferenceError)
  | template (error : TemplateError)
  | kind (error : KindError)
  | list (fault : ListFault)
  | scalar (fault : ScalarFault)
  | commandFailed (result : CommandResult)
  | custom (text : String)
  | unknownName
  | abstractKind
  | endlessWalk
  | file (fault : FileFault) (path : String)
  deriving Repr

namespace BuildError

/-- The place of a configuration error, as it stands before its wording. -/
def place (target : Option Target) (key : Option Value) : String :=
  let targetPart := target.toList.map Target.toString
  let attributePart :=
    match key with
    | some k => if k.isTruthy then ["attribute '" ++ k.display ++ "'"] else []
    | none => []
  ", ".intercalate (targetPart ++ attributePart)

/-- The wording of an error. -/
def message : BuildError → String
  | .config fault target key =>
    let site := place target key
    if site.isEmpty then fault.message else site ++ ": " ++ fault.message
  | .unresolved target dependency reason =>
    let text := target.toString ++ " depends on " ++ dependency.toString ++ ", which is not defined"
    match reason with
    | some r => if r.isEmpty then text else text ++ " (" ++ r ++ ")"
    | none => text
  | .cycle path => "Dependency cycle detected: " ++ " -> ".intercalate (path.map Target.toString)
  | .sourceUnavailable identifier reason target =>
    (match target with
      | some t => t.toString ++ ": "
      | none => "")
      ++ "Unable to fetch '" ++ identifier ++ "': " ++ reason
  | .dangling pairs =>
    "Rules reference prerequisites that no rule or source provides: "
      ++ ", ".intercalate (pairs.map fun (rule, name) => rule ++ " <- " ++ name)
  | .reference error => error.message
  | .template error => error.message
  | .kind error => error.message
  | .list fault => fault.message
  | .scalar fault => fault.message
  | .commandFailed result => result.failure
  | .custom text => text
  | .unknownName => "no such name"
  | .abstractKind => "the kind describes no targets"
  | .endlessWalk => "the walk does not end"
  | .file fault path => fault.message path

/-- The text of a value; a value without one is an error of its own. -/
def textOf (v : Value) : Except BuildError String :=
  v.display?.elim (.error (.scalar .tooLong)) .ok

/-- The file system has refused something. -/
def isFileFault : BuildError → Bool
  | .file .. => true
  | _ => false

/-- A configuration error with neither a target nor a key. -/
def plain (fault : ConfigFault) : BuildError :=
  .config fault none none

/-- A configuration error under a key. -/
def under (key : String) (fault : ConfigFault) : BuildError :=
  .config fault none (some (.string key))

end BuildError

end Makewright
