import Makewright.Path
import Makewright.Text.LowerCase
import Makewright.TextList

/-!
# Workspace settings

The settings of a workspace: three sections of a configuration document, each of them optional.
`Settings.ofMap` reads a document and refuses values of the wrong kind; the error names the section
and the key. Keys that no section defines are not looked at.
-/

set_option autoImplicit false

namespace Makewright

/-- The levels of log messages, from the chattiest on. -/
inductive LogLevel where
  | debug
  | info
  | warning
  | error
  | critical
  deriving DecidableEq, Repr, Inhabited

namespace LogLevel

/-- The written name of a level. -/
def name : LogLevel → String
  | .debug => "debug"
  | .info => "info"
  | .warning => "warning"
  | .error => "error"
  | .critical => "critical"

/-- The name of a level in a log line. -/
def label : LogLevel → String
  | .debug => "DEBUG"
  | .info => "INFO"
  | .warning => "WARNING"
  | .error => "ERROR"
  | .critical => "CRITICAL"

/-- How severe a level is. -/
def severity : LogLevel → Nat
  | .debug => 10
  | .info => 20
  | .warning => 30
  | .error => 40
  | .critical => 50

/-- All levels in the order of their names. -/
def all : List LogLevel := [.critical, .debug, .error, .info, .warning]

/-- The level with a given name. -/
def ofName? (s : String) : Option LogLevel :=
  all.find? fun level => level.name == s

end LogLevel

/-- The section `global`: logging and the name of the output. -/
structure GlobalSettings where
  logLevel : LogLevel
  logFile : Option String
  output : String
  deriving DecidableEq, Repr

/-- The section `paths`: the directories for generated files, relative to the workspace. -/
structure GeneratedDirs where
  objectDir : String
  genfileDir : String
  sourceDir : String
  pkgfileDir : String
  deriving DecidableEq, Repr

/-- The section `toolchain`: compilers, flags and the place to install to. -/
structure Toolchain where
  cc : String
  cxx : String
  cflags : List String
  cxxflags : List String
  ldflags : List String
  installRoot : String
  deriving DecidableEq, Repr

/-- All settings of a workspace. -/
structure Settings where
  globals : GlobalSettings
  dirs : GeneratedDirs
  toolchain : Toolchain
  deriving DecidableEq, Repr

namespace Settings

/-- The name of a key inside a section. -/
def keyName (table key : String) : String :=
  table ++ "." ++ key

/-- A section of the document; a missing section and one without a value are empty. -/
def table (data : List (Value × Value)) (name : String) :
    Except BuildError (List (Value × Value)) :=
  match Value.find? data name with
  | none | some .null => .ok []
  | some (.map entries) => .ok entries
  | some _ => .error (.under name (.sectionNotTable name))

/-- A text that must not be blank, trimmed; the default stands in for a missing key only. -/
def text (name : String) (entries : List (Value × Value)) (key default : String) :
    Except BuildError String :=
  match (Value.find? entries key).getD (.string default) with
  | .string s =>
    if Text.isAllBlank s then .error (.under (keyName name key) .notNonEmptyString)
    else .ok (Text.trim s)
  | _ => .error (.under (keyName name key) .notNonEmptyString)

/-- A list of texts. -/
def texts (name : String) (entries : List (Value × Value)) (key : String) :
    Except BuildError (List String) :=
  let full := keyName name key
  match TextList.ofValue ((Value.find? entries key).getD .null) (some full) with
  | .ok items => .ok items
  | .error fault => .error (.under full (.badList fault))

/-- A directory below the workspace root, without trailing slashes. -/
def directory (entries : List (Value × Value)) (key default : String) :
    Except BuildError String := do
  let value ← text "paths" entries key default
  let bare := String.ofList (Text.dropRight (· == '/') value.toList)
  if Path.isAbsolute bare || Path.startsUpward bare then
    .error (.under (keyName "paths" key) .notRelative)
  else .ok bare

/-- Read the section `global`. -/
def readGlobals (data : List (Value × Value)) : Except BuildError GlobalSettings := do
  let entries ← table data "global"
  let levelName := Text.lower (← text "global" entries "log_level" "warning")
  let some logLevel := LogLevel.ofName? levelName
    | .error (.under "global.log_level"
        (.unknownLogLevel levelName (", ".intercalate (LogLevel.all.map LogLevel.name))))
  let logFile ←
    match (Value.find? entries "log_file").getD .null with
    | .null => .ok none
    | .string s => .ok (if s.isEmpty then none else some s)
    | _ => .error (.under "global.log_file" .notString)
  let output ← text "global" entries "output" "Makefile"
  .ok ⟨logLevel, logFile, output⟩

/-- Read the section `paths`. -/
def readDirs (data : List (Value × Value)) : Except BuildError GeneratedDirs := do
  let entries ← table data "paths"
  let objectDir ← directory entries "object_dir" ".gen-obj"
  let genfileDir ← directory entries "genfile_dir" ".gen-files"
  let sourceDir ← directory entries "source_dir" ".gen-src"
  let pkgfileDir ← directory entries "pkgfile_dir" ".gen-pkg"
  .ok ⟨objectDir, genfileDir, sourceDir, pkgfileDir⟩

/-- Read the section `toolchain`. -/
def readToolchain (data : List (Value × Value)) : Except BuildError Toolchain := do
  let entries ← table data "toolchain"
  let cc ← text "toolchain" entries "cc" "cc"
  let cxx ← text "toolchain" entries "cxx" "c++"
  let cflags ← texts "toolchain" entries "cflags"
  let cxxflags ← texts "toolchain" entries "cxxflags"
  let ldflags ← texts "toolchain" entries "ldflags"
  let installRoot ← text "toolchain" entries "prefix" "/usr/local"
  .ok ⟨cc, cxx, cflags, cxxflags, ldflags, installRoot⟩

/-- Read the settings from the entries of a configuration document. -/
def ofMap (data : List (Value × Value)) : Except BuildError Settings := do
  let globals ← readGlobals data
  let dirs ← readDirs data
  let toolchain ← readToolchain data
  .ok ⟨globals, dirs, toolchain⟩

/-- The directories that hold nothing but generated files. -/
def cleanedDirs (s : Settings) : List String :=
  [s.dirs.objectDir, s.dirs.genfileDir, s.dirs.pkgfileDir]

/-- The values that templates can name for a target. -/
def templateContext (s : Settings) (target : Target) : Value :=
  let entry (key value : String) : Value × Value := (.string key, .string value)
  .map
    [(.string "paths", .map
        [entry "object_dir" s.dirs.objectDir, entry "genfile_dir" s.dirs.genfileDir,
         entry "source_dir" s.dirs.sourceDir, entry "pkgfile_dir" s.dirs.pkgfileDir]),
     (.string "package", .map [entry "path" target.package, entry "name" target.name]),
     (.string "toolchain", .map
        [entry "prefix" s.toolchain.installRoot, entry "cc" s.toolchain.cc,
         entry "cxx" s.toolchain.cxx])]

end Settings

end Makewright
