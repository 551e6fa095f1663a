import Makewright.Node.Read
import Makewright.Node.Rules

/-!
# Kinds of targets

A `NodeClass` is a way to read targets and to write the head of a Makefile for them; a registry maps
the kinds that build files name to classes. The four kinds of `Registry.standard` are there without
further ado, and other kinds can be registered after them.
-/

set_option autoImplicit false

namespace Makewright

/-- The ways to read a target. The `abstract` class reads none. A `listingFactory` reads the same
nodes as `listing` but has no head of its own. -/
inductive NodeClass where
  | library
  | binary
  | sharedLibrary
  | autoconf
  | abstract
  | listing
  | listingFactory
  deriving DecidableEq, Repr

namespace NodeClass

/-- Read a description. -/
def read (nodeClass : NodeClass) (settings : Settings) (d : Description) :
    Except BuildError Reading :=
  match nodeClass with
  | .library => .complete <$> d.readLibrary settings
  | .binary => .complete <$> d.readBinary settings
  | .sharedLibrary => .complete <$> d.readSharedLibrary settings
  | .autoconf => d.readAutoconf settings
  | .abstract => .error .abstractKind
  | .listing | .listingFactory => .complete <$> d.readListing settings

/-- The head block of everything that compiles. -/
def compileHead (s : Settings) : List String :=
  let assign (name : String) (flags : List String) : String :=
    Text.trimRight (name ++ " := " ++ Shell.commandLine flags)
  ["# C/C++ toolchain",
   "CC := " ++ s.toolchain.cc,
   "CXX := " ++ s.toolchain.cxx,
   assign "CFLAGS" s.toolchain.cflags,
   assign "CXXFLAGS" s.toolchain.cxxflags,
   "CPPFLAGS := -I. -I" ++ s.dirs.genfileDir,
   assign "LDFLAGS" s.toolchain.ldflags]

/-- The head block of executables. -/
def binaryHead : List String := ["# Executables", "BINDIR := $(PREFIX)/bin"]

/-- The head block of shared libraries. -/
def sharedHead : List String :=
  ["# Shared libraries",
   "CFLAGS += -fPIC",
   "CXXFLAGS += -fPIC",
   "SHARED_LDFLAGS := -shared",
   "LIBDIR := $(PREFIX)/lib"]

/-- The head blocks that a class needs, under their keys. -/
def heads (s : Settings) : NodeClass → List (String × List String)
  | .library => [("cc", compileHead s)]
  | .binary => [("cc", compileHead s), ("cc_binary", binaryHead)]
  | .sharedLibrary => [("cc", compileHead s), ("cc_shared_library", sharedHead)]
  | .autoconf | .abstract | .listing | .listingFactory => []

/-- Write the head blocks of a class that are not there yet. -/
def writeHeads (s : Settings) (nodeClass : NodeClass) (m : Makefile) : Makefile :=
  (nodeClass.heads s).foldl (fun acc (key, lines) => acc.addHead key lines) m

end NodeClass

/-- Kinds with the classes that they name, in the order of their registration. -/
structure Registry where
  classes : List (String × NodeClass)
  deriving Repr

namespace Registry

/-- The registry without kinds. -/
def empty : Registry := ⟨[]⟩

/-- The registry with the four standard kinds. -/
def standard : Registry :=
  ⟨[("cc_library", .library), ("cc_binary", .binary), ("cc_shared_library", .sharedLibrary),
    ("autoconf", .autoconf)]⟩

/-- The registered kinds. -/
def kinds (r : Registry) : List String :=
  r.classes.map Prod.fst

/-- A kind is registered. -/
def contains (r : Registry) (kind : String) : Bool :=
  r.kinds.contains kind

/-- Register a class under a kind that is not empty and not taken. -/
def register (r : Registry) (kind : String) (nodeClass : NodeClass) :
    Except BuildError Registry :=
  if kind.isEmpty then .error (.kind .empty)
  else if r.contains kind then .error (.kind (.repeated kind))
  else .ok ⟨r.classes ++ [(kind, nodeClass)]⟩

/-- The class of a kind; the target that asks is named in the error. -/
def find (r : Registry) (kind : String) (target : Option Target) : Except BuildError NodeClass :=
  match r.classes.lookup kind with
  | some nodeClass => .ok nodeClass
  | none => .error (.config (.unknownKind kind r.kinds) target (some (.string "kind")))

end Registry

end Makewright
