import Makewright.Error
import Makewright.Node.Basic

/-!
# Link inputs

What a node hands to the link command of a dependent. A library hands on its own objects and what
its dependencies hand on; a shared library hands on the file that is linked against and, of what its
dependencies hand on, only other shared libraries; an executable and a package with its own
configure script hand on nothing.

The walk follows dependencies as deep as `fuel` allows. As no path without a repetition is longer
than the number of nodes, a walk that needs more fuel than that runs in a cycle.
-/

set_option autoImplicit false

namespace Makewright

/-- The nodes that a walk can look up. -/
abbrev NodeIndex := Target → Option Node

/-- The index of a list of nodes. -/
def indexOf (nodes : List Node) : NodeIndex :=
  fun target => nodes.find? fun node => node.target == target

namespace Node

variable (dirs : GeneratedDirs) (index : NodeIndex) (language : Language)

/-- The objects of a compilation in one language. -/
def ownObjects (c : Compilation) : List (Resource × Language) :=
  ((c.objects dirs).withTag language).map (·, language)

/-- Let every dependency append what it has to hand on. -/
def followAll (index : NodeIndex) (visit : Node → FileSet → Except BuildError FileSet)
    (dependencies : List Target) (files : FileSet) : Except BuildError FileSet :=
  dependencies.foldlM (fun acc dependency =>
    match index dependency with
    | some next => visit next acc
    | none => .error .unknownName) files

/-- Append what a node hands to the link command of a dependent, in one language. -/
def objectFiles : Nat → Node → FileSet → Except BuildError FileSet
  | 0, _, _ => .error .endlessWalk
  | fuel + 1, node, files =>
    let follow := followAll index (objectFiles fuel) node.dependencies
    match node.body with
    | .library c => follow (files.insertAll (ownObjects dirs language c))
    | .sharedLibrary _ spec => do
      let inherited ← follow FileSet.empty
      .ok ((files.insert (spec.linkName dirs node.target) .none).insertAll
        (inherited.entries.filter fun entry => entry.2 == .none))
    | .binary _ | .autoconf _ => .ok files
    | .listing _ => follow files

/-- A node seen as a library: what its own link command takes in. -/
def asLibrary (node : Node) (c : Compilation) : Node :=
  { node with body := .library c }

end Node

/-- The inputs of the link command of a node: its own objects and what its dependencies hand on,
first for C and then for C++. -/
def linkInputs (dirs : GeneratedDirs) (node : Node) (c : Compilation) (closure : List Node) :
    Except BuildError FileSet := do
  let index := indexOf closure
  let fuel := closure.length + 1
  let inputs ← Node.objectFiles dirs index .c fuel (node.asLibrary c) FileSet.empty
  Node.objectFiles dirs index .cxx fuel (node.asLibrary c) inputs

end Makewright
