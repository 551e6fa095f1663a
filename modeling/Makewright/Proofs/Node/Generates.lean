import Makewright.Proofs.Node.Outputs
import Makewright.Proofs.Node.Recipes

/-!
# What a node generates

The targets of the rules of a node and the directories that it works in are paths of a few forms
(`Node.Generates`): the name of its own rule, objects of its sources, and names of its target below
the directories for generated files. What holds of these forms holds of everything that a node
generates (`Node.generates_of_mem_generatedPaths`).
-/

set_option autoImplicit false

namespace Makewright

variable {dirs : GeneratedDirs} {node : Node}

/-- A name of a file or a directory that a target generates: its own, with a mark behind it or not,
or that of a library. -/
inductive Target.Names (target : Target) : String → Prop
  | self : Names target target.name
  | build : Names target (target.name ++ ".build")
  | done : Names target (target.name ++ ".done")
  | library {spec : SharedSpec} {name : String} (h : name ∈ spec.names target) : Names target name

namespace Node

/-- What a node generates: the rule of its target, objects, and files and directories with a name of
the target below the directories for generated files. -/
inductive Generates (dirs : GeneratedDirs) (node : Node) : String → Prop
  | rule : Generates dirs node node.userTarget
  | object {c : Compilation} {r : Resource} (hc : node.body.compilation? = some c)
      (hr : r ∈ c.sources.toList) : Generates dirs node (Compilation.objectFor dirs r).fullPath
  | file {root name : String} (hroot : root ∈ [dirs.objectDir, dirs.genfileDir, dirs.pkgfileDir])
      (hname : node.target.Names name) :
    Generates dirs node (node.target.generated root name).fullPath

/-- The directories that a package with its own configure script is built in and installs into. -/
def ownDirs (dirs : GeneratedDirs) (node : Node) : List String :=
  match node.body with
  | .autoconf _ => [(AutoconfSpec.buildDir dirs node.target).fullPath,
      (AutoconfSpec.outputDir dirs node.target).fullPath]
  | _ => []

/-- What a node generates: the targets of its rules and its own directories. -/
def generatedPaths (dirs : GeneratedDirs) (node : Node) : List String :=
  node.ruleTargets dirs ++ node.ownDirs dirs

/-- The targets of its rules are generated by a node. -/
theorem generates_of_mem_ruleTargets :
    ∀ target ∈ node.ruleTargets dirs, node.Generates dirs target := by
  have hobjects : ∀ c, node.body.compilation? = some c → ∀ target ∈
      c.sources.entries.map fun entry => (Compilation.objectFor dirs entry.1).fullPath,
        node.Generates dirs target := by
    intro c hc target htarget
    obtain ⟨entry, hentry, rfl⟩ := List.mem_map.1 htarget
    exact .object hc (List.mem_map_of_mem hentry)
  rw [ruleTargets, List.forall_mem_append, List.forall_mem_singleton]
  refine ⟨?_, .rule⟩
  cases hbody : node.body with
  | library c => exact hobjects c (by rw [hbody]; rfl)
  | binary c =>
    simp only [List.forall_mem_append, List.forall_mem_singleton]
    exact ⟨hobjects c (by rw [hbody]; rfl), .file (by simp) .self⟩
  | sharedLibrary c spec =>
    simp only [List.forall_mem_append]
    refine ⟨hobjects c (by rw [hbody]; rfl), ?_⟩
    -- all files of a library lie beside each other, under its names
    rw [SharedSpec.outputs_eq, List.map_map]
    intro target htarget
    obtain ⟨name, hname, rfl⟩ := List.mem_map.1 htarget
    exact .file (by simp) (.library hname)
  | autoconf spec =>
    simp only [List.forall_mem_singleton]
    exact .file (by simp) .done
  | listing prerequisites => exact nofun

theorem generates_of_mem_generatedPaths :
    ∀ path ∈ node.generatedPaths dirs, node.Generates dirs path := by
  rw [generatedPaths, List.forall_mem_append]
  refine ⟨generates_of_mem_ruleTargets, ?_⟩
  unfold ownDirs
  split
  · simp only [List.forall_mem_cons]
    exact ⟨.file (by simp) .build, .file (by simp) .self, by simp⟩
  · exact nofun

end Node

end Makewright
