import Makewright.Proofs.Generation.Installing
import Makewright.Proofs.Graph.Packages
import Makewright.Proofs.Node.Scratch

/-!
# Build directories of a graph

In a graph that is loaded, a package with its own configure script is not built inside the directory
that it is copied from if that directory and the one for objects lie apart, and nothing that a node
keeping clear of it generates lies in its build directory (`Loading.load_builds_apart`). Only two
rules for one target are refused, so each of these conditions is needed
(`Loading.load_builds_over`).
-/

set_option autoImplicit false

namespace Makewright

open Path

variable {ctx : Context} {g : Graph}

/-- The build directory of a node of a graph lies outside of the directory that the node is copied
from, if neither this nor the directory for objects lies in the other. What another node generates
lies outside of the build directory, if the directories for generated files do not lie in each other
and the other node keeps clear. -/
structure Graph.BuildsApart (g : Graph) (dirs : GeneratedDirs) (node : Node) (source : String) :
    Prop where
  source : ¬ Within source (Path.normalize dirs.objectDir) →
    ¬ Within (Path.normalize dirs.objectDir) source →
      ¬ Within source (AutoconfSpec.buildDir dirs node.target).fullPath
  others : dirs.SideBySide → ∀ other ∈ g.nodes, other ≠ node → node.KeepsClear dirs other →
    ∀ path ∈ other.generatedPaths dirs,
      ¬ Within (AutoconfSpec.buildDir dirs node.target).fullPath path

namespace Loading

/-- Let a graph be loaded from tidy packages, in a workspace with settings that were read. Then every
package with its own configure script is built apart from the directory that it is copied from and
from what the other nodes generate, as far as directories and names keep clear of each other. -/
theorem load_builds_apart {data : List (Value × Value)} {session later : Session}
    {roots : List Target} {packages : List String}
    (hsettings : Settings.ofMap data = .ok ctx.workspace.settings)
    (hfresh : session.packages = []) (hselected : SelectsTidy roots packages)
    (hload : load ctx roots packages ⟨.empty, session⟩ = .ok () ⟨g, later⟩) :
    ∀ node ∈ g.nodes, ∀ source ∈ node.body.sourceDir?,
      g.BuildsApart ctx.workspace.settings.dirs node source := by
  intro node hnode source _
  have hdirs := Settings.relative_of_ofMap hsettings
  have htidy : IsTidy ctx ⟨g, later⟩ := (load_tidy ctx hselected hfresh).ok hload
  have hconfined := htidy.confined
  refine ⟨(hconfined node hnode).not_within_of_apart hdirs, ?_⟩
  intro hbeside other hother hne hclear path hpath
  have htarget : other.target ≠ node.target := fun hsame =>
    hne (Graph.eq_of_target_eq hother hnode hsame)
  exact (hconfined node hnode).not_within_buildDir (hconfined other hother) hdirs hbeside hclear
    htarget (Node.generates_of_mem_generatedPaths path hpath)

/-- An executable that depends on a package with its own configure script. -/
def configured : Session :=
  Context.workspaceSession
    [([], "[[targets]]\nkind='cc_binary'\nname='draw'\nsources=['draw.c']\n" ++
        "dependencies=['//ext:z']"),
      (["ext"], "[[targets]]\nkind='autoconf'\nname='z'\nsource='z-1.3'")]

/-- The package is built apart from its source directory and from what the executable generates. -/
theorem load_builds_apart_sample :
    ∃ g later, Settings.ofMap [] = .ok sampleContext.workspace.settings ∧
      configured.packages = [] ∧ SelectsTidy [] [""] ∧
      load sampleContext [] [""] ⟨.empty, configured⟩ = .ok () ⟨g, later⟩ ∧
      (∀ node ∈ g.nodes, ∀ source ∈ node.body.sourceDir?,
        g.BuildsApart sampleContext.workspace.settings.dirs node source) ∧
      ∃ node ∈ g.nodes, ¬ Within "ext/z-1.3" (AutoconfSpec.buildDir
          sampleContext.workspace.settings.dirs node.target).fullPath ∧
        ∃ other ∈ g.nodes, other ≠ node ∧
          ∀ path ∈ other.generatedPaths sampleContext.workspace.settings.dirs,
            ¬ Within (AutoconfSpec.buildDir sampleContext.workspace.settings.dirs
              node.target).fullPath path := by
  have hselected : SelectsTidy [] [""] := ⟨nofun, List.forall_mem_singleton.2 isTidy_nil⟩
  have hchecked : sampleContext.checkMade configured [] [""] (fun g _ => decide
      (∃ node ∈ g.nodes, "ext/z-1.3" ∈ node.body.sourceDir? ∧
        ∃ other ∈ g.nodes, other.target ≠ node.target ∧
          node.KeepsClear sampleContext.workspace.settings.dirs other)) = true := by
    decide +kernel
  obtain ⟨g, later, m, settled, hload, -, hmade⟩ := Context.exists_makes_of_check hchecked
  have hsettings : Settings.ofMap [] = .ok sampleContext.workspace.settings := rfl
  have hapart := load_builds_apart hsettings rfl hselected hload
  obtain ⟨node, hnode, hsource, other, hother, hne, hclear⟩ := of_decide_eq_true hmade
  have hdiffer : other ≠ node := fun hsame => hne (congrArg Node.target hsame)
  have hbeside : sampleContext.workspace.settings.dirs.SideBySide :=
    ⟨.inr ⟨by decide, by decide⟩, .inr ⟨by decide, by decide⟩⟩
  refine ⟨g, later, hsettings, rfl, hselected, hload, hapart, node, hnode, ?_, other, hother, hdiffer, ?_⟩
  · exact (hapart node hnode _ hsource).source (by decide) (by decide)
  · exact (hapart node hnode _ hsource).others hbeside other hother hdiffer hclear

end Loading

namespace Graph

/-- The node of a target has its own configure script and is built in the directory that it is copied
from. -/
def BuildsInSource (g : Graph) (dirs : GeneratedDirs) (t : Target) : Prop :=
  ∃ node ∈ g.nodes, node.target = t ∧ ∃ source ∈ node.body.sourceDir?,
    Within source (AutoconfSpec.buildDir dirs t).fullPath

/-- The node of a target has its own configure script, and another one generates something in its
build directory. -/
def BuildsOver (g : Graph) (dirs : GeneratedDirs) (t other : Target) : Prop :=
  (∃ node ∈ g.nodes, node.target = t ∧ node.body.sourceDir?.isSome) ∧
    ∃ node ∈ g.nodes, node.target = other ∧ other ≠ t ∧ ∃ path ∈ node.generatedPaths dirs,
      Within (AutoconfSpec.buildDir dirs t).fullPath path

instance (g : Graph) (dirs : GeneratedDirs) (t : Target) : Decidable (g.BuildsInSource dirs t) :=
  inferInstanceAs (Decidable (∃ _ ∈ _, _))

instance (g : Graph) (dirs : GeneratedDirs) (t other : Target) :
    Decidable (g.BuildsOver dirs t other) :=
  inferInstanceAs (Decidable (_ ∧ _))

end Graph

namespace Context

/-- The packages make a Makefile, though in their graph some targets are built in their own source
directory, and for some pairs of targets the second one generates something in the build directory of
the first. -/
def Overlaps (ctx : Context) (session : Session) (packages : List String) (inSource : List Target)
    (pairs : List (Target × Target)) : Prop :=
  ∃ g m settled, ctx.Makes session [] packages g m settled ∧
    (∀ t ∈ inSource, g.BuildsInSource ctx.workspace.settings.dirs t) ∧
    ∀ pair ∈ pairs, g.BuildsOver ctx.workspace.settings.dirs pair.1 pair.2

theorem overlaps_of_check {session : Session} {packages : List String} {inSource : List Target}
    {pairs : List (Target × Target)} (h : ctx.checkMade session [] packages (fun g _ => decide
      ((∀ t ∈ inSource, g.BuildsInSource ctx.workspace.settings.dirs t) ∧
        ∀ pair ∈ pairs, g.BuildsOver ctx.workspace.settings.dirs pair.1 pair.2)) = true) :
    ctx.Overlaps session packages inSource pairs := by
  obtain ⟨g, -, m, settled, -, hmakes, hchecked⟩ := exists_makes_of_check h
  exact ⟨g, m, settled, hmakes, of_decide_eq_true hchecked⟩

end Context

namespace Loading

/-- Two packages that are built in their own source directory, and one whose build directory others
generate something in. -/
def overlapping : Session :=
  Context.workspaceSession
    [([], "[[targets]]\nkind='autoconf'\nname='r'"),
      ([".gen-obj"], "[[targets]]\nkind='autoconf'\nname='q'\nsource='.gen-obj'"),
      (["ext"], "[[targets]]\nkind='autoconf'\nname='z'"),
      (["ext", "z.build"], "[[targets]]\nkind='autoconf'\nname='w'\n" ++
        "[[targets]]\nkind='cc_library'\nname='x'\nsources=['x.c']"),
      ([".gen-obj", "ext"], "[[targets]]\nkind='cc_library'\nname='z.build'"),
      (["ext", "z.build", "v"], "[[targets]]\nkind='autoconf'\nname='y'")]

/-- A package with its own configure script, and an executable beside it. -/
def neighbours : Session :=
  Context.workspaceSession [([], "[[targets]]\nkind='autoconf'\nname='z'\nsource='z-1.3'\n" ++
    "[[targets]]\nkind='cc_binary'\nname='draw'")]

/-- The directory for packages lies in the one for objects. -/
def nestedDirs : List (Value × Value) :=
  [(.string "paths", .map
    [(.string "object_dir", .string ".gen"), (.string "pkgfile_dir", .string ".gen/z.build")])]

/-- A workspace with nested directories. -/
def nestedContext : Context :=
  let settings := sampleContext.workspace.settings
  let dirs := { settings.dirs with objectDir := ".gen", pkgfileDir := ".gen/z.build" }
  ⟨⟨⟨1, ["work"]⟩, { settings with dirs }, none⟩, .standard, none⟩

/-- A package at the root is built in its source directory, and so is one in the directory for
objects. In the build directory of a package lie the directory of a package and the object of a
library in a directory that is named like it, a target that is named like it itself, and the
directory of a package that is selected by a roundabout path; and with nested directories an
executable beside it. -/
theorem load_builds_over :
    sampleContext.Overlaps overlapping
      ["", ".gen-obj", "ext", "ext/z.build", ".gen-obj/ext",
        "ext/../ext/z.build/v"]
      [⟨"", "r"⟩, ⟨".gen-obj", "q"⟩]
      [(⟨"ext", "z"⟩, ⟨"ext/z.build", "w"⟩),
        (⟨"ext", "z"⟩, ⟨"ext/z.build", "x"⟩),
        (⟨"ext", "z"⟩, ⟨".gen-obj/ext", "z.build"⟩),
        (⟨"ext", "z"⟩, ⟨"ext/../ext/z.build/v", "y"⟩)] ∧
    Settings.ofMap nestedDirs = .ok nestedContext.workspace.settings ∧
    nestedContext.Overlaps neighbours [""] [] [(⟨"", "z"⟩, ⟨"", "draw"⟩)] := by
  refine ⟨Context.overlaps_of_check ?_, rfl, Context.overlaps_of_check ?_⟩
  all_goals decide +kernel

end Loading

end Makewright
