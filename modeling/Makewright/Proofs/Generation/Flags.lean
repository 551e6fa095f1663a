import Makewright.Proofs.Generation.Invocations
import Makewright.Proofs.Generation.Legible
import Mathlib.Data.List.Infix

/-!
# Flags reach the tools

What make reads in the text of a graph, and what a shell makes of the commands that make then hands
to it, are the argument vectors that the nodes ask for (`render_flags`). A flag arrives as it was
written and in its place, however it is made up; only the linker flags of a node and of what it
depends on are put together, each flag once.

This holds as long as nothing that a node names means anything to make, since the text holds names,
paths and flags as they are. A dollar sign or a line break in a flag, a number sign in a flag of the
toolchain and a quote in a path each change what arrives (`render_flags_alters`).
-/

set_option autoImplicit false

namespace Makewright

open Make Makefile

variable {ctx : Context} {s : Settings} {node : Node} {nodes : List Node} {m : Makefile}

namespace Node

theorem compileBlock_mem_heads {c : Compilation} (h : node.body.compilation? = some c) :
    compileBlock s ∈ node.heads s := by
  unfold heads kind
  cases hbody : node.body <;> rw [hbody] at h <;> cases h
  · exact List.mem_cons_self
  · exact List.mem_cons_self
  · exact List.mem_cons_self

theorem sharedBlock_mem_heads_iff :
    sharedBlock ∈ node.heads s ↔ node.kind = "cc_shared_library" := by
  unfold heads kind
  cases node.body <;>
    simp [Body.kind, Registry.standard, NodeClass.heads, sharedBlock, List.lookup_cons,
      List.lookup_nil]

end Node

/-- There is a block about shared libraries exactly if there are some. -/
theorem Makefile.Fronted.sharedFlags_eq (h : Fronted s nodes m) :
    sharedFlags m.heads = positionFlags nodes := by
  have hmem : sharedBlock ∈ m.heads ↔ nodes.any (·.kind == "cc_shared_library") = true := by
    have hne : sharedBlock ≠ workspaceBlock s := by simp [sharedBlock, workspaceBlock]
    rw [h.mem_heads]
    simp [hne, Node.sharedBlock_mem_heads_iff]
  simp only [sharedFlags, positionFlags, hmem]

/-- The targets of all rules are distinct. -/
theorem Makefile.Admissible.nodup_allRules (h : Admissible m.targets)
    (hinstall : m.install.target = installTarget) : (m.allRules.map Rule.target).Nodup := by
  rw [allRules, List.map_append]
  refine nodup_append_singleton h.nodup ?_
  rw [hinstall]
  exact h.install

namespace Loading

/-- Whenever plain nodes are rendered to a text, make reads it, and the rules of every node run the
tools with the argument vectors that the node asks for. -/
theorem render_flags {loading after : Loading} {text : String} {t : Tools} {given : Values}
    (hrender : render ctx loading = .ok text after) (hregistry : ctx.registry = .standard)
    (hsettings : ctx.workspace.settings.Plain t.cc t.cxx)
    (hnodes : ∀ node ∈ loading.graph.nodes, node.Plain) (hgiven : t.Given given)
    (machine : Shell.Machine) :
    ∃ reading, Make.read given text.toList = some reading ∧
      ∀ node ∈ loading.graph.nodes, ∃ closure,
        after.graph.dependenciesOf node.target = (.ok closure, after.graph) ∧
        node.Invokes t ctx.workspace.settings (positionFlags loading.graph.nodes)
          (reading.vectors machine) closure := by
  obtain ⟨m, hgraph, rfl⟩ := made_of_render hrender
  obtain ⟨nodes, hresolve, hm⟩ := assembled_of_ofGraph hgraph
  rw [ofGraph_eq ctx hresolve, Prod.mk.injEq] at hgraph
  have hmade := hgraph.1
  have hclosures := closures_of_resolve hresolve
  have hfronted := fronted_of_assemble hregistry (assemble_of_ofNodes hmade)
  obtain ⟨values, hsettles, hvalued⟩ := exists_valued hsettings hfronted.stacked given
  have hlegible := legible_of_ofNodes hregistry hclosures
    (hsettings.dirs.mono fun _ => isVerbatim_of_isPlain)
    (fun node hnode => (hnodes node hnode).legible) hmade hsettles.isLine
  have hnodup := hm.admissible.nodup_allRules (by rw [hm.install]; rfl)
  have hflags : sharedFlags m.heads = positionFlags loading.graph.nodes := by
    rw [hfronted.sharedFlags_eq, positionFlags, positionFlags, hclosures.perm.any_eq]
  refine ⟨m.reading values, read_serialize hlegible hsettles.read, ?_⟩
  intro node hnode
  have hmem : node ∈ nodes := hclosures.perm.symm.subset hnode
  obtain ⟨closure, recipes, hanswer, hclosure, hrecipes⟩ :=
    Graph.exists_recipes_of_resolve hresolve ctx.workspace.settings.dirs hnode
  have hrule : ∀ recipe ∈ recipes, recipe.rule ∈ m.allRules := by
    intro recipe hrecipe
    refine List.mem_append_left _ (hm.rule_mem hmem ?_)
    rw [emitted_eq (congrArg Prod.fst hanswer) hrecipes]
    exact hrecipe
  have hcompile : ∀ c, node.body.compilation? = some c →
      compileBlock ctx.workspace.settings ∈ m.heads := fun c hc =>
    (hfronted.mem_heads _).2 (.inr ⟨node, hmem, Node.compileBlock_mem_heads hc⟩)
  have hshared : ∀ c spec, node.body = .sharedLibrary c spec → sharedBlock ∈ m.heads := by
    intro c spec hc
    refine (hfronted.mem_heads _).2 (.inr ⟨node, hmem, Node.sharedBlock_mem_heads_iff.2 ?_⟩)
    rw [Node.kind, hc]
    rfl
  have hplain : ∀ next ∈ node :: closure, next.Plain := by
    rw [List.forall_mem_cons]
    exact ⟨hnodes node hnode, fun next hnext => hnodes next (hclosure.subset hnext)⟩
  have hwaits : ∀ recipe ∈ recipes, ∀ name ∈ recipe.prerequisites, IsFileName name :=
    fun recipe hrecipe name hname => isMadeOf_prerequisite .isPlain hregistry hclosures
      hsettings.dirs (fun node hnode => (hnodes node hnode).named) hmade (hrule recipe hrecipe)
      (Recipe.mem_rule_prerequisites.2 hname)
  -- what is read for a recipe are its own commands, as no other rule has its target
  have hvectors : ∀ recipe ∈ recipes, (m.reading values).vectors machine recipe.target =
      recipe.lines.mapM fun words =>
        lineVectors machine values recipe.target (Word.line words).toList := by
    intro recipe hrecipe
    have hread := recipe_reading hnodup (hrule recipe hrecipe) values
    have hcommands : recipe.rule.commands = recipe.lines.map Word.line := rfl
    rw [Recipe.rule_target, hcommands, List.map_map] at hread
    rw [Reading.vectors, hread, List.mapM_map]
    rfl
  refine ⟨closure, hanswer, ?_⟩
  rw [← hflags]
  exact Node.invokes_of_recipes hsettings hgiven hvalued hcompile hshared hplain hrecipes hwaits
    hvectors

/-- A workspace with the usual directories and the standard kinds. -/
def equipped (cc : String) (cflags : List String) : Context :=
  ⟨⟨⟨1, ["work"]⟩,
      ⟨⟨.warning, none, "Makefile"⟩, ⟨".gen-obj", ".gen-files", ".gen-src", ".gen-pkg"⟩,
        ⟨cc, "c++", cflags, [], [], "/usr/local"⟩⟩, none⟩,
    .standard, none⟩

/-- An executable of one source. -/
def program (source : String) (cflags ldflags : List String) : Node :=
  ⟨⟨"", "draw"⟩, [], ldflags, .binary ⟨.ofList [⟨"", source⟩] .c, .empty, cflags, []⟩, by simp⟩

/-- A package with its own configure script. -/
def package (configureArgs makeTargets : List String) : Node :=
  ⟨⟨"", "zlib"⟩, [], [], .autoconf ⟨configureArgs, [("CFLAGS", "-O2 -g")], makeTargets, "zlib"⟩,
    by simp⟩

/-- Some nodes are loaded. -/
def holding (nodes : List Node) (h : (nodes.map Node.target).Nodup) : Loading :=
  ⟨⟨nodes, h, none⟩, .new default []⟩

/-- A program with flags that a shell would take apart, and a package. -/
def flagged : Loading :=
  holding [program "draw.c" ["-DTITLE='a \"b\" & c'", "-D#"] ["-Wl,-z relro", ""],
    package ["--with=*", "a b"] ["all;"]] (by decide)

/-- The words of the tools of the sample. -/
def usualTools : Tools := ⟨["cc"], ["c++"], ["make"], "/work"⟩

/-- The values that make starts with for the sample. -/
def usualValues : Values := [("MAKE", "make".toList), ("CURDIR", "/work".toList)]

theorem isCommand_singleton {program : String} (h : program ≠ "" ∧
    (∀ c ∈ program.toList, isInert c = true) ∧ '=' ∉ program.toList ∧
    ∀ c ∈ ['@', '-', '+'], program.toList.head? ≠ some c) : IsCommand program [program] := by
  refine ⟨?_, ?_, ⟨program, [], rfl, h.2.2⟩⟩
  · simp
  · simpa using ⟨h.1, h.2.1⟩

/-- The flags of the program and of the package arrive as they were written. -/
theorem render_flags_sample :
    ∃ text after, render (equipped "cc" ["-O2"]) flagged = .ok text after ∧
      ∃ reading, Make.read usualValues text.toList = some reading ∧
        ∀ node ∈ flagged.graph.nodes, ∃ closure,
          after.graph.dependenciesOf node.target = (.ok closure, after.graph) ∧
          node.Invokes usualTools (equipped "cc" ["-O2"]).workspace.settings
            (positionFlags flagged.graph.nodes) (reading.vectors freshShell) closure := by
  have hsettings : (equipped "cc" ["-O2"]).workspace.settings.Plain ["cc"] ["c++"] :=
    ⟨isCommand_singleton (by decide), isCommand_singleton (by decide), by decide, by decide,
      by decide, by decide, by decide⟩
  have hgiven : usualTools.Given usualValues :=
    ⟨⟨"make", by decide, isCommand_singleton (by decide)⟩, by decide, by decide⟩
  have hplain : ∀ node ∈ flagged.graph.nodes, node.Plain := by decide
  exact ⟨_, _, rfl, render_flags rfl rfl hsettings hplain hgiven freshShell⟩

/-- The argument vectors that make and a shell make for a target of the text of a graph. -/
def vectorsOf (ctx : Context) (loading : Loading) (target : String) :
    Option (List (List (List String))) :=
  match render ctx loading with
  | .ok text _ =>
    (Make.read usualValues text.toList).bind fun reading => reading.vectors freshShell target
  | .error _ _ => none

/-- The flags stand side by side in an argument vector. -/
def arrive (flags : List String) (vectors : Option (List (List (List String)))) : Bool :=
  vectors.any fun lines => lines.flatten.any fun vector => decide (flags <:+: vector)

/-- The text is read as the blocks of lines that it is made of. -/
theorem vectorsOf_eq (ctx : Context) (loading : Loading) (target : String) :
    vectorsOf ctx loading target = (ofGraph ctx loading.graph).1.toOption.bind fun m =>
      (Make.read usualValues (unlines ([[]].intercalate m.blocks))).bind fun reading =>
        reading.vectors freshShell target := by
  unfold vectorsOf
  cases hgraph : ofGraph ctx loading.graph with
  | mk outcome settled =>
    cases outcome with
    | ok m =>
      obtain ⟨after, hrender, -⟩ := render_of_ok hgraph
      simp only [hrender, serialize_eq, Except.toOption, Option.bind_some]
    | error e =>
      simp only [render_of_error hgraph, Except.toOption, Option.bind_none]

/-- The program alone. -/
def alone (source : String) (cflags ldflags : List String) : Loading :=
  holding [program source cflags ldflags] (by simp)

set_option maxRecDepth 4000 in
/-- Some flags do not arrive: a linker flag that is asked for twice, flags with a dollar sign or a
line break, a flag of the toolchain with a number sign, and flags behind a path or a compiler with a
quote. -/
theorem render_flags_alters :
    arrive ["-Xlinker", "-z", "-Xlinker", "relro"] (vectorsOf (equipped "cc" [])
      (alone "draw.c" [] ["-Xlinker", "-z", "-Xlinker", "relro"]) ".gen-pkg/draw") = false ∧
    arrive ["-DHOME=$HOME"] (vectorsOf (equipped "cc" [])
      (alone "draw.c" ["-DHOME=$HOME"] []) ".gen-obj/draw.c.o") = false ∧
    arrive ["-DTEXT=a\nb"] (vectorsOf (equipped "cc" [])
      (alone "draw.c" ["-DTEXT=a\nb"] []) ".gen-obj/draw.c.o") = false ∧
    arrive ["-DMARK=#"] (vectorsOf (equipped "cc" ["-DMARK=#"])
      (alone "draw.c" [] []) ".gen-obj/draw.c.o") = false ∧
    arrive ["-lm"] (vectorsOf (equipped "cc" [])
      (alone "dr'aw.c" [] ["-lm"]) ".gen-pkg/draw") = false ∧
    arrive ["-DDRAW"] (vectorsOf (equipped "cc '" [])
      (alone "draw.c" ["-DDRAW"] []) ".gen-obj/draw.c.o") = false := by
  simp only [vectorsOf_eq]
  decide +kernel

end Loading

end Makewright
