import Makewright.Proofs.Generation.Assembly
import Makewright.Proofs.Graph.Resolution
import Makewright.Shell.Machine

/-!
# From a graph to a Makefile

A graph that resolves hands out the closures that the rules of its nodes are written from
(`closures_of_resolve`), and no look-up misses on the way (`Closures.writable`). Rendering a graph
then ends as making its Makefile does.
-/

set_option autoImplicit false

namespace Makewright

variable {g settled : Graph} {node : Node} {nodes closure : List Node} {dirs : GeneratedDirs}
  {closureOf : Target → Except BuildError (List Node)} {ctx : Context}

namespace Graph

/-- A closure serves the nodes of its target. -/
theorem IsClosure.serves (h : g.IsClosure node.target closure) (hnode : node ∈ g.nodes) :
    Node.Serves closure node := by
  refine ⟨?_, ?_⟩
  · intro front next back hclosure d hd
    have hnext : next ∈ g.nodes := h.subset (by simp [hclosure])
    refine h.layered (front.map Node.target) next.target (back.map Node.target) (by simp [hclosure])
      d (.single ⟨next, hnext, rfl, hd⟩)
  · intro d hd
    exact (h.mem_iff d).2 (.single ⟨node, hnode, rfl, hd⟩)

/-- In a graph that resolves, every node has its closure and its recipes. -/
theorem exists_recipes_of_resolve (h : g.resolve = (.ok nodes, settled)) (dirs : GeneratedDirs)
    (hnode : node ∈ g.nodes) :
    ∃ closure recipes, settled.dependenciesOf node.target = (.ok closure, settled) ∧
      g.IsClosure node.target closure ∧ node.recipes dirs closure = .ok recipes := by
  obtain ⟨closure, hanswer, hclosure⟩ :=
    exists_closure_of_resolve h (mem_targets.2 ⟨node, hnode, rfl⟩)
  obtain ⟨recipes, hrecipes⟩ := Node.exists_recipes dirs (hclosure.serves hnode)
  exact ⟨closure, recipes, hanswer, hclosure, hrecipes⟩

/-- In an order that is layered by the paths of dependencies, the closure of a node stands in front
of it. -/
theorem IsClosure.mem_front (h : g.IsClosure node.target closure)
    (hlayered : Layered g.Reaches (nodes.map Node.target)) (hnodes : nodes ⊆ g.nodes)
    {front back : List Node} (hsplit : nodes = front ++ node :: back) {next : Node}
    (hnext : next ∈ closure) : next ∈ front := by
  have hreach := (h.mem_iff next.target).1 (List.mem_map_of_mem hnext)
  have hfront : next.target ∈ front.map Node.target :=
    hlayered (front.map Node.target) node.target (back.map Node.target) (by simp [hsplit]) _ hreach
  obtain ⟨other, hother, htarget⟩ := List.mem_map.1 hfront
  have hmem : other ∈ g.nodes := hnodes (by simp [hsplit, hother])
  exact eq_of_target_eq hmem (h.subset hnext) htarget ▸ hother

end Graph

namespace Makefile

/-- The closures that are handed out while a Makefile is made, for nodes in order. -/
structure Closures (g : Graph) (nodes : List Node)
    (closureOf : Target → Except BuildError (List Node)) : Prop where
  perm : nodes.Perm g.nodes
  layered : Layered g.Reaches (nodes.map Node.target)
  exists_closure : ∀ node ∈ g.nodes, ∃ closure,
    closureOf node.target = .ok closure ∧ g.IsClosure node.target closure

theorem closures_of_resolve (h : g.resolve = (.ok nodes, settled)) :
    Closures g nodes fun target => (settled.dependenciesOf target).1 := by
  refine ⟨Graph.perm_of_resolve h, Graph.layered_of_resolve h, ?_⟩
  intro node hnode
  obtain ⟨closure, hanswer, hclosure⟩ :=
    Graph.exists_closure_of_resolve h (Graph.mem_targets.2 ⟨node, hnode, rfl⟩)
  exact ⟨closure, by rw [hanswer], hclosure⟩

/-- Every node has its closure and its recipes. -/
theorem Closures.exists_recipes (h : Closures g nodes closureOf) (dirs : GeneratedDirs)
    (hnode : node ∈ g.nodes) :
    ∃ closure recipes, closureOf node.target = .ok closure ∧ g.IsClosure node.target closure ∧
      node.recipes dirs closure = .ok recipes := by
  obtain ⟨closure, hanswer, hclosure⟩ := h.exists_closure node hnode
  obtain ⟨recipes, hrecipes⟩ := Node.exists_recipes dirs (hclosure.serves hnode)
  exact ⟨closure, recipes, hanswer, hclosure, hrecipes⟩

/-- No look-up misses while the recipes of a node are written. -/
theorem Closures.writable (h : Closures g nodes closureOf) :
    ∀ node ∈ nodes, Writable dirs closureOf node := by
  intro node hnode
  obtain ⟨closure, recipes, hanswer, -, hrecipes⟩ := h.exists_recipes dirs (h.perm.subset hnode)
  exact ⟨closure, recipes, hanswer, hrecipes⟩

/-- Once the graph is resolved, its Makefile is that of its nodes in order. -/
theorem ofGraph_eq (ctx : Context) (h : g.resolve = (.ok nodes, settled)) :
    ofGraph ctx g =
      (ofNodes ctx nodes fun target => (settled.dependenciesOf target).1, settled) := by
  unfold ofGraph
  rw [h]
  rfl

/-- A Makefile that is made passes the check on the way as it was assembled. -/
theorem assemble_of_ofNodes {m : Makefile} (h : ofNodes ctx nodes closureOf = .ok m) :
    assemble ctx nodes closureOf = .ok m := by
  obtain ⟨made, hmade, hchecked⟩ := exists_of_bind_eq_ok h
  cases hdangling : made.dangling (nodes.flatMap Node.inputFiles) with
  | nil =>
    simp only [hdangling, Except.ok.injEq] at hchecked
    rw [hmade, hchecked]
  | cons pair rest => simp [hdangling] at hchecked

/-- The Makefile of a graph is that of its nodes in order. -/
theorem ofNodes_of_ofGraph {m : Makefile} (h : ofGraph ctx g = (.ok m, settled)) :
    ∃ nodes, g.resolve = (.ok nodes, settled) ∧
      ofNodes ctx nodes (fun target => (settled.dependenciesOf target).1) = .ok m := by
  cases hresolve : g.resolve with
  | mk outcome after =>
    cases outcome with
    | ok nodes =>
      rw [ofGraph_eq ctx hresolve, Prod.mk.injEq] at h
      obtain ⟨hmade, rfl⟩ := h
      exact ⟨nodes, rfl, hmade⟩
    | error e =>
      rw [ofGraph, hresolve, Prod.mk.injEq] at h
      cases h.1

/-- The Makefile of a graph is assembled from its nodes in order. -/
theorem assembled_of_ofGraph {m : Makefile} (h : ofGraph ctx g = (.ok m, settled)) :
    ∃ nodes, g.resolve = (.ok nodes, settled) ∧
      Assembled ctx nodes (fun target => (settled.dependenciesOf target).1) m := by
  obtain ⟨nodes, hresolve, hmade⟩ := ofNodes_of_ofGraph h
  exact ⟨nodes, hresolve, (assemble_ends (closures_of_resolve hresolve).writable).of_eq_ok
    (assemble_of_ofNodes hmade)⟩

end Makefile

namespace Loading

open Makefile

variable {loading : Loading}

theorem render_of_ok {m : Makefile} (h : ofGraph ctx loading.graph = (.ok m, settled)) :
    ∃ after, render ctx loading = .ok m.serialize after ∧ after.graph = settled := by
  have hget : (get : LoadM Loading) loading = .ok loading loading := rfl
  unfold render
  simp only [bind, EStateM.bind, hget, h]
  exact ⟨_, rfl, rfl⟩

theorem render_of_error {e : BuildError} (h : ofGraph ctx loading.graph = (.error e, settled)) :
    render ctx loading = .error e { loading with graph := settled } := by
  have hget : (get : LoadM Loading) loading = .ok loading loading := rfl
  unfold render
  simp only [bind, EStateM.bind, hget, h]
  rfl

/-- The text of a rendering is that of the Makefile of the graph. -/
theorem made_of_render {after : Loading} {text : String}
    (h : render ctx loading = .ok text after) :
    ∃ m, ofGraph ctx loading.graph = (.ok m, after.graph) ∧ text = m.serialize := by
  cases hgraph : ofGraph ctx loading.graph with
  | mk outcome settled =>
    cases outcome with
    | ok m =>
      obtain ⟨after', hafter, rfl⟩ := render_of_ok hgraph
      rw [hafter, EStateM.Result.ok.injEq] at h
      obtain ⟨rfl, rfl⟩ := h
      exact ⟨m, rfl, rfl⟩
    | error e =>
      rw [render_of_error hgraph] at h
      cases h

/-- A workspace with the usual directories and the standard kinds. -/
def sampleContext : Context :=
  ⟨⟨⟨1, ["work"]⟩,
      ⟨⟨.warning, none, "Makefile"⟩, ⟨".gen-obj", ".gen-files", ".gen-src", ".gen-pkg"⟩,
        ⟨"cc", "c++", [], [], [], "/usr/local"⟩⟩, none⟩,
    .standard, none⟩

/-- A shell before its first command. -/
def freshShell : Shell.Machine := ⟨default, default, [], [], [], [], 0, none⟩

/-- A library with a header. -/
def sampleLibrary : Node :=
  ⟨⟨"shapes", "point"⟩, [], [],
    .library
      ⟨.ofList [⟨"", "shapes/point.c"⟩] .c, .ofList [⟨"", "shapes/point.h"⟩] .none, [], []⟩,
    by decide⟩

/-- A shared library with a version and a file of exported symbols, which depends on the library. -/
def sampleSharedLibrary : Node :=
  ⟨⟨"shapes", "area"⟩, [⟨"shapes", "point"⟩], [],
    .sharedLibrary
      ⟨.ofList [⟨"", "shapes/area.c"⟩] .c, .ofList [⟨"", "shapes/area.h"⟩] .none, [], []⟩
      ⟨some ⟨⟨"1", by decide⟩, ⟨"2", by decide⟩, ⟨"3", by decide⟩⟩, "",
        some ⟨"", "shapes/area.map"⟩⟩,
    by decide⟩

/-- An executable that depends on the shared library, declared in front of what it reaches. -/
def sampleLoading : Loading :=
  ⟨⟨[⟨⟨"", "draw"⟩, [⟨"shapes", "area"⟩], [],
        .binary ⟨.ofList [⟨"", "draw.c"⟩] .c, .empty, [], []⟩, by decide⟩,
      sampleSharedLibrary, sampleLibrary], by decide, none⟩,
    .new default []⟩

end Loading

end Makewright
