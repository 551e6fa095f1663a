import Makewright.Proofs.Graph.Moves
import Makewright.Proofs.Node.Confined

/-!
# The packages of a load

A load that starts from tidy packages stays with them: references name tidy packages only, so every
package whose build file is read is tidy, and so is the package of every node
(`Loading.Reached.tidy`).
-/

set_option autoImplicit false

namespace Makewright.Loading

open Makewright.Path

variable {ctx : Context} {roots : List Target} {packages : List String} {start : Session}
  {loading after : Loading}

/-- Every package that has been asked for is tidy, and every node is read from what a build file of
a tidy package describes. -/
structure IsTidy (ctx : Context) (loading : Loading) : Prop where
  asked : ∀ entry ∈ loading.session.packages, Path.IsTidy entry.1.toList
  nodes : ∀ node ∈ loading.graph.nodes, ∃ d, ctx.Records d ∧
    Path.IsTidy d.target.package.toList ∧ node.IsReadFrom ctx.registry ctx.workspace.settings d

/-- The roots and the packages that are selected are tidy. -/
structure SelectsTidy (roots : List Target) (packages : List String) : Prop where
  roots : ∀ root ∈ roots, Path.IsTidy root.package.toList
  packages : ∀ package ∈ packages, Path.IsTidy package.toList

/-- What a tidy graph wants is tidy, as whatever a reference names. -/
theorem IsTidy.of_wants (hselected : SelectsTidy roots packages) (h : IsTidy ctx loading)
    {package : String} (hwanted : loading.graph.Wants roots packages package) :
    Path.IsTidy package.toList := by
  cases hwanted with
  | package hmem => exact hselected.packages package hmem
  | root hmem => exact hselected.roots _ hmem
  | dependency hnode hdependency =>
    obtain ⟨d, -, -, hread⟩ := h.nodes _ hnode
    obtain ⟨reference, hparse⟩ := hread.follows.named _ hdependency
    exact Target.isTidy_parse hparse

/-- One move keeps what is asked for tidy. -/
theorem Moves.tidy (hselected : SelectsTidy roots packages) (h : IsTidy ctx loading)
    (hmove : Moves ctx roots packages loading after) : IsTidy ctx after := by
  cases hmove with
  | touch htouches =>
    refine ⟨?_, h.nodes⟩
    cases htouches <;> exact h.asked
  | read hwanted hread =>
    exact ⟨List.forall_mem_cons.2 ⟨h.of_wants hselected hwanted, h.asked⟩, h.nodes⟩
  | @add d node hwanted hrecords hread =>
    refine ⟨h.asked, ?_⟩
    intro other hother
    rcases mem_of_mem_declare hother with hold | rfl
    · exact h.nodes other hold
    · exact ⟨d, hrecords, h.of_wants hselected hwanted, hread⟩

/-- Whatever is reached from tidy packages is tidy. -/
theorem Reached.tidy (hselected : SelectsTidy roots packages)
    (h : Reached ctx roots packages start loading) : IsTidy ctx loading := by
  induction h with
  | refl => exact ⟨nofun, nofun⟩
  | tail _ hmove ih => exact hmove.tidy hselected ih

/-- A load that starts from tidy packages, with nothing known of any package, ends with tidy ones,
whether or not it succeeds. -/
theorem load_tidy (ctx : Context) (hselected : SelectsTidy roots packages)
    (hfresh : start.packages = []) :
    Leads (fun _ => IsTidy ctx) (IsTidy ctx) (load ctx roots packages) ⟨.empty, start⟩ :=
  (load_leads ctx roots packages hfresh).mono (fun _ _ hreached => hreached.tidy hselected)
    fun _ hreached => hreached.tidy hselected

/-- The description of a target stands in its build file under a name like that of a file. -/
theorem isPlain_name_of_records {d : Description} (h : ctx.Records d) :
    IsPlain d.target.name.toList := by
  obtain ⟨files, ds, hds, hd⟩ := h
  exact (BuildFile.read_spec hds).isPlain_name d hd

/-- Every node of a graph that is reached was read from a description in a build file. -/
theorem Reached.recorded (h : Reached ctx roots packages start loading) :
    ∀ node ∈ loading.graph.nodes, ∃ d, ctx.Records d ∧
      node.IsReadFrom ctx.registry ctx.workspace.settings d := by
  induction h with
  | refl => exact nofun
  | tail _ hmove ih =>
    cases hmove with
    | touch | read => exact ih
    | @add d node hwanted hrecords hread =>
      intro other hother
      rcases mem_of_mem_declare hother with hold | rfl
      · exact ih other hold
      · exact ⟨d, hrecords, hread⟩

/-- Whatever is loaded has a name like that of a file. -/
theorem isPlain_name_of_load {session : Session} (hfresh : start.packages = []) {g : Graph}
    (hload : load ctx roots packages ⟨.empty, start⟩ = .ok () ⟨g, session⟩) :
    ∀ node ∈ g.nodes, IsPlain node.target.name.toList := by
  have hreached := (load_leads ctx roots packages hfresh).ok hload
  intro node hnode
  obtain ⟨d, hrecords, hread⟩ := hreached.recorded node hnode
  rw [hread.follows.target]
  exact isPlain_name_of_records hrecords

/-- The nodes of a tidy graph are confined to the workspace. -/
theorem IsTidy.confined (h : IsTidy ctx loading) :
    ∀ node ∈ loading.graph.nodes, node.Confined := by
  intro node hnode
  obtain ⟨d, hrecords, hpackage, hread⟩ := h.nodes node hnode
  exact (hread.confined hpackage (isPlain_name_of_records hrecords)).1

end Makewright.Loading
