import Makewright.Proofs.Generation.Acyclic
import Makewright.Proofs.Generation.Contribution
import Makewright.Proofs.Generation.Heads
import Makewright.Proofs.Generation.Selection
import Makewright.Proofs.Graph.Packages

/-!
# Generated files stay where they are cleaned

If the directories for generated files lie below the root of the workspace, then so does everything
that a Makefile makes: whatever rule is not one of a phony name makes a file strictly below a
directory that `clean` removes. What the rules read lies inside the workspace
(`Loading.load_confined`).
-/

set_option autoImplicit false

namespace Makewright

open Makewright.Path

variable {ctx : Context} {g : Graph} {nodes : List Node} {m : Makefile}
  {closureOf : Target → Except BuildError (List Node)}

theorem Node.phonyNames_of_isStandard {node : Node} (h : node.IsStandard) :
    node.phonyNames = [node.userTarget] := by
  unfold Node.phonyNames
  cases hbody : node.body with
  | listing prerequisites => exact absurd hbody (h.body_ne prerequisites)
  | _ => rfl

namespace Makefile

/-- In a Makefile of confined nodes every rule is one of a phony name or makes a file below a
directory that is cleaned. -/
theorem isBelow_of_ofNodes (hregistry : ctx.registry = .standard)
    (hdirs : ctx.workspace.settings.dirs.Inner) (hclosures : Closures g nodes closureOf)
    (hnodes : ∀ node ∈ g.nodes, node.Confined) (hmade : ofNodes ctx nodes closureOf = .ok m)
    {rule : Rule} (hrule : rule ∈ m.allRules) (hphony : rule.target ∉ m.phony) :
    ∃ directory ∈ ctx.workspace.settings.cleanedDirs, IsBelow directory rule.target := by
  have hassemble := assemble_of_ofNodes hmade
  have hm := (assemble_ends hclosures.writable).of_eq_ok hassemble
  obtain ⟨hfixed, hdeclared⟩ := List.append_subset.1 (phony_of_assemble hregistry hassemble)
  rcases List.mem_append.1 hrule with hrule | hinstall
  · have htarget : rule.target ∈ m.targets := List.mem_map_of_mem hrule
    rw [hm.targets_eq hclosures, plannedTargets] at htarget
    simp only [List.cons_append, List.mem_cons, List.mem_append, List.mem_flatMap,
      List.not_mem_nil, or_false] at htarget
    rcases htarget with hall | ⟨node, hnode, htarget⟩ | hclean
    · exact absurd (hall ▸ hfixed (by simp)) hphony
    · have hconfined := hnodes node (hclosures.perm.subset hnode)
      have hgenerates := Node.generates_of_mem_ruleTargets rule.target htarget
      rcases hconfined.isMadeBelow hdirs.leadDown hgenerates with huser | hbelow
      · -- the rule of the target itself is one of a phony name
        have hnames := Node.phonyNames_of_isStandard
          (standard_of_ofNodes hregistry hmade node hnode)
        refine absurd (hdeclared (List.mem_flatMap.2 ⟨node, hnode, ?_⟩)) hphony
        rw [hnames, huser]
        exact List.mem_singleton.2 rfl
      · obtain ⟨directory, hdirectory, hbelow⟩ := hbelow
        have hnormal := hdirs.normalize_eq directory hdirectory
        exact ⟨directory, hdirectory, hnormal ▸ hbelow⟩
    · exact absurd (hclean ▸ hfixed (by simp)) hphony
  · rw [List.mem_singleton.1 hinstall, hm.install] at hphony
    exact absurd (hfixed List.mem_cons_self) hphony

end Makefile

namespace Loading

open Makefile

/-- Let the directories for generated files lie below the root of the workspace, and let a graph of
the standard kinds be loaded from roots that references name. Then every node was read from a build
file, and whatever its rules read, be it a file or a source directory that is not fetched, stays
inside the workspace. Whatever the Makefile of the graph makes, but for the phony names, lies
strictly below a directory that is cleaned. -/
theorem load_confined {session later : Session} {roots : List Target}
    (hregistry : ctx.registry = .standard) (hdirs : ctx.workspace.settings.dirs.Inner)
    (hfresh : session.packages = [])
    (hroots : ∀ root ∈ roots, ∃ reference, Target.parse reference "" = .ok root)
    (hload : load ctx roots [] ⟨.empty, session⟩ = .ok () ⟨g, later⟩) :
    (∀ m settled, ofGraph ctx g = (.ok m, settled) → ∀ rule ∈ m.allRules,
      rule.target ∉ m.phony →
        ∃ directory ∈ ctx.workspace.settings.cleanedDirs, IsBelow directory rule.target) ∧
    ∀ node ∈ g.nodes,
      (∃ d, ctx.Records d ∧ node.IsReadFrom ctx.registry ctx.workspace.settings d) ∧
      (∀ path ∈ node.inputFiles, StaysInside path) ∧
      ∀ d spec, node.IsReadFrom ctx.registry ctx.workspace.settings d →
        d.optional ctx.workspace.settings "source_url" = .ok none →
          node.body = .autoconf spec → StaysInside spec.sourceDir := by
  -- roots that are read from references have tidy packages
  have hselected : SelectsTidy roots [] := by
    refine ⟨?_, nofun⟩
    intro root hroot
    obtain ⟨reference, hparse⟩ := hroots root hroot
    exact Target.isTidy_parse hparse
  have htidy : IsTidy ctx ⟨g, later⟩ := (load_tidy ctx hselected hfresh).ok hload
  have hconfined : ∀ node ∈ g.nodes, node.Confined := htidy.confined
  refine ⟨?_, ?_⟩
  · intro m settled hgraph rule hrule hphony
    obtain ⟨nodes, hresolve, hmade⟩ := ofNodes_of_ofGraph hgraph
    exact isBelow_of_ofNodes hregistry hdirs (closures_of_resolve hresolve) hconfined hmade hrule
      hphony
  · intro node hnode
    obtain ⟨d, hrecords, -, hread⟩ := htidy.nodes node hnode
    refine ⟨⟨d, hrecords, hread⟩, ?_, ?_⟩
    · intro path hpath
      exact ((hconfined node hnode).inputs path hpath).staysInside
    · intro d spec hread hlocal hbody
      obtain ⟨hpackage, hname, -, -⟩ := hconfined node hnode
      rw [hread.follows.target] at hpackage hname
      exact (hread.confined hpackage hname).2 spec hbody hlocal

/-- Of the sample, the objects and the executable are made below directories that are cleaned. -/
theorem load_confined_sample :
    ∃ g later m settled,
      load sampleContext [⟨"", "draw"⟩] [] ⟨.empty, .new Context.sampleDisk []⟩ =
        .ok () ⟨g, later⟩ ∧
      ofGraph sampleContext g = (.ok m, settled) ∧
      sampleContext.workspace.settings.dirs.Inner ∧
      (∀ rule ∈ m.allRules, rule.target ∉ m.phony →
        ∃ directory ∈ sampleContext.workspace.settings.cleanedDirs,
          IsBelow directory rule.target) ∧
      (∀ node ∈ g.nodes, ∀ path ∈ node.inputFiles, StaysInside path) ∧
      ".gen-obj/shapes/area.c.o" ∈ m.targets ∧ ".gen-obj/shapes/area.c.o" ∉ m.phony := by
  have hdirs : sampleContext.workspace.settings.dirs.Inner := by
    refine ⟨⟨?_, ?_, ?_, ?_⟩, ⟨?_, ?_, ?_, ?_⟩, ⟨?_, ?_, ?_, ?_⟩⟩ <;> decide
  have hroots : ∀ root ∈ ([⟨"", "draw"⟩] : List Target), ∃ reference,
      Target.parse reference "" = .ok root :=
    List.forall_mem_singleton.2 ⟨"//:draw", by decide⟩
  have hchecked : sampleContext.checkMade (.new Context.sampleDisk []) [⟨"", "draw"⟩] []
      (fun _ m => decide (".gen-obj/shapes/area.c.o" ∈ m.targets ∧
        ".gen-obj/shapes/area.c.o" ∉ m.phony)) = true := by
    decide +kernel
  obtain ⟨g, later, m, settled, hload, hmakes, hmade⟩ := Context.exists_makes_of_check hchecked
  obtain ⟨hbelow, hnodes⟩ := load_confined rfl hdirs rfl hroots hload
  refine ⟨g, later, m, settled, hload, hmakes.made, hdirs, hbelow m settled hmakes.made, ?_,
    of_decide_eq_true hmade⟩
  intro node hnode
  exact (hnodes node hnode).2.1

end Loading

end Makewright
