import Makewright.Proofs.Generation.Complete
import Makewright.Proofs.Generation.Heads
import Makewright.Proofs.Node.Lines

/-!
# Makefiles of legible nodes

The check for prerequisites that nothing provides leaves a Makefile whose rules wait only for files
that the nodes name, for targets of rules and for phony names. If all of these are words, the text
of the Makefile reads back as its rules (`legible_of_ofNodes`).
-/

set_option autoImplicit false

namespace Makewright

open Make

namespace Makefile

variable {p : Char → Bool} {ctx : Context} {g : Graph} {nodes : List Node} {m : Makefile}
  {closureOf : Target → Except BuildError (List Node)}

/-- A Makefile that is made provides whatever its rules wait for. -/
theorem provides_of_ofNodes (h : ofNodes ctx nodes closureOf = .ok m) {rule : Rule}
    (hrule : rule ∈ m.allRules) {name : String} (hname : name ∈ rule.prerequisites) :
    m.provides (nodes.flatMap Node.inputFiles) name = true := by
  obtain ⟨made, hmade, hchecked⟩ := exists_of_bind_eq_ok h
  cases hdangling : made.dangling (nodes.flatMap Node.inputFiles) with
  | cons pair rest => simp [hdangling] at hchecked
  | nil =>
    simp only [hdangling, Except.ok.injEq] at hchecked
    subst hchecked
    have hnone := List.flatMap_eq_nil_iff.1 hdangling rule hrule
    rw [List.map_eq_nil_iff, List.filter_eq_nil_iff] at hnone
    simpa using hnone name hname

/-- The names that do not depend on the nodes. -/
theorem isMadeOf_fixed (hp : Alphabet p) :
    ∀ name ∈ [installTarget, allTarget, "clean"], IsMadeOf p name := by
  simp only [List.forall_mem_cons]
  exact ⟨hp.isMadeOf (by decide), hp.isMadeOf (by decide), hp.isMadeOf (by decide), by simp⟩

/-- The targets of the rules are made of the characters of what the nodes name. -/
theorem Assembled.isMadeOf_target (hp : Alphabet p) (hm : Assembled ctx nodes closureOf m)
    (hclosures : Closures g nodes closureOf) (hdirs : ctx.workspace.settings.dirs.Named p)
    (hnodes : ∀ node ∈ g.nodes, node.Named p) {target : String} (h : target ∈ m.targets) :
    IsMadeOf p target := by
  have htargets : m.targets = allTarget ::
      nodes.flatMap (Node.ruleTargets ctx.workspace.settings.dirs) ++ ["clean"] := by
    rw [targets, hm.rules, List.map_append, List.map_cons,
      flatMap_emitted_targets hclosures.writable]
    rfl
  rw [htargets] at h
  rcases List.mem_append.1 h with h | h
  · rcases List.mem_cons.1 h with rfl | h
    · exact isMadeOf_fixed hp _ (by simp)
    · obtain ⟨node, hnode, htarget⟩ := List.mem_flatMap.1 h
      exact (hnodes node (hclosures.perm.subset hnode)).generates hp hdirs
        (Node.generates_of_mem_ruleTargets target htarget)
  · exact List.mem_singleton.1 h ▸ isMadeOf_fixed hp _ (by simp)

/-- What the rules wait for is made of the characters of what the nodes name. -/
theorem isMadeOf_prerequisite (hp : Alphabet p) (hregistry : ctx.registry = .standard)
    (hclosures : Closures g nodes closureOf) (hdirs : ctx.workspace.settings.dirs.Named p)
    (hnodes : ∀ node ∈ g.nodes, node.Named p) (hmade : ofNodes ctx nodes closureOf = .ok m)
    {rule : Rule} (hrule : rule ∈ m.allRules) {name : String} (hname : name ∈ rule.prerequisites) :
    IsMadeOf p name := by
  have hprovides := provides_of_ofNodes hmade hrule hname
  have hassemble := assemble_of_ofNodes hmade
  have hm := (assemble_ends hclosures.writable).of_eq_ok hassemble
  simp only [provides, Bool.or_eq_true, hasRule_iff, List.contains_iff_mem] at hprovides
  rcases hprovides with (htarget | hphony) | hinput
  · exact hm.isMadeOf_target hp hclosures hdirs hnodes htarget
  · have hfronted := fronted_of_assemble hregistry hassemble
    rcases hfronted.phony name hphony with hfixed | ⟨node, hnode, rfl⟩
    · exact isMadeOf_fixed hp name hfixed
    · exact (hnodes node (hclosures.perm.subset hnode)).target.fullPath hp
  · obtain ⟨node, hnode, hinput⟩ := List.mem_flatMap.1 hinput
    exact (hnodes node (hclosures.perm.subset hnode)).files name hinput

/-- The recipes that a legible node contributes are legible rules. -/
theorem Assembled.legible_emitted (hm : Assembled ctx nodes closureOf m)
    (hclosures : Closures g nodes closureOf)
    (hdirs : ctx.workspace.settings.dirs.Named isVerbatim)
    (hnodes : ∀ node ∈ g.nodes, node.Legible)
    (hwaits : ∀ rule ∈ m.allRules, ∀ name ∈ rule.prerequisites, IsWord name)
    {node : Node} (hnode : node ∈ nodes) {recipe : Recipe}
    (hrecipe : recipe ∈ emitted ctx.workspace.settings.dirs closureOf node) :
    recipe.rule.Legible := by
  have hmem := hclosures.perm.subset hnode
  have hrule : ∀ other ∈ emitted ctx.workspace.settings.dirs closureOf node,
      other.rule ∈ m.allRules := fun other hother =>
    List.mem_append_left _ (hm.rule_mem hnode hother)
  refine ⟨?_, hwaits _ (hrule recipe hrecipe), ?_⟩
  · apply hm.isMadeOf_target .isVerbatim hclosures hdirs fun other hother =>
      (hnodes other hother).named
    exact List.mem_map_of_mem (hm.rule_mem hnode hrecipe)
  · obtain ⟨closure, recipes, hclosure, hisClosure, hrecipes⟩ :=
      hclosures.exists_recipes ctx.workspace.settings.dirs hmem
    have hemitted := emitted_eq hclosure hrecipes
    rw [hemitted] at hrecipe hrule
    have hlegible : ∀ next ∈ closure, next.Legible := fun next hnext =>
      hnodes next (hisClosure.subset hnext)
    have hlined := (hnodes node hmem).lined_recipes hdirs hlegible hrecipes
      fun other hother name hname =>
        hwaits _ (hrule other hother) name (Recipe.mem_rule_prerequisites.2 hname)
    intro command hcommand
    obtain ⟨words, hwords, rfl⟩ := List.mem_map.1 hcommand
    exact (hlined recipe hrecipe words hwords).isLine

/-- The rule that removes what is generated is legible. -/
theorem legible_cleanRule {s : Settings} (hdirs : s.dirs.Named isVerbatim) :
    (cleanRule s).Legible := by
  refine ⟨isMadeOf_fixed .isVerbatim _ (by simp [cleanRule, Rule.start, Rule.addCommand]), ?_, ?_⟩
  · rintro name ⟨⟩
  · intro command hcommand
    have hnames : ∀ name ∈ s.cleanedDirs, IsWord name := by
      simp only [Settings.cleanedDirs, List.forall_mem_cons]
      exact ⟨hdirs.objectDir, hdirs.genfileDir, hdirs.pkgfileDir, by simp⟩
    have hline := (IsLine.of_forall (s := "rm -rf ".toList) (by decide)).append
      (isLine_names hnames)
    rw [List.mem_singleton.1 hcommand]
    simpa [String.toList_intercalate] using hline

/-- The text of a Makefile of legible nodes can be read back. -/
theorem legible_of_ofNodes (hregistry : ctx.registry = .standard)
    (hclosures : Closures g nodes closureOf)
    (hdirs : ctx.workspace.settings.dirs.Named isVerbatim)
    (hnodes : ∀ node ∈ g.nodes, node.Legible) (hmade : ofNodes ctx nodes closureOf = .ok m)
    (hheads : ∀ head ∈ m.heads, ∀ line ∈ head.2, IsLine line.toList) : m.Legible := by
  have hassemble := assemble_of_ofNodes hmade
  have hfronted := fronted_of_assemble hregistry hassemble
  have hm := (assemble_ends hclosures.writable).of_eq_ok hassemble
  have hnamed : ∀ node ∈ g.nodes, node.Named isVerbatim := fun node hnode =>
    (hnodes node hnode).named
  have hwaits : ∀ rule ∈ m.allRules, ∀ name ∈ rule.prerequisites, IsWord name :=
    fun rule hrule name hname =>
      isMadeOf_prerequisite .isVerbatim hregistry hclosures hdirs hnamed hmade hrule hname
  refine ⟨?_, hheads, ?_, ?_⟩
  · -- the comment at the top is one line
    intro text htext line hline
    rw [hfronted.header, Option.some.injEq] at htext
    subst htext
    have hlines : Text.lines standardHeader = [standardHeader] := by decide
    rw [hlines] at hline
    exact List.mem_singleton.1 hline ▸ .of_forall (by decide)
  · -- the rules: `all`, those of the nodes, `clean` and `install`
    intro rule hrule
    have hprerequisites := hwaits rule hrule
    rw [allRules, hm.rules] at hrule
    simp only [List.mem_append, List.mem_cons, List.mem_flatMap, List.not_mem_nil,
      or_false] at hrule
    rcases hrule with ((rfl | ⟨node, hnode, hrule⟩) | rfl) | rfl
    · exact ⟨isMadeOf_fixed .isVerbatim _ (by simp [Rule.start]), hprerequisites,
        by simp [Rule.start]⟩
    · obtain ⟨recipe, hrecipe, rfl⟩ := List.mem_map.1 hrule
      exact hm.legible_emitted hclosures hdirs hnodes hwaits hnode hrecipe
    · exact legible_cleanRule hdirs
    · refine ⟨?_, hprerequisites, ?_⟩
      · rw [hm.install]
        exact isMadeOf_fixed .isVerbatim _ (by simp [installRecipe])
      · rw [hm.install]
        intro command hcommand
        obtain ⟨words, hwords, rfl⟩ := List.mem_map.1 hcommand
        obtain ⟨node, hnode, hwords⟩ := List.mem_flatMap.1 hwords
        have hlegible := hnodes node (hclosures.perm.subset hnode)
        exact (hlegible.lined_installPart hdirs words hwords).isLine
  · intro name hname
    rcases hfronted.phony name hname with hfixed | ⟨node, hnode, rfl⟩
    · exact isMadeOf_fixed .isVerbatim name hfixed
    · exact (hnamed node (hclosures.perm.subset hnode)).target.fullPath .isVerbatim

end Makefile

end Makewright
