import Makewright.Generation
import Makewright.Proofs.Makefile.Rules
import Makewright.Proofs.Node.Recipes

/-!
# What a Makefile is assembled from

`emitted` are the recipes that a node contributes, given the closures of the targets, and
`installRecipe` is the recipe of the install rule. A Makefile that is assembled consists of the rule
`all`, the rules of the emitted recipes node by node, the rule `clean`, and the install rule; and
assembling it fails only because the target of a rule is repeated (`assemble_ends`).
-/

set_option autoImplicit false

namespace Makewright.Makefile

variable {ctx : Context} {dirs : GeneratedDirs} {nodes : List Node}
  {closureOf : Target → Except BuildError (List Node)}

/-- The recipes that a node contributes. -/
def emitted (dirs : GeneratedDirs) (closureOf : Target → Except BuildError (List Node))
    (node : Node) : List Recipe :=
  match closureOf node.target >>= node.recipes dirs with
  | .ok recipes => recipes
  | .error _ => []

/-- The recipe of the install rule. -/
def installRecipe (dirs : GeneratedDirs) (nodes : List Node) : Recipe :=
  ⟨installTarget, nodes.flatMap fun node => (node.installPart dirs).1,
    nodes.flatMap fun node => (node.installPart dirs).2⟩

/-- The targets of all rules but the install rule, in order. -/
def plannedTargets (dirs : GeneratedDirs) (nodes : List Node) : List String :=
  allTarget :: nodes.flatMap (Node.ruleTargets dirs) ++ ["clean"]

/-- The closure of the target is there, and so are the recipes that it leads to. -/
def Writable (dirs : GeneratedDirs) (closureOf : Target → Except BuildError (List Node))
    (node : Node) : Prop :=
  ∃ closure recipes, closureOf node.target = .ok closure ∧ node.recipes dirs closure = .ok recipes

/-- The parts of a Makefile that is assembled from some nodes. -/
structure Assembled (ctx : Context) (nodes : List Node)
    (closureOf : Target → Except BuildError (List Node)) (m : Makefile) : Prop where
  rules : m.rules = Rule.start allTarget (nodes.map Node.userTarget) ::
    (nodes.flatMap fun node =>
      (emitted ctx.workspace.settings.dirs closureOf node).map Recipe.rule)
    ++ [cleanRule ctx.workspace.settings]
  install : m.install = (installRecipe ctx.workspace.settings.dirs nodes).rule
  admissible : Admissible m.targets

theorem emitted_eq {node : Node} {closure : List Node} {recipes : List Recipe}
    (hclosure : closureOf node.target = .ok closure)
    (hrecipes : node.recipes dirs closure = .ok recipes) :
    emitted dirs closureOf node = recipes := by
  rw [emitted, hclosure]
  simp only [bind, Except.bind, hrecipes]

theorem emitted_targets {node : Node} (h : Writable dirs closureOf node) :
    (emitted dirs closureOf node).map Recipe.target = node.ruleTargets dirs := by
  obtain ⟨closure, recipes, hclosure, hrecipes⟩ := h
  rw [emitted_eq hclosure hrecipes]
  exact Node.recipes_targets hrecipes

theorem flatMap_emitted_targets (h : ∀ node ∈ nodes, Writable dirs closureOf node) :
    (nodes.flatMap fun node => (emitted dirs closureOf node).map Recipe.rule).map Rule.target =
      nodes.flatMap (Node.ruleTargets dirs) := by
  induction nodes with
  | nil => rfl
  | cons node rest ih =>
    rw [List.flatMap_cons, List.flatMap_cons, List.map_append, Node.map_target_rule,
      emitted_targets (h node List.mem_cons_self)]
    rw [ih fun other hother => h other (List.mem_cons_of_mem node hother)]

/-! ## Head blocks -/

theorem addHead_rules (m : Makefile) (key : String) (lines : List String) :
    (m.addHead key lines).rules = m.rules ∧ (m.addHead key lines).install = m.install := by
  unfold addHead writeHead
  by_cases hkey : m.hasHead key
  · simp [hkey]
  · simp [hkey]

theorem writeHeads_rules (s : Settings) (nodeClass : NodeClass) (m : Makefile) :
    (nodeClass.writeHeads s m).rules = m.rules ∧
      (nodeClass.writeHeads s m).install = m.install := by
  unfold NodeClass.writeHeads
  induction nodeClass.heads s generalizing m with
  | nil => exact ⟨rfl, rfl⟩
  | cons head rest ih =>
    obtain ⟨hrules, hinstall⟩ := ih (m.addHead head.1 head.2)
    obtain ⟨hrules', hinstall'⟩ := addHead_rules m head.1 head.2
    exact ⟨hrules.trans hrules', hinstall.trans hinstall'⟩

/-- The error says that the kind of a node is not registered. -/
def Unregistered (registry : Registry) (nodes : List Node) (e : BuildError) : Prop :=
  ∃ node ∈ nodes, registry.contains node.kind = false ∧
    e = .config (.unknownKind node.kind registry.kinds) (some node.target) (some (.string "kind"))

/-- Looking a kind up fails only if it is not registered. -/
theorem find_ends (registry : Registry) (node : Node) (nodes : List Node) :
    Ends (fun _ => True) (Unregistered registry (node :: nodes))
      (registry.find node.kind (some node.target)) := by
  unfold Registry.find
  cases hlookup : registry.classes.lookup node.kind with
  | some nodeClass => trivial
  | none =>
    refine ⟨node, List.mem_cons_self, ?_, rfl⟩
    have hnone := List.lookup_eq_none_iff.1 hlookup
    simp only [Registry.contains, Registry.kinds, List.contains_eq_mem, List.mem_map,
      decide_eq_false_iff_not]
    rintro ⟨entry, hentry, hkind⟩
    have hne := hnone entry hentry
    simp [hkind] at hne

/-- Head blocks leave the rules alone, and writing them fails only for kinds that are not
registered. -/
theorem addKindHeads_ends (ctx : Context) (nodes : List Node) (seen : List String) (m : Makefile) :
    Ends (fun m' => m'.rules = m.rules ∧ m'.install = m.install) (Unregistered ctx.registry nodes)
      (addKindHeads ctx seen nodes m) := by
  induction nodes generalizing seen m with
  | nil => exact ⟨rfl, rfl⟩
  | cons node rest ih =>
    have hmore : ∀ e, Unregistered ctx.registry rest e →
        Unregistered ctx.registry (node :: rest) e := by
      rintro e ⟨other, hother, he⟩
      exact ⟨other, List.mem_cons_of_mem node hother, he⟩
    unfold addKindHeads
    by_cases hseen : node.kind ∈ seen
    · rw [if_pos hseen]
      exact (ih seen m).mono (fun _ hm => hm) hmore
    · rw [if_neg hseen]
      refine Ends.bind ((find_ends ctx.registry node rest).mono ?_ fun _ he => he)
      intro nodeClass _
      obtain ⟨hrules, hinstall⟩ := writeHeads_rules ctx.workspace.settings nodeClass m
      have hrest := ih (seen ++ [node.kind]) (nodeClass.writeHeads ctx.workspace.settings m)
      refine hrest.mono ?_ hmore
      rintro m' ⟨hrules', hinstall'⟩
      exact ⟨hrules'.trans hrules, hinstall'.trans hinstall⟩

/-! ## The rules of the nodes -/

/-- The rules of a node are appended. -/
theorem addNode_ends {m : Makefile} (hm : Admissible m.targets) {node : Node}
    {closure : List Node} {recipes : List Recipe}
    (hrecipes : node.recipes dirs closure = .ok recipes) (more : List String) :
    Ends (Extends m (recipes.map Recipe.rule))
      (Repeats (m.targets ++ node.ruleTargets dirs ++ more)) (m.addNode dirs node closure) := by
  have hrules : node.rules dirs closure = .ok (recipes.map Recipe.rule) := by
    rw [Node.rules, hrecipes]
    rfl
  have hadd := addRules_ends hm (recipes.map Recipe.rule) more
  rw [Node.map_target_rule, Node.recipes_targets hrecipes] at hadd
  unfold addNode
  rw [hrules]
  refine Ends.bind (Ends.ok_iff.2 (Ends.bind (hadd.mono ?_ fun _ he => he)))
  intro m' hm'
  obtain ⟨hkept, hinstall⟩ := foldl_addPhony node.phonyNames m'
  refine ⟨hkept.trans hm'.rules, hinstall.trans hm'.install, ?_⟩
  rw [targets, hkept]
  exact hm'.admissible

/-- The rules and the install commands of the nodes are appended, node by node. -/
theorem addNodes_ends (hnodes : ∀ node ∈ nodes, Writable dirs closureOf node) {m : Makefile}
    (hm : Admissible m.targets) (more : List String) :
    Ends (fun m' =>
        m'.rules = m.rules ++ nodes.flatMap (fun node =>
          (emitted dirs closureOf node).map Recipe.rule) ∧
        m'.install =
          (m.install.addPrerequisites (installRecipe dirs nodes).prerequisites).addCommands
            ((installRecipe dirs nodes).lines.map Word.line) ∧
        Admissible m'.targets)
      (Repeats (m.targets ++ nodes.flatMap (Node.ruleTargets dirs) ++ more))
      (addNodes dirs closureOf nodes m) := by
  induction nodes generalizing m with
  | nil =>
    refine ⟨(List.append_nil _).symm, ?_, hm⟩
    simp [installRecipe, Rule.addPrerequisites, Rule.addCommands, addAllOnce]
  | cons node rest ih =>
    obtain ⟨closure, recipes, hclosure, hrecipes⟩ := hnodes node List.mem_cons_self
    have hrest := @ih fun other hother => hnodes other (List.mem_cons_of_mem node hother)
    -- the targets of the other nodes are still to come when the rules of this one are added
    have hnode := addNode_ends hm hrecipes (rest.flatMap (Node.ruleTargets dirs) ++ more)
    rw [addNodes, hclosure]
    refine Ends.bind (Ends.ok_iff.2 (Ends.bind (hnode.mono ?_ ?_)))
    · intro m' hm'
      refine (hrest (m := m'.addInstall dirs node) hm'.admissible).mono ?_ ?_
      · rintro m'' ⟨hrules, hinstall, hadmissible⟩
        refine ⟨?_, ?_, hadmissible⟩
        · rw [hrules, List.flatMap_cons, ← List.append_assoc, emitted_eq hclosure hrecipes,
            ← hm'.rules]
          rfl
        · rw [hinstall]
          simp [addInstall, hm'.install, installRecipe, Rule.addPrerequisites, Rule.addCommands,
            addAllOnce_append]
      · intro e he
        have htargets : (m'.addInstall dirs node).targets = m.targets ++ node.ruleTargets dirs := by
          rw [← Node.recipes_targets hrecipes, ← Node.map_target_rule, ← hm'.targets]
          rfl
        rw [htargets] at he
        simpa using he
    · intro e he
      simpa using he

/-- A Makefile is assembled unless the target of a rule is repeated or the kind of a node is not
registered. -/
theorem assemble_ends
    (hnodes : ∀ node ∈ nodes, Writable ctx.workspace.settings.dirs closureOf node) :
    Ends (Assembled ctx nodes closureOf)
      (fun e => Repeats (plannedTargets ctx.workspace.settings.dirs nodes) e ∨
        Unregistered ctx.registry nodes e)
      (assemble ctx nodes closureOf) := by
  have hhead := addHead_rules (new (some standardHeader)) "workspace"
    (workspaceHead ctx.workspace.settings)
  refine Ends.bind ((addKindHeads_ends ctx nodes [] _).mono ?_ fun _ he => Or.inr he)
  rintro start ⟨hrules, hinstall⟩
  have hempty : start.rules = [] := hrules.trans hhead.1
  have hclosed : start.install = Rule.start installTarget [] := hinstall.trans hhead.2
  have htargets : start.targets = [] := by
    rw [targets, hempty, List.map_nil]
  have hall := addRule_ends (m := start) (htargets ▸ admissible_nil) (Rule.start allTarget [])
    (nodes.flatMap (Node.ruleTargets ctx.workspace.settings.dirs) ++ ["clean"])
  rw [htargets] at hall
  refine Ends.bind (hall.mono ?_ fun _ he => Or.inl he)
  intro begun hbegun
  have hadded := addNodes_ends hnodes (m := begun.addPhony allTarget) hbegun.admissible ["clean"]
  rw [addPhony_rules, addPhony_install, addPhony_targets, hbegun.rules, hbegun.install,
    hbegun.targets, htargets, hempty, hclosed] at hadded
  refine Ends.bind (hadded.mono ?_ fun _ he => Or.inl he)
  rintro m ⟨hm, hminstall, hmadmissible⟩
  have hplanned : m.targets =
      allTarget :: nodes.flatMap (Node.ruleTargets ctx.workspace.settings.dirs) := by
    rw [targets, hm, List.map_append, flatMap_emitted_targets hnodes]
    rfl
  -- the rule `all` is in front, and its prerequisites are added when the other rules are there
  have hfront := modifyRule_front hm hmadmissible (·.addPrerequisites (nodes.map Node.userTarget))
  have hkept : (m.modifyRule allTarget
      (·.addPrerequisites (nodes.map Node.userTarget))).targets = m.targets := by
    refine modifyRule_targets m allTarget ?_
    exact fun _ => rfl
  have hclean := addRule_ends (hkept ▸ hmadmissible) (cleanRule ctx.workspace.settings) []
  rw [hkept, hplanned] at hclean
  refine Ends.bind (hclean.mono ?_ fun _ he => Or.inl he)
  intro m' hm'
  refine ⟨?_, ?_, hm'.admissible⟩
  · exact hm'.rules.trans (congrArg (·.rules ++ _) hfront)
  · exact (hm'.install.trans (congrArg Makefile.install hfront)).trans hminstall

end Makewright.Makefile
