import Makewright.Proofs.Generation.Selection
import Makewright.Proofs.Graph.Loading

/-!
# What targets contribute to a Makefile

A Makefile is made of the contributions of its targets (`Makefile.MadeOf`). What a target
contributes depends on the files of the workspace only and not on the selection that the target was
loaded for (`Context.contributions_agree`): its node is the one that the files declare, and its
closure is collected from the closures of its dependencies, in the order in which they are listed.
-/

set_option autoImplicit false

namespace Makewright

open Makefile Stateful

variable {ctx : Context} {files : FileTree} {dirs : GeneratedDirs}

/-- What a target contributes to a Makefile: its rules, and what it adds to the install rule. -/
structure Contribution where
  rules : List Rule
  installPrerequisites : List String
  installCommands : List String

/-- What a node contributes, given the nodes that it depends on directly or through others. -/
def Node.contribution (dirs : GeneratedDirs) (node : Node) (closure : List Node) :
    Except BuildError Contribution := do
  let rules ← node.rules dirs closure
  let (prerequisites, lines) := node.installPart dirs
  .ok ⟨rules, prerequisites, lines.map Word.line⟩

/-- The target of a settled graph makes the contribution. -/
def Graph.Contributes (settled : Graph) (dirs : GeneratedDirs) (target : Target)
    (contribution : Contribution) : Prop :=
  ∃ node closure, settled.node? target = some node ∧
    settled.dependenciesOf target = (.ok closure, settled) ∧
    node.contribution dirs closure = .ok contribution

/-- The Makefile consists of the contributions of some targets between the rules `all` and `clean`,
and its install rule of what they add to it. -/
structure Makefile.MadeOf (m : Makefile) (s : Settings)
    (contributions : List (Target × Contribution)) : Prop where
  rules : m.rules =
    Rule.start allTarget (contributions.map fun entry => entry.1.fullPath)
      :: contributions.flatMap (fun entry => entry.2.rules) ++ [cleanRule s]
  installPrerequisites : m.install.prerequisites =
    distinct (contributions.flatMap fun entry => entry.2.installPrerequisites)
  installCommands : m.install.commands =
    contributions.flatMap fun entry => entry.2.installCommands

/-- The selection loads the graph, and the text that it makes is that of a Makefile made of the
contributions of the targets of the graph. -/
structure Context.MakesFrom (ctx : Context) (session : Session) (roots : List Target)
    (packages : List String) (text : String) (g settled : Graph)
    (contributions : List (Target × Contribution)) : Prop where
  makes : ∃ m, ctx.Makes session roots packages g m settled ∧ text = m.serialize ∧
    m.MadeOf ctx.workspace.settings contributions
  targets : (contributions.map Prod.fst).Perm g.targets
  contributes : ∀ entry ∈ contributions,
    settled.Contributes ctx.workspace.settings.dirs entry.1 entry.2

/-! ## The parts of a Makefile -/

namespace Makefile

variable {g settled : Graph} {nodes : List Node} {m : Makefile}

/-- Every node of a graph that resolves contributes the rules that the Makefile has from it. -/
theorem contributes (h : g.resolve = (.ok nodes, settled)) {node : Node} (hnode : node ∈ g.nodes) :
    settled.Contributes dirs node.target
      ⟨(emitted dirs (fun t => (settled.dependenciesOf t).1) node).map Recipe.rule,
        (node.installPart dirs).1, (node.installPart dirs).2.map Word.line⟩ := by
  obtain ⟨closure, recipes, hanswer, -, hrecipes⟩ :=
    Graph.exists_recipes_of_resolve h dirs hnode
  have hsettled : settled.node? node.target = some node := by
    obtain ⟨r, -, -, rfl⟩ := Graph.walk_of_resolve h
    exact Graph.node?_eq_some_iff.2 ⟨hnode, rfl⟩
  refine ⟨node, closure, hsettled, hanswer, ?_⟩
  rw [emitted_eq (congrArg Prod.fst hanswer) hrecipes, Node.contribution, Node.rules, hrecipes]
  rfl

/-- A Makefile that is assembled from the nodes of a graph is made of their contributions. -/
theorem Assembled.madeOf (hm : Assembled ctx nodes (fun t => (settled.dependenciesOf t).1) m)
    (h : g.resolve = (.ok nodes, settled)) : ∃ contributions,
      m.MadeOf ctx.workspace.settings contributions ∧
      contributions.map Prod.fst = nodes.map Node.target ∧
      ∀ entry ∈ contributions,
        settled.Contributes ctx.workspace.settings.dirs entry.1 entry.2 := by
  refine ⟨nodes.map fun node => (node.target,
    ⟨(emitted ctx.workspace.settings.dirs (fun t => (settled.dependenciesOf t).1) node).map
      Recipe.rule, (node.installPart ctx.workspace.settings.dirs).1,
      (node.installPart ctx.workspace.settings.dirs).2.map Word.line⟩), ⟨?_, ?_, ?_⟩, ?_, ?_⟩
  · rw [hm.rules, List.flatMap_map, List.map_map]
    rfl
  · rw [hm.install, List.flatMap_map]
    rfl
  · rw [hm.install, List.flatMap_map]
    exact List.map_flatMap
  · rw [List.map_map]
    rfl
  · intro entry hentry
    obtain ⟨node, hnode, rfl⟩ := List.mem_map.1 hentry
    exact contributes h ((Graph.perm_of_resolve h).subset hnode)

end Makefile

/-- A selection that gives a text makes it from contributions, and has loaded what it leads to. -/
theorem Context.makesFrom_of_generate (hlocal : ctx.FetchesLocally) {session after : Session}
    (hfresh : session.packages = []) {roots : List Target} {packages : List String} {text : String}
    (h : ctx.generate roots packages session = .ok text after) :
    ∃ g settled contributions, ctx.MakesFrom session roots packages text g settled contributions ∧
      (∃ nodes, g.resolve = (.ok nodes, settled)) ∧
      g.Holds ctx session.disk.files roots packages := by
  obtain ⟨g, m, settled, hmakes, htext⟩ := Context.generate_eq_ok_iff.1 ⟨after, h⟩
  obtain ⟨later, hload⟩ := hmakes.loads
  obtain ⟨nodes, hresolve, hm⟩ := assembled_of_ofGraph hmakes.made
  obtain ⟨contributions, hmade, htargets, hcontributes⟩ := hm.madeOf hresolve
  refine ⟨g, settled, contributions, ⟨⟨m, hmakes, htext, hmade⟩, ?_, hcontributes⟩,
    ⟨nodes, hresolve⟩, Loading.load_eq_ok (hlocal.steady hfresh) hload⟩
  rw [htargets]
  exact (Graph.perm_of_resolve hresolve).map Node.target

/-! ## Two graphs with the same files -/

namespace Graph

variable {g₁ g₂ settled₁ settled₂ : Graph} {nodes₁ nodes₂ : List Node}
  {roots₁ roots₂ : List Target} {packages₁ packages₂ : List String} {t : Target}

/-- Both graphs have the same node for a target that they share. -/
theorem Holds.node?_eq (h₁ : g₁.Holds ctx files roots₁ packages₁)
    (h₂ : g₂.Holds ctx files roots₂ packages₂) (ht₁ : t ∈ g₁.targets) (ht₂ : t ∈ g₂.targets) :
    g₁.node? t = g₂.node? t := by
  obtain ⟨a, ha⟩ := exists_node? ht₁
  obtain ⟨b, hb⟩ := exists_node? ht₂
  obtain ⟨hmemA, htargetA⟩ := node?_eq_some_iff.1 ha
  obtain ⟨hmemB, htargetB⟩ := node?_eq_some_iff.1 hb
  rw [ha, hb, (h₁.declares a hmemA).unique (h₂.declares b hmemB) (htargetA.trans htargetB.symm)]

/-- A target that both graphs share makes the same contribution in both. -/
theorem Holds.contribution_eq (h₁ : g₁.Holds ctx files roots₁ packages₁)
    (h₂ : g₂.Holds ctx files roots₂ packages₂) (hresolve₁ : g₁.resolve = (.ok nodes₁, settled₁))
    (hresolve₂ : g₂.resolve = (.ok nodes₂, settled₂)) {c₁ c₂ : Contribution}
    (hc₁ : settled₁.Contributes dirs t c₁) (hc₂ : settled₂.Contributes dirs t c₂) : c₁ = c₂ := by
  obtain ⟨node₁, closure₁, hnode₁, hclosure₁, hc₁⟩ := hc₁
  obtain ⟨node₂, closure₂, hnode₂, hclosure₂, hc₂⟩ := hc₂
  obtain ⟨r₁, hwalk₁, -, rfl⟩ := walk_of_resolve hresolve₁
  obtain ⟨r₂, hwalk₂, -, rfl⟩ := walk_of_resolve hresolve₂
  replace hnode₁ : g₁.node? t = some node₁ := hnode₁
  replace hnode₂ : g₂.node? t = some node₂ := hnode₂
  have ht₁ : t ∈ g₁.targets :=
    Graph.mem_targets.2 ⟨node₁, node?_eq_some_iff.1 hnode₁⟩
  have ht₂ : t ∈ g₂.targets :=
    Graph.mem_targets.2 ⟨node₂, node?_eq_some_iff.1 hnode₂⟩
  -- the nodes are the same
  obtain rfl : node₁ = node₂ := by
    rw [h₁.node?_eq h₂ ht₁ ht₂, hnode₂] at hnode₁
    exact (Option.some.inj hnode₁).symm
  -- and so are the targets below them
  have hshared : ∀ d, d ∈ r₁.order → d ∈ r₂.order → g₁.node? d = g₂.node? d := by
    intro d hd₁ hd₂
    exact h₁.node?_eq h₂ ((mem_order_iff hwalk₁).1 hd₁) ((mem_order_iff hwalk₂).1 hd₂)
  have hbelow : r₁.below t = r₂.below t := by
    refine (Order.finished_of_walk hwalk₁).below_agree (Order.finished_of_walk hwalk₂) ?_ t
      ((mem_order_iff hwalk₁).2 ht₁) ((mem_order_iff hwalk₂).2 ht₂)
    intro d hd₁ hd₂
    rw [Order.Declarations.listed, Order.Declarations.listed, lookup_declarations,
      lookup_declarations, hshared d hd₁ hd₂]
  have hclosures : closure₁ = closure₂ := by
    rw [dependenciesOf_settled hwalk₁ ht₁, Prod.mk.injEq, Except.ok.injEq] at hclosure₁
    rw [dependenciesOf_settled hwalk₂ ht₂, Prod.mk.injEq, Except.ok.injEq] at hclosure₂
    rw [← hclosure₁.1, ← hclosure₂.1, ← hbelow]
    refine List.filterMap_congr fun d hd => hshared d ?_ ?_
    · exact (Order.finished_of_walk hwalk₁).mem_of_mem_below ((mem_order_iff hwalk₁).2 ht₁) hd
    · rw [hbelow] at hd
      exact (Order.finished_of_walk hwalk₂).mem_of_mem_below ((mem_order_iff hwalk₂).2 ht₂) hd
  rw [hclosures, hc₂] at hc₁
  exact (Except.ok.inj hc₁).symm

end Graph

namespace Context

variable {roots₁ roots₂ : List Target} {packages₁ packages₂ : List String}

/-- Only which roots and packages are asked for matters to what they lead to. -/
theorem Needs.congr (hroots : ∀ root, root ∈ roots₁ → root ∈ roots₂)
    (hpackages : ∀ package, package ∈ packages₁ → package ∈ packages₂) {package : String}
    (h : ctx.Needs files roots₁ packages₁ package) : ctx.Needs files roots₂ packages₂ package := by
  induction h with
  | package h => exact .package (hpackages _ h)
  | root h => exact .root (hroots _ h)
  | dependency _ hds hd hreads hdependency ih => exact .dependency ih hds hd hreads hdependency

/-- Two selections from the same files that both give a text: every target that both have loaded
makes the same contribution to both texts, and selections that ask for the same roots and packages
load the same targets. -/
theorem contributions_agree (hlocal : ctx.FetchesLocally) {disk : Disk}
    {script₁ script₂ : List Reply} {text₁ text₂ : String} {after₁ after₂ : Session}
    (h₁ : ctx.generate roots₁ packages₁ (.new disk script₁) = .ok text₁ after₁)
    (h₂ : ctx.generate roots₂ packages₂ (.new disk script₂) = .ok text₂ after₂) :
    ∃ g₁ settled₁ contributions₁ g₂ settled₂ contributions₂,
      ctx.MakesFrom (.new disk script₁) roots₁ packages₁ text₁ g₁ settled₁ contributions₁ ∧
      ctx.MakesFrom (.new disk script₂) roots₂ packages₂ text₂ g₂ settled₂ contributions₂ ∧
      (∀ t c₁ c₂, (t, c₁) ∈ contributions₁ → (t, c₂) ∈ contributions₂ → c₁ = c₂) ∧
      ((∀ root, root ∈ roots₁ ↔ root ∈ roots₂) →
        (∀ package, package ∈ packages₁ ↔ package ∈ packages₂) →
        ∀ t, t ∈ g₁.targets ↔ t ∈ g₂.targets) := by
  obtain ⟨g₁, settled₁, contributions₁, hmakes₁, ⟨nodes₁, hresolve₁⟩, hholds₁⟩ :=
    makesFrom_of_generate hlocal rfl h₁
  obtain ⟨g₂, settled₂, contributions₂, hmakes₂, ⟨nodes₂, hresolve₂⟩, hholds₂⟩ :=
    makesFrom_of_generate hlocal rfl h₂
  refine ⟨g₁, settled₁, contributions₁, g₂, settled₂, contributions₂, hmakes₁, hmakes₂, ?_, ?_⟩
  · intro t c₁ c₂ hc₁ hc₂
    exact hholds₁.contribution_eq hholds₂ hresolve₁ hresolve₂ (hmakes₁.contributes _ hc₁)
      (hmakes₂.contributes _ hc₂)
  · intro hroots hpackages t
    rw [hholds₁.mem_targets, hholds₂.mem_targets]
    constructor
    · rintro ⟨package, ds, hneeded, hrest⟩
      refine ⟨package, ds, hneeded.congr ?_ ?_, hrest⟩
      · exact fun root => (hroots root).1
      · exact fun package => (hpackages package).1
    · rintro ⟨package, ds, hneeded, hrest⟩
      refine ⟨package, ds, hneeded.congr ?_ ?_, hrest⟩
      · exact fun root => (hroots root).2
      · exact fun package => (hpackages package).2

/-- A workspace with an executable and, in a package of its own, the library that it is built
from. -/
def sampleDisk : Disk :=
  ⟨⟨[(["work"], .directory),
    (["work", "BUILD.toml"], .file ("[[targets]]\nkind = 'cc_binary'\nname = 'draw'\n" ++
      "sources = ['draw.c']\ndependencies = ['//shapes:area']\n")),
    (["work", "shapes"], .directory),
    (["work", "shapes", "BUILD.toml"], .file ("[[targets]]\nkind = 'cc_library'\n" ++
      "name = 'area'\nsources = ['area.c']\n"))]⟩, []⟩

/-- The packages of the sample contribute the same in whichever order they are asked for. -/
theorem contributions_agree_sample :
    ∃ text₁ text₂ after₁ after₂, Loading.sampleContext.FetchesLocally ∧
      Loading.sampleContext.generate [] ["", "shapes"] (.new sampleDisk []) = .ok text₁ after₁ ∧
      Loading.sampleContext.generate [] ["shapes", ""] (.new sampleDisk []) = .ok text₂ after₂ ∧
      ∃ g₁ settled₁ contributions₁ g₂ settled₂ contributions₂,
        Loading.sampleContext.MakesFrom (.new sampleDisk []) [] ["", "shapes"] text₁
          g₁ settled₁ contributions₁ ∧
        Loading.sampleContext.MakesFrom (.new sampleDisk []) [] ["shapes", ""] text₂
          g₂ settled₂ contributions₂ ∧
        (∀ t c₁ c₂, (t, c₁) ∈ contributions₁ → (t, c₂) ∈ contributions₂ → c₁ = c₂) ∧
        (∀ t, t ∈ g₁.targets ↔ t ∈ g₂.targets) := by
  have hlocal : Loading.sampleContext.FetchesLocally := by
    intro fetcher h
    cases h
  have hsucceeds : ∀ packages ∈ [["", "shapes"], ["shapes", ""]], ∃ text after,
      Loading.sampleContext.generate [] packages (.new sampleDisk []) = .ok text after := by
    have hchecked : ∀ packages ∈ [["", "shapes"], ["shapes", ""]],
        answers (Loading.sampleContext.generate [] packages) (.new sampleDisk []) = true := by
      decide +kernel
    exact fun packages hpackages => exists_of_answers (hchecked packages hpackages)
  obtain ⟨text₁, after₁, h₁⟩ := hsucceeds ["", "shapes"] (by decide)
  obtain ⟨text₂, after₂, h₂⟩ := hsucceeds ["shapes", ""] (by decide)
  obtain ⟨g₁, settled₁, contributions₁, g₂, settled₂, contributions₂, hmakes₁, hmakes₂, hsame,
    hloaded⟩ := contributions_agree hlocal h₁ h₂
  refine ⟨text₁, text₂, after₁, after₂, hlocal, h₁, h₂, g₁, settled₁, contributions₁, g₂, settled₂,
    contributions₂, hmakes₁, hmakes₂, hsame, hloaded (fun _ => Iff.rfl) fun package => ?_⟩
  simp only [List.mem_cons, List.not_mem_nil, or_false]
  exact or_comm

end Context

end Makewright
