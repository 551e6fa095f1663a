import Makewright.Proofs.Makefile.Grounded
import Makewright.Proofs.Node.LinkInputs
import Makewright.Proofs.Outcome
import Makewright.Registry

/-!
# The recipes of a node

The recipes of a node exist whenever its closure serves it (`exists_recipes`). Each of them waits
for inputs of the node, for files that the nodes of the closure offer, and for targets of recipes
before it (`recipes_grounded`); and what a node offers to others is an input of it or the target of
one of its own recipes (`offered_provided`).
-/

set_option autoImplicit false

namespace Makewright.Node

variable {dirs : GeneratedDirs} {node : Node} {closure : List Node} {recipes : List Recipe}
  {given : String → Prop}

/-- The node is of one of the four standard kinds. -/
def IsStandard (node : Node) : Prop :=
  node.kind ∈ Registry.standard.kinds

instance (node : Node) : Decidable node.IsStandard :=
  inferInstanceAs (Decidable (node.kind ∈ Registry.standard.kinds))

/-- The files that the rules of a dependent may wait for because of a node. -/
def offered (dirs : GeneratedDirs) (node : Node) : List Resource :=
  (node.dependencyFiles dirs).map Prod.fst ++ node.linkable dirs

/-- The targets of the recipes of a node, in order. -/
def ruleTargets (dirs : GeneratedDirs) (node : Node) : List String :=
  let objects (c : Compilation) : List String :=
    c.sources.entries.map fun entry => (Compilation.objectFor dirs entry.1).fullPath
  let made : List String :=
    match node.body with
    | .library c => objects c
    | .binary c => objects c ++ [(executable dirs node.target).fullPath]
    | .sharedLibrary c spec =>
      objects c ++ (spec.outputs dirs node.target).map Resource.fullPath
    | .autoconf _ => [(AutoconfSpec.stamp dirs node.target).fullPath]
    | .listing _ => []
  made ++ [node.userTarget]

/-- What the recipes of a node can be, kind by kind. -/
inductive Written (dirs : GeneratedDirs) (node : Node) (closure : List Node) : List Recipe → Prop
  | library {c : Compilation} (hbody : node.body = .library c) :
    Written dirs node closure
      (compileRecipes dirs c closure ++ [node.userRecipe (c.objects dirs).toList])
  | binary {c : Compilation} {inputs : FileSet} (hbody : node.body = .binary c)
      (hlink : linkInputs dirs node c closure = .ok inputs) :
    Written dirs node closure (compileRecipes dirs c closure
      ++ [node.linkBinary dirs inputs closure, node.userRecipe [executable dirs node.target]])
  | sharedLibrary {c : Compilation} {spec : SharedSpec} {inputs : FileSet}
      (hbody : node.body = .sharedLibrary c spec)
      (hlink : linkInputs dirs node c closure = .ok inputs) :
    Written dirs node closure (compileRecipes dirs c closure
      ++ [node.linkShared dirs spec inputs closure]
      ++ aliasRecipes (spec.linked dirs node.target) (spec.aliases dirs node.target)
      ++ [node.userRecipe (spec.outputs dirs node.target)])
  | autoconf {spec : AutoconfSpec} (hbody : node.body = .autoconf spec) :
    Written dirs node closure [node.stampRecipe dirs spec closure,
      node.userRecipe [AutoconfSpec.stamp dirs node.target]]
  | listing {prerequisites : List String} (hbody : node.body = .listing prerequisites) :
    Written dirs node closure [⟨node.userTarget, prerequisites, []⟩]

/-- Whatever the recipes of a node may wait for from outside is given: its own inputs and what the
nodes of its closure offer. -/
structure Ready (given : String → Prop) (dirs : GeneratedDirs) (node : Node)
    (closure : List Node) : Prop where
  inputs : ∀ path ∈ node.inputFiles, given path
  offered : ∀ next ∈ closure, ∀ r ∈ next.offered dirs, given r.fullPath

theorem IsStandard.body_ne (h : node.IsStandard) (prerequisites : List String) :
    node.body ≠ .listing prerequisites := by
  intro hbody
  have hstray : "stray" ∉ Registry.standard.kinds := by decide
  rw [IsStandard, kind, hbody] at h
  exact hstray h

theorem map_target_rule (recipes : List Recipe) :
    (recipes.map Recipe.rule).map Rule.target = recipes.map Recipe.target := by
  rw [List.map_map]
  rfl

theorem mem_collectDependencyFiles {nodes : List Node} {r : Resource} :
    r ∈ (collectDependencyFiles dirs nodes).toList ↔
      ∃ node ∈ nodes, r ∈ (node.dependencyFiles dirs).map Prod.fst := by
  have hfold : ∀ files : FileSet,
      r ∈ (nodes.foldl (fun known node => known.insertAll (node.dependencyFiles dirs)) files).toList
        ↔ r ∈ files.toList ∨ ∃ node ∈ nodes, r ∈ (node.dependencyFiles dirs).map Prod.fst := by
    induction nodes with
    | nil => simp
    | cons node rest ih =>
      intro files
      rw [List.foldl_cons, ih, FileSet.mem_insertAll, or_assoc]
      simp only [List.mem_cons, exists_eq_or_imp]
  rw [collectDependencyFiles, hfold]
  simp

/-- The objects of a compilation are the ones that its rules make. -/
theorem mem_objects {c : Compilation} {r : Resource} :
    r ∈ (c.objects dirs).toList ↔
      ∃ entry ∈ c.sources.entries, Compilation.objectFor dirs entry.1 = r := by
  rw [Compilation.objects, FileSet.mem_insertAll, List.map_map]
  simp

/-! ## The recipes one by one -/

theorem compileRecipes_targets (c : Compilation) :
    (compileRecipes dirs c closure).map Recipe.target =
      c.sources.entries.map fun entry => (Compilation.objectFor dirs entry.1).fullPath := by
  rw [compileRecipes, List.map_map]
  rfl

/-- Every object is made by the rule of a source. -/
theorem object_mem_targets {c : Compilation} {r : Resource} (h : r ∈ (c.objects dirs).toList) :
    r.fullPath ∈ (compileRecipes dirs c closure).map Recipe.target := by
  obtain ⟨entry, hentry, rfl⟩ := mem_objects.1 h
  rw [compileRecipes_targets]
  exact List.mem_map.2 ⟨entry, hentry, rfl⟩

theorem aliasRecipes_targets (previous : Resource) (links : List Resource) :
    (aliasRecipes previous links).map Recipe.target = links.map Resource.fullPath := by
  induction links generalizing previous with
  | nil => rfl
  | cons link rest ih =>
    rw [aliasRecipes, List.map_cons, ih, List.map_cons]

/-- Every symbolic link waits for the file that it points at. -/
theorem aliasRecipes_grounded {previous : Resource} {links : List Resource}
    (h : given previous.fullPath) :
    Grounded given ((aliasRecipes previous links).map Recipe.rule) := by
  induction links generalizing given previous with
  | nil => trivial
  | cons link rest ih =>
    refine ⟨?_, ih (Or.inr rfl)⟩
    intro name hname
    rw [Recipe.mem_rule_prerequisites, List.mem_singleton] at hname
    exact hname ▸ h

namespace Ready

/-- The files that the closure makes a build step wait for are there. -/
theorem dependencyFile (h : Ready given dirs node closure) {path : String}
    (hpath : path ∈ (collectDependencyFiles dirs closure).paths) : given path := by
  obtain ⟨r, hr, rfl⟩ := FileSet.mem_paths.1 hpath
  obtain ⟨next, hnext, hfile⟩ := mem_collectDependencyFiles.1 hr
  exact h.offered next hnext r (List.mem_append_left _ hfile)

/-- The link inputs are there once the sources are compiled. -/
theorem linkInput (h : Ready given dirs node closure) (hserves : Serves closure node)
    {c : Compilation} {inputs : FileSet} (hinputs : linkInputs dirs node c closure = .ok inputs)
    {path : String} (hpath : path ∈ inputs.paths) :
    given path ∨ path ∈ (compileRecipes dirs c closure).map Recipe.target := by
  obtain ⟨r, hr, rfl⟩ := FileSet.mem_paths.1 hpath
  rcases mem_linkInputs hserves hinputs hr with hown | ⟨next, hnext, hfile⟩
  · exact Or.inr (object_mem_targets hown)
  · exact Or.inl (h.offered next hnext r (List.mem_append_right _ hfile))

/-- What every link command waits for is there once the sources are compiled. -/
theorem linkWait (h : Ready given dirs node closure) (hserves : Serves closure node)
    {c : Compilation} {inputs : FileSet} (hinputs : linkInputs dirs node c closure = .ok inputs)
    {path : String} (hpath : path ∈ inputs.paths ++ (collectDependencyFiles dirs closure).paths) :
    given path ∨
      path ∈ ((compileRecipes dirs c closure).map Recipe.rule).map Rule.target := by
  rw [map_target_rule]
  rcases List.mem_append.1 hpath with hinput | hwaits
  · exact h.linkInput hserves hinputs hinput
  · exact Or.inl (h.dependencyFile hwaits)

/-- The compilation of a node waits for its inputs and for what its closure offers. -/
theorem compile_grounded (h : Ready given dirs node closure) {c : Compilation}
    (hinputs : ∀ path ∈ c.inputFiles, given path) :
    Grounded given ((compileRecipes dirs c closure).map Recipe.rule) := by
  refine Grounded.of_forall ?_
  intro rule hrule name hname
  obtain ⟨recipe, hrecipe, rfl⟩ := List.mem_map.1 hrule
  obtain ⟨⟨source, language⟩, hentry, rfl⟩ := List.mem_map.1 hrecipe
  rw [Recipe.mem_rule_prerequisites] at hname
  rcases List.mem_append.1 hname with hown | hwaits
  · refine hinputs name ?_
    rcases List.mem_append.1 hown with hsource | hheader
    · rw [List.mem_singleton.1 hsource]
      refine List.mem_append_left _ (FileSet.mem_paths.2 ⟨source, ?_, rfl⟩)
      exact List.mem_map.2 ⟨_, hentry, rfl⟩
    · exact List.mem_append_right _ hheader
  · exact h.dependencyFile hwaits

end Ready

/-! ## All recipes of a node -/

/-- Writing the recipes of a node never fails when its closure serves it. -/
theorem exists_recipes (dirs : GeneratedDirs) (hserves : Serves closure node) :
    ∃ recipes, node.recipes dirs closure = .ok recipes := by
  unfold Node.recipes
  cases node.body with
  | library c => exact ⟨_, rfl⟩
  | binary c =>
    simp only [linkInputs_eq hserves c, bind, Except.bind]
    exact ⟨_, rfl⟩
  | sharedLibrary c spec =>
    simp only [linkInputs_eq hserves c, bind, Except.bind]
    exact ⟨_, rfl⟩
  | autoconf spec => exact ⟨_, rfl⟩
  | listing prerequisites => exact ⟨_, rfl⟩

/-- The recipes of a node are those of its kind. -/
theorem written_of_recipes (h : node.recipes dirs closure = .ok recipes) :
    Written dirs node closure recipes := by
  unfold Node.recipes at h
  cases hbody : node.body with
  | library c =>
    simp only [hbody, Except.ok.injEq] at h
    exact h ▸ .library hbody
  | binary c =>
    simp only [hbody] at h
    obtain ⟨inputs, hlink, h⟩ := exists_of_bind_eq_ok h
    cases h
    exact .binary hbody hlink
  | sharedLibrary c spec =>
    simp only [hbody] at h
    obtain ⟨inputs, hlink, h⟩ := exists_of_bind_eq_ok h
    cases h
    exact .sharedLibrary hbody hlink
  | autoconf spec =>
    simp only [hbody, Except.ok.injEq] at h
    exact h ▸ .autoconf hbody
  | listing prerequisites =>
    simp only [hbody, Except.ok.injEq] at h
    exact h ▸ .listing hbody

/-- The targets of the recipes. -/
theorem recipes_targets (h : node.recipes dirs closure = .ok recipes) :
    recipes.map Recipe.target = node.ruleTargets dirs := by
  unfold ruleTargets
  cases written_of_recipes h with
  | library hbody =>
    rw [List.map_append, compileRecipes_targets, hbody]
    rfl
  | binary hbody hlink =>
    rw [List.map_append, compileRecipes_targets, hbody, List.append_assoc]
    rfl
  | sharedLibrary hbody hlink =>
    simp only [List.map_append, compileRecipes_targets, aliasRecipes_targets, List.append_assoc,
      hbody]
    rfl
  | autoconf hbody =>
    rw [hbody]
    rfl
  | listing hbody =>
    rw [hbody]
    rfl

/-- The rule that builds everything waits for targets of recipes before it. -/
theorem userRecipe_grounded {rules : List Rule} {outputs : List Resource}
    (hrules : Grounded given rules)
    (h : ∀ r ∈ outputs, given r.fullPath ∨ r.fullPath ∈ rules.map Rule.target) :
    Grounded given (rules ++ [node.userRecipe outputs].map Recipe.rule) := by
  refine hrules.append_singleton ?_
  intro name hname
  rw [Recipe.mem_rule_prerequisites] at hname
  obtain ⟨r, hr, rfl⟩ := List.mem_map.1 hname
  exact h r hr

/-- Every recipe of a node waits for what is given or for targets of recipes before it. -/
theorem recipes_grounded (hnode : node.IsStandard) (hserves : Serves closure node)
    (hready : Ready given dirs node closure) (h : node.recipes dirs closure = .ok recipes) :
    Grounded given (recipes.map Recipe.rule) := by
  have hinputs := hready.inputs
  unfold inputFiles at hinputs
  cases written_of_recipes h with
  | library hbody =>
    rw [hbody] at hinputs
    rw [List.map_append]
    apply userRecipe_grounded (hready.compile_grounded hinputs)
    intro r hr
    rw [map_target_rule]
    exact Or.inr (object_mem_targets hr)
  | binary hbody hlink =>
    rw [hbody] at hinputs
    rw [List.append_cons, List.map_append, List.map_append]
    apply userRecipe_grounded ((hready.compile_grounded hinputs).append_singleton ?_)
    · intro r hr
      rw [List.mem_singleton.1 hr, List.map_append]
      exact Or.inr (List.mem_append_right _ List.mem_cons_self)
    · intro name hname
      exact hready.linkWait hserves hlink (Recipe.mem_rule_prerequisites.1 hname)
  | sharedLibrary hbody hlink =>
    rw [hbody] at hinputs
    rw [List.map_append, List.map_append, List.map_append]
    have hcompile := hready.compile_grounded fun path hpath =>
      hinputs path (List.mem_append_left _ hpath)
    -- the compilation, the link and the chain of symbolic links, each ready for the next
    refine userRecipe_grounded
      ((hcompile.append_singleton ?_).append (aliasRecipes_grounded (Or.inr ?_))) ?_
    · intro name hname
      rcases List.mem_append.1 (Recipe.mem_rule_prerequisites.1 hname) with hwait | hsymbols
      · exact hready.linkWait hserves hlink hwait
      · exact Or.inl (hinputs name (List.mem_append_right _ hsymbols))
    · rw [List.map_append]
      exact List.mem_append_right _ List.mem_cons_self
    · intro r hr
      refine Or.inr ?_
      rw [List.map_append, List.map_append, map_target_rule (aliasRecipes _ _),
        aliasRecipes_targets]
      rcases List.mem_cons.1 hr with rfl | halias
      · exact List.mem_append_left _ (List.mem_append_right _ List.mem_cons_self)
      · exact List.mem_append_right _ (List.mem_map_of_mem halias)
  | @autoconf spec hbody =>
    have hstamp : Grounded given [(node.stampRecipe dirs spec closure).rule] := by
      refine ⟨?_, trivial⟩
      intro name hname
      exact hready.dependencyFile (Recipe.mem_rule_prerequisites.1 hname)
    apply userRecipe_grounded hstamp
    intro r hr
    rw [List.mem_singleton.1 hr]
    exact Or.inr List.mem_cons_self
  | listing hbody => exact absurd hbody (hnode.body_ne _)

/-! ## What a node provides -/

theorem userTarget_mem_ruleTargets : node.userTarget ∈ node.ruleTargets dirs :=
  List.mem_append_right _ List.mem_cons_self

/-- What a node offers is one of its inputs or made by one of its rules. -/
theorem offered_provided {r : Resource} (hr : r ∈ node.offered dirs) :
    r.fullPath ∈ node.inputFiles ∨ r.fullPath ∈ node.ruleTargets dirs := by
  -- headers are inputs; whatever else is offered is made by a rule
  have hheader : ∀ {c : Compilation}, r ∈ c.headers.entries.map Prod.fst →
      r.fullPath ∈ c.inputFiles := by
    intro c hc
    exact List.mem_append_right _ (FileSet.mem_paths.2 ⟨r, hc, rfl⟩)
  unfold offered dependencyFiles linkable at hr
  unfold inputFiles ruleTargets
  cases hbody : node.body with
  | library c =>
    simp only [hbody] at hr ⊢
    rcases List.mem_append.1 hr with hc | hobject
    · exact Or.inl (hheader hc)
    · obtain ⟨entry, hentry, rfl⟩ := mem_objects.1 hobject
      exact Or.inr (List.mem_append_left _ (List.mem_map.2 ⟨entry, hentry, rfl⟩))
  | binary c =>
    simp only [hbody, List.map_cons, List.map_nil, List.append_nil, List.mem_singleton] at hr ⊢
    rw [hr]
    exact Or.inr (List.mem_append_left _ (List.mem_append_right _ List.mem_cons_self))
  | sharedLibrary c spec =>
    simp only [hbody] at hr ⊢
    rcases List.mem_append.1 hr with hc | hlink
    · exact Or.inl (List.mem_append_left _ (hheader hc))
    · have houtput : r ∈ spec.outputs dirs node.target := by
        rw [List.mem_singleton.1 hlink]
        exact List.getLastD_mem_cons
      refine Or.inr (List.mem_append_left _ (List.mem_append_right _ ?_))
      exact List.mem_map_of_mem houtput
  | autoconf spec =>
    simp only [hbody, List.map_cons, List.map_nil, List.append_nil, List.mem_singleton] at hr ⊢
    rw [hr]
    exact Or.inr List.mem_cons_self
  | listing prerequisites => simp [hbody] at hr

/-- The files that a node has installed are made by its rules. -/
theorem installPart_subset : (node.installPart dirs).1 ⊆ node.ruleTargets dirs := by
  intro path hpath
  unfold installPart at hpath
  unfold ruleTargets
  cases hbody : node.body with
  | library c => simp [hbody] at hpath
  | binary c =>
    simp only [hbody] at hpath ⊢
    exact List.mem_append_left _ (List.mem_append_right _ hpath)
  | sharedLibrary c spec =>
    simp only [hbody] at hpath ⊢
    exact List.mem_append_left _ (List.mem_append_right _ hpath)
  | autoconf spec => simp [hbody] at hpath
  | listing prerequisites => simp [hbody] at hpath

end Makewright.Node
