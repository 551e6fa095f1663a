import Makewright.Proofs.Graph.Resolution

/-!
# Answers from what a graph remembers

A graph that remembers the result of a walk answers without another walk. A graph is coherent if
what it remembers is the result of a walk over the nodes that it has now. Every operation on a graph
leaves it coherent, a walk that fails included, and a coherent graph answers as a new graph with the
same nodes does (`dependenciesOf_eq_afresh`).
-/

set_option autoImplicit false

namespace Makewright.Graph

variable {g h : Graph} {r : Resolution} {t : Target}

/-- What the graph remembers is the result of a walk over its declarations. -/
def Coherent (g : Graph) : Prop :=
  ∀ r, g.resolution = some r → Order.walk g.declarations = .ok r

/-- A new graph in which the nodes are declared again, one after the other. -/
def afresh (g : Graph) : Graph :=
  g.nodes.foldl declare empty

/-- Resolve the graph, and if this succeeds ask for everything that a target depends on. -/
def closureAfterResolving (g : Graph) (target : Target) : Except BuildError (List Node) := do
  let (outcome, settled) := g.resolve
  let _ ← outcome
  (settled.dependenciesOf target).1

/-- What a graph answers that remembers a walk. -/
def answerFrom (g : Graph) (r : Resolution) (target : Target) : Except BuildError (List Node) :=
  match r.closure? target with
  | some closure => .ok (g.nodesOf closure)
  | none => .error .unknownName

theorem eq_of_nodes_eq (hnodes : g.nodes = h.nodes) (hresolution : g.resolution = h.resolution) :
    g = h := by
  obtain ⟨nodes, hdistinct, resolution⟩ := g
  obtain ⟨_, _, _⟩ := h
  cases hnodes
  cases hresolution
  rfl

/-! ## Nodes declared again -/

/-- Nodes whose targets are new are declared behind the others. -/
theorem nodes_foldl_declare (g : Graph) (nodes : List Node)
    (hdistinct : ((g.nodes ++ nodes).map Node.target).Nodup) :
    (nodes.foldl declare g).nodes = g.nodes ++ nodes := by
  induction nodes generalizing g with
  | nil => simp
  | cons node rest ih =>
    -- no two targets are the same, so this one is not among those in front of it
    have hnew : node.target ∉ g.targets := by
      rw [List.map_append, List.map_cons, List.nodup_append] at hdistinct
      intro hthere
      exact hdistinct.2.2 _ hthere _ List.mem_cons_self rfl
    have hnodes : (g.declare node).nodes = g.nodes ++ [node] := by
      rw [declare, dif_neg hnew]
    rw [List.foldl_cons, ih _ (by simpa [hnodes] using hdistinct), hnodes, List.append_assoc]
    rfl

/-- Declaring nodes brings nothing to mind. -/
theorem resolution_foldl_declare (hnone : g.resolution = none) (nodes : List Node) :
    (nodes.foldl declare g).resolution = none := by
  induction nodes generalizing g with
  | nil => exact hnone
  | cons node rest ih =>
    refine ih ?_
    unfold declare
    split
    · exact hnone
    · rfl

/-- The new graph has the same nodes in the same order, and remembers nothing. -/
theorem afresh_eq (g : Graph) : g.afresh = { g with resolution := none } := by
  refine eq_of_nodes_eq ?_ ?_
  · exact (nodes_foldl_declare empty g.nodes g.distinctTargets).trans (List.nil_append _)
  · exact resolution_foldl_declare rfl g.nodes

theorem declarations_afresh (g : Graph) : g.afresh.declarations = g.declarations := by
  rw [afresh_eq]
  rfl

/-! ## Coherence is kept -/

theorem coherent_of_resolution_eq_none (hnone : g.resolution = none) : g.Coherent := by
  intro r hr
  rw [hnone] at hr
  cases hr

theorem coherent_empty : empty.Coherent :=
  coherent_of_resolution_eq_none rfl

/-- A new node makes the graph forget, and a node that is refused leaves it as it is. -/
theorem Coherent.declare (hg : g.Coherent) (node : Node) : (g.declare node).Coherent := by
  unfold Graph.declare
  split
  · exact hg
  · exact coherent_of_resolution_eq_none rfl

theorem coherent_of_walk (hwalk : Order.walk g.declarations = .ok r) :
    ({ g with resolution := some r } : Graph).Coherent := by
  intro s hs
  cases hs
  exact hwalk

theorem nodes_resolve (g : Graph) : g.resolve.2.nodes = g.nodes := by
  rcases g.resolve_cases with ⟨r, -, hresolve⟩ | ⟨e, -, hresolve⟩ <;> rw [hresolve]

/-- A walk that fails leaves what the graph remembers, and one that succeeds replaces it. -/
theorem Coherent.resolve (hg : g.Coherent) : g.resolve.2.Coherent := by
  rcases g.resolve_cases with ⟨r, hwalk, hresolve⟩ | ⟨e, -, hresolve⟩
  · rw [hresolve]
    exact coherent_of_walk hwalk
  · rw [hresolve]
    exact hg

/-! ## What a coherent graph answers -/

/-- A graph whose declarations can be walked answers from the walk, be it remembered or not. -/
theorem Coherent.dependenciesOf_of_walk (hg : g.Coherent)
    (hwalk : Order.walk g.declarations = .ok r) (t : Target) :
    g.dependenciesOf t = (g.answerFrom r t, { g with resolution := some r }) := by
  cases hresolution : g.resolution with
  | none =>
    simp only [dependenciesOf, hresolution, settle, hwalk]
    rfl
  | some s =>
    -- what is remembered is the walk that would be done now
    obtain rfl : s = r := Except.ok.inj ((hg s hresolution).symm.trans hwalk)
    have hsame : ({ g with resolution := some s } : Graph) = g :=
      eq_of_nodes_eq rfl hresolution.symm
    simp only [dependenciesOf, hresolution, hsame]
    rfl

/-- A graph whose declarations cannot be walked remembers nothing, and every answer is the error of
the walk. -/
theorem Coherent.dependenciesOf_of_error (hg : g.Coherent) {e : BuildError}
    (hwalk : Order.walk g.declarations = .error e) (t : Target) :
    g.dependenciesOf t = (.error e, g) := by
  have hnone : g.resolution = none := by
    rw [Option.eq_none_iff_forall_ne_some]
    intro r hr
    cases hwalk.symm.trans (hg r hr)
  simp only [dependenciesOf, hnone, settle, hwalk]
  rfl

theorem Coherent.dependenciesOf (hg : g.Coherent) (t : Target) :
    (g.dependenciesOf t).2.Coherent := by
  cases hwalk : Order.walk g.declarations with
  | ok r =>
    rw [hg.dependenciesOf_of_walk hwalk]
    exact coherent_of_walk hwalk
  | error e =>
    rw [hg.dependenciesOf_of_error hwalk]
    exact hg

/-- Asking leaves the nodes. -/
theorem nodes_dependenciesOf (g : Graph) (t : Target) : (g.dependenciesOf t).2.nodes = g.nodes := by
  unfold Graph.dependenciesOf settle
  cases g.resolution with
  | some r => rfl
  | none => cases Order.walk g.declarations <;> rfl

/-- A graph that has resolved answers from the walk. -/
theorem closureAfterResolving_of_walk (hwalk : Order.walk g.declarations = .ok r) (t : Target) :
    g.closureAfterResolving t = g.answerFrom r t := by
  rcases g.resolve_cases with ⟨s, hs, hresolve⟩ | ⟨e, he, -⟩
  · obtain rfl : s = r := Except.ok.inj (hs.symm.trans hwalk)
    have hanswer := (coherent_of_walk hwalk).dependenciesOf_of_walk hwalk t
    rw [closureAfterResolving, hresolve]
    exact congrArg Prod.fst hanswer
  · cases hwalk.symm.trans he

theorem closureAfterResolving_of_error {e : BuildError}
    (hwalk : Order.walk g.declarations = .error e) (t : Target) :
    g.closureAfterResolving t = .error e := by
  rcases g.resolve_cases with ⟨r, hr, -⟩ | ⟨s, hs, hresolve⟩
  · cases hwalk.symm.trans hr
  · obtain rfl : s = e := Except.error.inj (hs.symm.trans hwalk)
    rw [closureAfterResolving, hresolve]
    rfl

/-- A coherent graph answers as a new graph with its nodes that is resolved first. -/
theorem Coherent.dependenciesOf_eq_afresh (hg : g.Coherent) (t : Target) :
    (g.dependenciesOf t).1 = g.afresh.closureAfterResolving t := by
  have hsame := g.declarations_afresh
  cases hwalk : Order.walk g.declarations with
  | ok r =>
    rw [hg.dependenciesOf_of_walk hwalk, closureAfterResolving_of_walk (hsame ▸ hwalk), afresh_eq]
    rfl
  | error e =>
    rw [hg.dependenciesOf_of_error hwalk, closureAfterResolving_of_error (hsame ▸ hwalk)]

/-- The closure of a declared target that can be looked up in a walk. -/
theorem answerFrom_of_mem (hwalk : Order.walk g.declarations = .ok r) (ht : t ∈ g.targets) :
    g.answerFrom r t = .ok (g.nodesOf (r.below t)) := by
  rw [answerFrom, (Order.finished_of_walk hwalk).closure?_eq_below ((mem_order_iff hwalk).2 ht)]

/-- A walk has no closure for a target that is not declared. -/
theorem answerFrom_of_not_mem (hwalk : Order.walk g.declarations = .ok r) (ht : t ∉ g.targets) :
    g.answerFrom r t = .error .unknownName := by
  have hnone : r.closure? t = none := by
    rw [Resolution.closure?, Order.lookup_eq_none_iff_not_key,
      (Order.finished_of_walk hwalk).closures_keys]
    exact fun hmem => ht ((mem_order_iff hwalk).1 hmem)
  rw [answerFrom, hnone]

end Makewright.Graph
