import Makewright.Proofs.Graph.Dependency

/-!
# Resolving a graph

What the walk over a graph gives, in terms of its nodes. A graph whose dependencies are declared and
have no cycle resolves, and then every node stands behind all that it reaches (`layered_of_resolve`)
and has its closure (`exists_closure_of_resolve`). Any other graph ends in the error that names the
fault. In either case the nodes stay as they are.
-/

set_option autoImplicit false

namespace Makewright.Graph

open Relation

variable {g : Graph} {r : Resolution}

/-- Resolving is the walk over the declarations, whose result the graph keeps. -/
theorem resolve_cases (g : Graph) :
    (∃ r, Order.walk g.declarations = .ok r ∧
      g.resolve = (.ok (g.nodesOf r.order), { g with resolution := some r })) ∨
    ∃ e, Order.walk g.declarations = .error e ∧ g.resolve = (.error e, g) := by
  unfold resolve settle
  cases hwalk : Order.walk g.declarations with
  | ok r => exact Or.inl ⟨r, rfl, rfl⟩
  | error e => exact Or.inr ⟨e, rfl, rfl⟩

/-! ## A walk that succeeds -/

theorem mem_order_iff (h : Order.walk g.declarations = .ok r) {t : Target} :
    t ∈ r.order ↔ t ∈ g.targets := by
  constructor
  · intro ht
    exact isDeclared_iff.1 ((Order.finished_of_walk h).isDeclared t ht)
  · intro ht
    exact Order.mem_order_of_walk h (isDeclared_iff.2 ht)

theorem order_subset (h : Order.walk g.declarations = .ok r) : r.order ⊆ g.targets :=
  fun _ ht => (mem_order_iff h).1 ht

/-- The nodes in order are the nodes of the graph. -/
theorem nodesOf_order_perm (h : Order.walk g.declarations = .ok r) :
    (g.nodesOf r.order).Perm g.nodes := by
  have hnodup : ((g.nodesOf r.order).map Node.target).Nodup := by
    rw [map_target_nodesOf (order_subset h)]
    exact (Order.finished_of_walk h).nodup
  rw [List.perm_ext_iff_of_nodup hnodup.of_map g.distinctTargets.of_map]
  intro node
  rw [mem_nodesOf, mem_order_iff h]
  constructor
  · exact And.left
  · intro hnode
    exact ⟨hnode, mem_targets.2 ⟨node, hnode, rfl⟩⟩

/-- The order is layered by the paths of dependencies. -/
theorem layered_order (h : Order.walk g.declarations = .ok r) : Layered g.Reaches r.order := by
  have hlayered := (Order.finished_of_walk h).layered
  rw [order_dependsOn_eq] at hlayered
  exact hlayered.transGen

/-- Everything on a path from a declared target is declared. -/
theorem below_subset (h : Order.walk g.declarations = .ok r) {t : Target} (ht : t ∈ g.targets) :
    r.below t ⊆ g.targets := by
  intro d hd
  have ht := (mem_order_iff h).2 ht
  exact order_subset h ((Order.finished_of_walk h).mem_of_mem_below ht hd)

/-- The nodes below a target are its closure. -/
theorem isClosure_nodesOf_below (h : Order.walk g.declarations = .ok r) {t : Target}
    (ht : t ∈ g.targets) : g.IsClosure t (g.nodesOf (r.below t)) := by
  have hclosure := (Order.finished_of_walk h).isClosure_below t ((mem_order_iff h).2 ht)
  have htargets := map_target_nodesOf (below_subset h ht)
  refine ⟨fun node hnode => (mem_nodesOf.1 hnode).1, ?_, ?_, ?_⟩
  · intro d
    rw [htargets, hclosure.mem_iff d, order_dependsOn_eq]
    rfl
  · rw [htargets]
    exact hclosure.nodup
  · rw [htargets]
    have hlayered := hclosure.layered
    rw [order_dependsOn_eq] at hlayered
    exact hlayered.transGen

/-- A settled graph answers with the closure and stays as it is. -/
theorem dependenciesOf_settled (h : Order.walk g.declarations = .ok r) {t : Target}
    (ht : t ∈ g.targets) :
    ({ g with resolution := some r } : Graph).dependenciesOf t =
      (.ok (g.nodesOf (r.below t)), { g with resolution := some r }) := by
  have hclosure := (Order.finished_of_walk h).closure?_eq_below ((mem_order_iff h).2 ht)
  simp only [dependenciesOf, bind, Except.bind, hclosure]
  rfl

/-- What a graph that resolves has walked. -/
theorem walk_of_resolve {settled : Graph} {nodes : List Node}
    (h : g.resolve = (.ok nodes, settled)) :
    ∃ r, Order.walk g.declarations = .ok r ∧ nodes = g.nodesOf r.order ∧
      settled = { g with resolution := some r } := by
  rcases g.resolve_cases with ⟨r, hwalk, hresolve⟩ | ⟨e, -, hresolve⟩
  · rw [h, Prod.mk.injEq, Except.ok.injEq] at hresolve
    exact ⟨r, hwalk, hresolve⟩
  · rw [h] at hresolve
    cases hresolve

theorem perm_of_resolve {settled : Graph} {nodes : List Node}
    (h : g.resolve = (.ok nodes, settled)) : nodes.Perm g.nodes := by
  obtain ⟨r, hwalk, rfl, rfl⟩ := walk_of_resolve h
  exact nodesOf_order_perm hwalk

theorem layered_of_resolve {settled : Graph} {nodes : List Node}
    (h : g.resolve = (.ok nodes, settled)) : Layered g.Reaches (nodes.map Node.target) := by
  obtain ⟨r, hwalk, rfl, rfl⟩ := walk_of_resolve h
  rw [map_target_nodesOf (order_subset hwalk)]
  exact layered_order hwalk

/-- A graph that has resolved answers with the closure of every target. -/
theorem exists_closure_of_resolve {settled : Graph} {nodes : List Node}
    (h : g.resolve = (.ok nodes, settled)) {t : Target} (ht : t ∈ g.targets) :
    ∃ closure, settled.dependenciesOf t = (.ok closure, settled) ∧ g.IsClosure t closure := by
  obtain ⟨r, hwalk, rfl, rfl⟩ := walk_of_resolve h
  exact ⟨_, dependenciesOf_settled hwalk ht, isClosure_nodesOf_below hwalk ht⟩

/-- Only a graph without cycles whose dependencies are declared can be walked. -/
theorem acyclic_of_walk (h : Order.walk g.declarations = .ok r) :
    (∀ a b, g.DependsOn a b → b ∈ g.targets) ∧ ∀ t, ¬ g.Reaches t t := by
  have hlayered := (Order.finished_of_walk h).layered
  rw [order_dependsOn_eq] at hlayered
  have hsource : ∀ {a b}, g.DependsOn a b → a ∈ r.order := by
    rintro a b ⟨node, hnode, rfl, -⟩
    exact (mem_order_iff h).2 (mem_targets.2 ⟨node, hnode, rfl⟩)
  constructor
  · intro a b hab
    exact order_subset h (hlayered.mem_of_rel (hsource hab) hab)
  · intro t ht
    obtain ⟨b, htb, -⟩ := TransGen.head'_iff.1 ht
    exact hlayered.irrefl (hsource htb) ht

/-! ## A walk that fails -/

/-- A cycle of declarations is a cycle of the graph: as no target lists itself, it goes through
another one. -/
theorem isCycle_of_order {c : List Target} (h : Order.IsCycle g.declarations c) : g.IsCycle c := by
  have hlinked := h.linked
  rw [order_dependsOn_eq] at hlinked
  refine ⟨h.closed, ?_, h.nodup, hlinked⟩
  by_contra hshort
  have hlength : c.dropLast.length = 1 := by
    have hpos := List.length_pos_of_ne_nil h.nonempty
    omega
  rw [List.length_dropLast] at hlength
  obtain ⟨a, b, rfl⟩ := List.length_eq_two.1 (by omega : c.length = 2)
  have hab : a = b := by simpa using h.closed
  rw [hab, List.isChain_pair] at hlinked
  exact DependsOn.irrefl b hlinked

/-- A cycle makes a target reach itself. -/
theorem IsCycle.exists_reaches {c : List Target} (h : g.IsCycle c) : ∃ t, g.Reaches t t := by
  match c, h with
  | [], h => exact absurd h.several (by simp)
  | [_], h => exact absurd h.several (by simp)
  | a :: b :: rest, h =>
    obtain ⟨hab, hrest⟩ := List.isChain_cons_cons.1 h.linked
    have hlast : (b :: rest).getLast (List.cons_ne_nil b rest) = a := by
      have hclosed := h.closed
      rw [List.head?_cons, List.getLast?_cons_cons,
        List.getLast?_eq_some_getLast (List.cons_ne_nil b rest)] at hclosed
      exact (Option.some.inj hclosed).symm
    have hpath := List.relationReflTransGen_of_exists_isChain_cons rest hrest hlast
    exact ⟨a, .head' hab hpath⟩

/-- A walk that fails shows a cycle of the graph or a dependency that is not declared. -/
theorem error_of_walk {e : BuildError} (h : Order.walk g.declarations = .error e) :
    (∃ c, e = .cycle c ∧ g.IsCycle c) ∨
      ∃ t d, e = .unresolved t d none ∧ t ∈ g.targets ∧ g.DependsOn t d ∧ d ∉ g.targets := by
  have hfault := (Order.walk_ends g.declarations).of_eq_error h
  cases hfault with
  | cycle hcycle => exact Or.inl ⟨_, rfl, isCycle_of_order hcycle⟩
  | undeclared hdepends hnot =>
    refine Or.inr ⟨_, _, rfl, ?_, order_dependsOn_iff.1 hdepends, ?_⟩
    · exact isDeclared_iff.1 hdepends.isDeclared
    · exact fun hd => hnot (isDeclared_iff.2 hd)

/-! ## Results -/

/-- A graph resolves exactly if every dependency is declared and no target reaches itself. If it
does not resolve, the error shows a cycle or a dependency that is not declared. The nodes stay. -/
theorem resolve_outcome (g : Graph) :
    ((∃ nodes, g.resolve.1 = .ok nodes) ↔
      (∀ a b, g.DependsOn a b → b ∈ g.targets) ∧ ∀ t, ¬ g.Reaches t t) ∧
    (∀ e, g.resolve.1 = .error e →
      (∃ c, e = .cycle c ∧ g.IsCycle c) ∨
      ∃ t d, e = .unresolved t d none ∧ t ∈ g.targets ∧ g.DependsOn t d ∧ d ∉ g.targets) ∧
    g.resolve.2.nodes = g.nodes := by
  rcases g.resolve_cases with ⟨r, hwalk, hresolve⟩ | ⟨e, hwalk, hresolve⟩
  · rw [hresolve]
    refine ⟨⟨fun _ => acyclic_of_walk hwalk, fun _ => ⟨_, rfl⟩⟩, ?_, rfl⟩
    intro e he
    cases he
  · have herror := error_of_walk hwalk
    rw [hresolve]
    refine ⟨⟨?_, ?_⟩, ?_, rfl⟩
    · rintro ⟨nodes, hnodes⟩
      cases hnodes
    · rintro ⟨hdeclared, hacyclic⟩
      rcases herror with ⟨c, -, hcycle⟩ | ⟨t, d, -, -, hdepends, hnot⟩
      · obtain ⟨t, ht⟩ := hcycle.exists_reaches
        exact absurd ht (hacyclic t)
      · exact absurd (hdeclared t d hdepends) hnot
    · intro e' he
      cases he
      exact herror

/-- A graph that resolves gives its nodes in an order in which each stands behind everything it
reaches, and afterwards the closure of every target. -/
theorem resolve_sorted {g settled : Graph} {nodes : List Node}
    (h : g.resolve = (.ok nodes, settled)) :
    nodes.Perm g.nodes ∧ Layered g.Reaches (nodes.map Node.target) ∧
      ∀ t ∈ g.targets, ∃ closure, settled.dependenciesOf t = (.ok closure, settled) ∧
        g.IsClosure t closure ∧ t ∉ closure.map Node.target := by
  refine ⟨perm_of_resolve h, layered_of_resolve h, ?_⟩
  intro t ht
  obtain ⟨closure, hanswer, hclosure⟩ := exists_closure_of_resolve h ht
  refine ⟨closure, hanswer, hclosure, ?_⟩
  intro hself
  exact hclosure.layered.irrefl hself (.single ((hclosure.mem_iff t).1 hself))

/-- A library of the root package without sources. -/
def emptyLibrary (name : String) (dependencies : List Target)
    (h : (⟨"", name⟩ : Target) ∉ dependencies) : Node :=
  ⟨⟨"", name⟩, dependencies, [], .library ⟨.empty, .empty, [], []⟩, h⟩

/-- Four libraries: `top` depends on `left` and `right`, and both of these on `base`. They are
declared from the top down. -/
def diamond : Graph :=
  ⟨[emptyLibrary "top" [⟨"", "left"⟩, ⟨"", "right"⟩] (by decide),
    emptyLibrary "left" [⟨"", "base"⟩] (by decide),
    emptyLibrary "right" [⟨"", "base"⟩] (by decide),
    emptyLibrary "base" [] (by decide)], by decide, none⟩

/-- The diamond resolves from the bottom up. -/
theorem resolve_sorted_diamond :
    ∃ nodes settled, diamond.resolve = (.ok nodes, settled) ∧
      nodes.map Node.target = [⟨"", "base"⟩, ⟨"", "left"⟩, ⟨"", "right"⟩, ⟨"", "top"⟩] ∧
      nodes.Perm diamond.nodes ∧ Layered diamond.Reaches (nodes.map Node.target) ∧
      ∀ t ∈ diamond.targets, ∃ closure, settled.dependenciesOf t = (.ok closure, settled) ∧
        diamond.IsClosure t closure ∧ t ∉ closure.map Node.target :=
  ⟨_, _, rfl, rfl, resolve_sorted rfl⟩

end Makewright.Graph
