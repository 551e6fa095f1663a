import Makewright.Proofs.Graph.Loading

/-!
# A load step by step

Loading makes moves of three kinds (`Loading.Moves`): it reports and fetches, it reads the build
file of a package that is wanted, and it adds a node of a wanted package to the graph, which is read
from a description in a build file of that package. Whatever a load does, and whether or not it
succeeds, is a run of such moves (`Loading.load_leads`). So an invariant of loading is what every
one of the moves keeps.
-/

set_option autoImplicit false

namespace Makewright

open Relation

variable {ctx : Context} {roots : List Target} {packages : List String}

/-- A package is wanted by a selection of roots and packages or by a node of the graph. -/
inductive Graph.Wants (roots : List Target) (packages : List String) (g : Graph) : String → Prop
  | package {package : String} (h : package ∈ packages) : Wants roots packages g package
  | root {root : Target} (h : root ∈ roots) : Wants roots packages g root.package
  | dependency {node : Node} {dependency : Target} (hnode : node ∈ g.nodes)
    (h : dependency ∈ node.dependencies) : Wants roots packages g dependency.package

/-- The description stands in the build file of its package as it is in some state of the files. -/
def Context.Records (ctx : Context) (d : Description) : Prop :=
  ∃ files ds, ctx.Describes files d.target.package ds ∧ d ∈ ds

/-- A graph that grows wants no fewer packages. -/
theorem Graph.Wants.mono {g bigger : Graph} (hsubset : g.nodes ⊆ bigger.nodes) {package : String}
    (h : g.Wants roots packages package) : bigger.Wants roots packages package := by
  cases h with
  | package h => exact .package h
  | root h => exact .root h
  | dependency hnode h => exact .dependency (hsubset hnode) h

namespace Loading

/-- One move of a load. -/
inductive Moves (ctx : Context) (roots : List Target) (packages : List String)
    (loading : Loading) : Loading → Prop
  | touch {session : Session} (h : ctx.Touches loading.session session) :
    Moves ctx roots packages loading ⟨loading.graph, session⟩
  | read {package : String} {found : Option (List Description)}
    (hwanted : loading.graph.Wants roots packages package)
    (hread : BuildFile.read loading.session.disk.files ctx.workspace.root package = .ok found) :
    Moves ctx roots packages loading ⟨loading.graph,
      { loading.session with packages := (package, found) :: loading.session.packages }⟩
  | add {d : Description} {node : Node}
    (hwanted : loading.graph.Wants roots packages d.target.package) (hrecords : ctx.Records d)
    (hread : node.IsReadFrom ctx.registry ctx.workspace.settings d) :
    Moves ctx roots packages loading ⟨loading.graph.declare node, loading.session⟩

/-- Some moves lead from a session, in which nothing is known of packages and no graph is loaded,
to a graph that is being loaded. -/
def Reached (ctx : Context) (roots : List Target) (packages : List String) (start : Session) :
    Loading → Prop :=
  ReflTransGen (Moves ctx roots packages) ⟨.empty, { start with packages := [] }⟩

variable {start : Session} {loading after : Loading} {d : Description} {node : Node}

/-- What is known of a package in the course of a load was read from its build file. -/
theorem Reached.read_of_lookup (h : Reached ctx roots packages start loading) {package : String}
    {found : Option (List Description)}
    (hfound : loading.session.packages.lookup package = some found) :
    ∃ files, BuildFile.read files ctx.workspace.root package = .ok found := by
  induction h with
  | refl => cases hfound
  | @tail loading next _ hmove ih =>
    cases hmove with
    | touch h =>
      apply ih
      cases h <;> exact hfound
    | @read other answer hwanted hread =>
      rw [List.lookup_cons] at hfound
      by_cases hsame : package = other
      · rw [hsame, beq_self_eq_true] at hfound
        cases hfound
        exact ⟨_, hsame ▸ hread⟩
      · rw [beq_false_of_ne hsame] at hfound
        exact ih hfound
    | add hwanted hrecords hread => exact ih hfound

theorem subset_declare (g : Graph) (node : Node) : g.nodes ⊆ (g.declare node).nodes := by
  unfold Graph.declare
  split
  · exact List.Subset.refl _
  · exact List.subset_append_left _ _

theorem mem_declare {g : Graph} (h : node.target ∉ g.targets) : node ∈ (g.declare node).nodes := by
  rw [Graph.declare, dif_neg h]
  exact List.mem_append_right _ List.mem_cons_self

theorem mem_of_mem_declare {g : Graph} {other : Node} (h : other ∈ (g.declare node).nodes) :
    other ∈ g.nodes ∨ other = node := by
  unfold Graph.declare at h
  split at h
  · exact .inl h
  · exact (List.mem_append.1 h).imp_right List.mem_singleton.1

/-! ## The moves of the steps -/

/-- Reporting and fetching are moves that leave the graph alone. -/
theorem spares_reached (ctx : Context) (roots : List Target) (packages : List String)
    (start : Session) (g : Graph) :
    Spares ctx fun loading => Reached ctx roots packages start loading ∧ loading.graph = g :=
  fun _ _ _ htouches h => ⟨h.1.tail (.touch htouches), h.2⟩

theorem isReadFrom_of_readNode (h : readNode ctx d loading = .ok node after) :
    node.IsReadFrom ctx.registry ctx.workspace.settings d := by
  obtain ⟨nodeClass, between, hrun, h⟩ := Stateful.exists_between_of_bind h
  obtain ⟨hfind, rfl⟩ := lift_eq_ok hrun
  obtain ⟨reading, between, hrun', h⟩ := Stateful.exists_between_of_bind h
  obtain ⟨hread, rfl⟩ := lift_eq_ok hrun'
  refine ⟨nodeClass, reading, hfind, hread, ?_⟩
  cases reading with
  | complete found =>
    cases h
    exact .complete _
  | awaiting identifier finish =>
    obtain ⟨path, between, -, h⟩ := Stateful.exists_between_of_bind h
    cases h
    exact .finish identifier finish path

theorem readNode_leads (h : Reached ctx roots packages start loading) :
    Leads (fun node after => Reached ctx roots packages start after ∧
        after.graph = loading.graph ∧ node.IsReadFrom ctx.registry ctx.workspace.settings d)
      (Reached ctx roots packages start) (readNode ctx d) loading := by
  have hkeeps := readNode_keeps (spares_reached ctx roots packages start loading.graph) d loading
    ⟨h, rfl⟩
  constructor
  · intro node after hafter
    obtain ⟨hreached, hgraph⟩ := hkeeps.ok hafter
    exact ⟨hreached, hgraph, isReadFrom_of_readNode hafter⟩
  · intro e after hafter
    exact (hkeeps.error hafter).1

theorem report_leads (h : Reached ctx roots packages start loading) (level : LogLevel)
    (reporter : Reporter) (text : String) :
    Leads (fun _ after => Reached ctx roots packages start after ∧ after.graph = loading.graph)
      (Reached ctx roots packages start) (inPass (Pass.report level reporter text)) loading :=
  (report_keeps (spares_reached ctx roots packages start loading.graph) level reporter text loading
    ⟨h, rfl⟩).mono (fun _ _ hafter => hafter) fun _ hafter => hafter.1

/-- A description that is recorded in a wanted package is added. -/
theorem add_leads (h : Reached ctx roots packages start loading)
    (hwanted : loading.graph.Wants roots packages d.target.package) (hrecords : ctx.Records d) :
    Leads (fun node after => Reached ctx roots packages start after ∧ node ∈ after.graph.nodes ∧
        loading.graph.nodes ⊆ after.graph.nodes)
      (Reached ctx roots packages start) (add ctx d) loading := by
  refine .get_bind ?_
  split_ifs with hcontains
  · exact .throw h
  · refine (readNode_leads h).seq (fun _ hbad => hbad) ?_
    rintro node between ⟨hbetween, hgraph, hread⟩
    refine (report_leads hbetween _ _ _).seq (fun _ hbad => hbad) ?_
    rintro ⟨⟩ reported ⟨hreported, hsame⟩
    rw [hgraph] at hsame
    have hnew : node.target ∉ reported.graph.targets := by
      rw [hsame, hread.follows.target, ← contains_iff]
      exact hcontains
    refine .bind (.modify (.pure ⟨?_, mem_declare hnew, ?_⟩))
    · exact hreported.tail (.add (hsame ▸ hwanted) hrecords hread)
    · rw [← hsame]
      exact subset_declare _ _

/-- The packages of the requests are wanted. -/
def Wanted (roots : List Target) (packages : List String) (g : Graph) (queue : List Request) :
    Prop :=
  ∀ request ∈ queue, g.Wants roots packages request.target.package

theorem Wanted.mono {g bigger : Graph} (hsubset : g.nodes ⊆ bigger.nodes) {queue : List Request}
    (h : Wanted roots packages g queue) : Wanted roots packages bigger queue :=
  fun request hrequest => (h request hrequest).mono hsubset

/-- What a step that loads targets does: it makes moves, the graph grows, and the requests that it
answers with are for wanted packages. -/
structure Advances (ctx : Context) (roots : List Target) (packages : List String) (start : Session)
    (loading : Loading) (requests : List Request) (after : Loading) : Prop where
  reached : Reached ctx roots packages start after
  wanted : Wanted roots packages after.graph requests
  grows : loading.graph.nodes ⊆ after.graph.nodes

/-- The descriptions of a wanted package are added one after the other. -/
theorem addAll_leads {package : String} (ds : List Description)
    (h : Reached ctx roots packages start loading)
    (hwanted : loading.graph.Wants roots packages package)
    (hds : ∀ d ∈ ds, d.target.package = package ∧ ctx.Records d) :
    Leads (Advances ctx roots packages start loading) (Reached ctx roots packages start)
      (addAll ctx ds) loading := by
  induction ds generalizing loading with
  | nil => exact .pure ⟨h, nofun, List.Subset.refl _⟩
  | cons d rest ih =>
    obtain ⟨⟨hpackage, hrecords⟩, hrest⟩ := List.forall_mem_cons.1 hds
    refine .get_bind ?_
    split_ifs
    · exact ih h hwanted hrest
    · refine (add_leads h (hpackage ▸ hwanted) hrecords).seq (fun _ hbad => hbad) ?_
      rintro node between ⟨hbetween, hnode, hgrows⟩
      refine (ih hbetween (hwanted.mono hgrows) hrest).seq (fun _ hbad => hbad) ?_
      intro further after hafter
      refine .pure ⟨hafter.reached, ?_, List.Subset.trans hgrows hafter.grows⟩
      intro request hrequest
      rcases List.mem_append.1 hrequest with hown | hlater
      · obtain ⟨dependency, hdependency, rfl⟩ := List.mem_map.1 hown
        exact .dependency (hafter.grows hnode) hdependency
      · exact hafter.wanted request hlater

/-- A wanted package is asked for: what is known of it was read from its build file, and it is read
if nothing is known yet. -/
theorem describePackage_leads {package : String} (h : Reached ctx roots packages start loading)
    (hwanted : loading.graph.Wants roots packages package) :
    Leads (fun found after => Reached ctx roots packages start after ∧
        after.graph = loading.graph ∧
        ∀ ds, found = some ds → ∀ d ∈ ds, d.target.package = package ∧ ctx.Records d)
      (Reached ctx roots packages start) (describePackage ctx package) loading := by
  have hstands : ∀ {files : FileTree} {found : Option (List Description)},
      BuildFile.read files ctx.workspace.root package = .ok found →
        ∀ ds, found = some ds → ∀ d ∈ ds, d.target.package = package ∧ ctx.Records d := by
    rintro files found hread ds rfl d hd
    have hpackage : d.target.package = package := (BuildFile.read_spec hread).package_eq d hd
    exact ⟨hpackage, files, ds, hpackage ▸ hread, hd⟩
  refine inPass_leads (.get_bind (.bind (Pass.lift_leads ?_ h)))
  rintro ⟨found, known⟩ hload
  refine .bind (.modify (.pure ?_))
  rcases BuildFile.load_eq_ok hload with ⟨hlookup, rfl⟩ | ⟨hread, rfl⟩
  · obtain ⟨files, hread⟩ := h.read_of_lookup hlookup
    exact ⟨h, rfl, hstands hread⟩
  · exact ⟨h.tail (.read hwanted hread), rfl, hstands hread⟩

theorem loadPackage_leads {package : String} (wanted : Option Request)
    (h : Reached ctx roots packages start loading)
    (hwanted : loading.graph.Wants roots packages package) :
    Leads (Advances ctx roots packages start loading) (Reached ctx roots packages start)
      (loadPackage ctx package wanted) loading := by
  refine (describePackage_leads h hwanted).seq (fun _ hbad => hbad) ?_
  rintro found between ⟨hbetween, hgraph, hds⟩
  cases found with
  | none => exact .throw hbetween
  | some ds =>
    refine (report_leads hbetween _ _ _).seq (fun _ hbad => hbad) ?_
    rintro ⟨⟩ reported ⟨hreported, hsame⟩
    rw [hgraph] at hsame
    rw [← hsame] at hwanted
    refine (addAll_leads ds hreported hwanted (hds ds rfl)).mono ?_ fun _ hbad => hbad
    intro requests after hafter
    exact ⟨hafter.reached, hafter.wanted, hsame ▸ hafter.grows⟩

/-! ## The moves of a load -/

theorem loadPackages_leads (rest loaded : List String) {queue : List Request}
    (hrest : rest ⊆ packages) (h : Reached ctx roots packages start loading)
    (hqueue : Wanted roots packages loading.graph queue) :
    Leads (fun answer after => Reached ctx roots packages start after ∧
        Wanted roots packages after.graph answer.2)
      (Reached ctx roots packages start) (loadPackages ctx rest loaded queue) loading := by
  induction rest generalizing loaded queue loading with
  | nil => exact .pure ⟨h, hqueue⟩
  | cons package rest ih =>
    obtain ⟨hpackage, hrest⟩ := List.cons_subset.1 hrest
    unfold loadPackages
    split_ifs
    · exact ih loaded hrest h hqueue
    · refine (loadPackage_leads none h (.package hpackage)).seq (fun _ hbad => hbad) ?_
      intro further between hbetween
      refine ih (package :: loaded) hrest hbetween.reached ?_
      exact List.forall_mem_append.2 ⟨hqueue.mono hbetween.grows, hbetween.wanted⟩

theorem answer_leads (request : Request) (loading : Loading) :
    Leads (fun _ after => after = loading) (· = loading) (answer request) loading := by
  refine .get_bind ?_
  split_ifs
  · exact .throw rfl
  · exact .pure rfl

theorem answerLoaded_leads (loaded : List String) (queue : List Request) (loading : Loading) :
    Leads (fun rest after => after = loading ∧ rest ⊆ queue) (· = loading)
      (answerLoaded loaded queue) loading := by
  induction queue with
  | nil => exact .pure ⟨rfl, List.Subset.refl _⟩
  | cons request rest ih =>
    unfold answerLoaded
    split_ifs
    · refine (answer_leads request loading).seq (fun _ hbad => hbad) ?_
      rintro ⟨⟩ between rfl
      refine ih.mono ?_ fun _ hbad => hbad
      rintro waiting after ⟨rfl, hwaiting⟩
      exact ⟨rfl, List.subset_cons_of_subset request hwaiting⟩
    · exact .pure ⟨rfl, List.Subset.refl _⟩

/-- What a round does: it makes moves, and what is left to do is wanted. -/
structure Turns (ctx : Context) (roots : List Target) (packages : List String) (start : Session)
    (left : Option (List String × List Request)) (after : Loading) : Prop where
  reached : Reached ctx roots packages start after
  wanted : ∀ more rest, left = some (more, rest) → Wanted roots packages after.graph rest

theorem round_leads (loaded : List String) {queue : List Request}
    (h : Reached ctx roots packages start loading)
    (hqueue : Wanted roots packages loading.graph queue) :
    Leads (Turns ctx roots packages start) (Reached ctx roots packages start)
      (round ctx loaded queue) loading := by
  refine (answerLoaded_leads loaded queue loading).seq (fun _ hbad => hbad ▸ h) ?_
  rintro waiting between ⟨rfl, hwaiting⟩
  cases waiting with
  | nil => exact .pure ⟨h, nofun⟩
  | cons request rest =>
    obtain ⟨hrequest, hrest⟩ := List.cons_subset.1 hwaiting
    refine (loadPackage_leads _ h (hqueue request hrequest)).seq (fun _ hbad => hbad) ?_
    intro further loaded' hloaded
    refine (answer_leads request loaded').seq (fun _ hbad => hbad ▸ hloaded.reached) ?_
    rintro ⟨⟩ answered rfl
    refine .pure ⟨hloaded.reached, ?_⟩
    rintro more later ⟨⟩
    -- the rest of the queue was wanted before the package, and the graph has only grown
    refine List.forall_mem_append.2 ⟨?_, hloaded.wanted⟩
    exact Wanted.mono hloaded.grows fun other hother => hqueue other (hrest hother)

theorem rounds_leads (fuel : Nat) (loaded : List String) {queue : List Request}
    (h : Reached ctx roots packages start loading)
    (hqueue : Wanted roots packages loading.graph queue) :
    Leads (Turns ctx roots packages start) (Reached ctx roots packages start)
      (rounds ctx fuel loaded queue) loading := by
  induction fuel generalizing loaded queue loading with
  | zero =>
    refine .pure ⟨h, ?_⟩
    rintro more rest ⟨⟩
    exact hqueue
  | succ fuel ih =>
    refine (round_leads loaded h hqueue).seq (fun _ hbad => hbad) ?_
    intro left between hturns
    cases left with
    | none => exact .pure ⟨hturns.reached, nofun⟩
    | some asked => exact ih asked.1 hturns.reached (hturns.wanted _ _ rfl)

theorem work_leads (replies : Nat) (loaded : List String) {queue : List Request}
    (h : Reached ctx roots packages start loading)
    (hqueue : Wanted roots packages loading.graph queue) :
    Leads (fun _ => Reached ctx roots packages start) (Reached ctx roots packages start)
      (work ctx replies loaded queue) loading := by
  induction replies generalizing loaded queue loading with
  | zero =>
    unfold work
    refine .get_bind ((rounds_leads _ loaded h hqueue).seq (fun _ hbad => hbad) ?_)
    intro left between hturns
    cases left with
    | none => exact .pure hturns.reached
    | some asked => exact .throw hturns.reached
  | succ replies ih =>
    unfold work
    refine .get_bind ((rounds_leads _ loaded h hqueue).seq (fun _ hbad => hbad) ?_)
    intro left between hturns
    cases left with
    | none => exact .pure hturns.reached
    | some asked => exact ih asked.1 hturns.reached (hturns.wanted _ _ rfl)

/-- A load that starts on an empty graph, with nothing known of packages, makes moves only, whether
or not it succeeds. -/
theorem load_leads (ctx : Context) (roots : List Target) (packages : List String)
    (hfresh : start.packages = []) :
    Leads (fun _ => Reached ctx roots packages start) (Reached ctx roots packages start)
      (load ctx roots packages) ⟨.empty, start⟩ := by
  have hstart : Reached ctx roots packages start ⟨.empty, start⟩ := by
    have hsame : { start with packages := [] } = start := by rw [← hfresh]
    unfold Reached
    rw [hsame]
  have hnone : Wanted roots packages Graph.empty [] := nofun
  refine (loadPackages_leads packages [] (List.Subset.refl _) hstart hnone).seq
    (fun _ hbad => hbad) ?_
  rintro ⟨loaded, queue⟩ between ⟨hbetween, hqueue⟩
  refine .get_bind (work_leads _ loaded hbetween (List.forall_mem_append.2 ⟨hqueue, ?_⟩))
  intro request hrequest
  obtain ⟨root, hroot, rfl⟩ := List.mem_map.1 hrequest
  exact .root hroot

end Loading

end Makewright
