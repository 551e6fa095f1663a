import Makewright.Proofs.Graph.Dependency
import Makewright.Proofs.Graph.Description
import Makewright.Proofs.Stateful

/-!
# What loading adds to a graph

A load that succeeds on a fresh graph adds what the selection of roots and packages leads to: the
targets of all packages that it needs, each with the node that the files declare (`load_eq_ok`).
This does not depend on the order in which roots and packages are asked for.

The invariant of the work on the queue is `Underway`. It follows from what the steps do one by one:
adding a description, adding all descriptions of a package, loading a package, and answering the
requests at the front of the queue.
-/

set_option autoImplicit false

namespace Makewright

variable {ctx : Context} {files : FileTree} {d : Description} {node : Node}

namespace Context

/-- Nothing is fetched, or sources are looked up in a directory. -/
def FetchesLocally (ctx : Context) : Prop :=
  ∀ fetcher, ctx.fetcher = some fetcher → ∃ base, fetcher = .directories base

/-- The workspace stays what it is while it is loaded: fetching leaves its build files as they are,
and what is remembered from before the start is right. -/
structure Steady (ctx : Context) (start : Session) : Prop where
  files : ∀ disk, ctx.Fetches start.recorder.script start.disk disk → ∀ package,
    BuildFile.read disk.files ctx.workspace.root package =
      BuildFile.read start.disk.files ctx.workspace.root package
  packages : ∀ package found, start.packages.lookup package = some found →
    BuildFile.read start.disk.files ctx.workspace.root package = .ok found
  fetched : ∀ base, ctx.fetcher = some (.repositories base) → ∀ identifier l,
    start.fetched.lookup identifier = some l → l = (Fetcher.repositories base).place identifier

variable {start : Session}

/-- Looking sources up in a directory changes nothing. -/
theorem FetchesLocally.steady (h : ctx.FetchesLocally) (hfresh : start.packages = []) :
    ctx.Steady start := by
  have hnone : ∀ base, ctx.fetcher ≠ some (.repositories base) := by
    intro base hfetcher
    obtain ⟨other, hother⟩ := h _ hfetcher
    cases hother
  refine ⟨?_, by simp [hfresh], fun base hfetcher => absurd hfetcher (hnone base)⟩
  intro disk hdisk package
  rw [hdisk.eq hnone]

/-- What is known of packages and sources in the course of a pass is right. -/
theorem Steady.read_eq (h : ctx.Steady start) {s : Session} (hs : ctx.Passed start s)
    {package : String} {found : Option (List Description)}
    (hfound : s.packages.lookup package = some found) :
    BuildFile.read start.disk.files ctx.workspace.root package = .ok found := by
  rcases hs.packages package found hfound with hbefore | ⟨disk, hdisk, hread⟩
  · exact h.packages package found hbefore
  · rw [← h.files disk hdisk package, hread]

end Context

namespace Pass

open Stateful

variable {session later : Session}

theorem lift_eq_ok {α : Type} {answer : Except BuildError α} {a : α}
    (h : Pass.lift answer session = .ok a later) : answer = .ok a ∧ session = later := by
  cases answer with
  | error e => cases h
  | ok b =>
    cases h
    exact ⟨rfl, rfl⟩

theorem onFiles_eq_ok {α : Type} {question : FileTree → Except BuildError α} {a : α}
    (h : Pass.onFiles question session = .ok a later) :
    question session.disk.files = .ok a ∧ session = later :=
  lift_eq_ok (of_get_bind h)

end Pass

namespace Loading

open Stateful

/-- A graph that is being loaded in the course of a pass, and every node is the one that the files
at the start declare. -/
structure Sound (ctx : Context) (start : Session) (loading : Loading) : Prop where
  passed : Passed ctx start loading
  declares : ∀ node ∈ loading.graph.nodes, ctx.Declares start.disk.files node

variable {start : Session} {loading after : Loading}

/-! ## Steps that leave the graph alone -/

theorem inPass_eq_ok {α : Type} {step : Pass α} {a : α} (h : inPass step loading = .ok a after) :
    ∃ session, step loading.session = .ok a session ∧ after = ⟨loading.graph, session⟩ := by
  unfold inPass at h
  cases hstep : step loading.session with
  | ok b session =>
    simp only [hstep, EStateM.Result.ok.injEq] at h
    obtain ⟨rfl, rfl⟩ := h
    exact ⟨session, rfl, rfl⟩
  | error e session => simp [hstep] at h

theorem lift_eq_ok {α : Type} {answer : Except BuildError α} {a : α}
    (h : lift answer loading = .ok a after) : answer = .ok a ∧ loading = after := by
  obtain ⟨session, hanswer, rfl⟩ := inPass_eq_ok h
  obtain ⟨rfl, rfl⟩ := Pass.lift_eq_ok hanswer
  exact ⟨rfl, rfl⟩

/-- A step that keeps the graph and the course of the pass keeps everything. -/
theorem Sound.of_keeps {α : Type} {step : LoadM α} {a : α} (h : Sound ctx start loading)
    (hkeeps : Keeps (Passed ctx start) step) (hstep : step loading = .ok a after)
    (hgraph : after.graph = loading.graph) : Sound ctx start after :=
  ⟨(hkeeps loading h.passed).ok hstep, hgraph ▸ h.declares⟩

theorem Sound.report (h : Sound ctx start loading) {level : LogLevel} {reporter : Reporter}
    {text : String} (hreport : inPass (Pass.report level reporter text) loading = .ok () after) :
    Sound ctx start after ∧ after.graph = loading.graph := by
  obtain ⟨session, -, rfl⟩ := inPass_eq_ok hreport
  exact ⟨h.of_keeps (report_keeps (spares_passed ctx start) level reporter text) hreport rfl, rfl⟩

/-- Looking a directory up changes nothing. -/
theorem lookUp_eq_ok {base l : Location} {identifier : String} {session later : Session}
    (h : Fetcher.lookUp base identifier session = .ok l later) :
    l = base.child identifier ∧ session = later := by
  obtain ⟨found, between, hfound, h⟩ := exists_between_of_bind h
  obtain ⟨-, rfl⟩ := Pass.onFiles_eq_ok hfound
  cases found with
  | true =>
    cases h
    exact ⟨rfl, rfl⟩
  | false => cases h

/-- A fetcher answers with the place at which it serves an identifier, unless it remembers another
one. -/
theorem fetch_eq_ok {fetcher : Fetcher} {l : Location} {identifier : String}
    {session later : Session} (h : fetcher.fetch identifier session = .ok l later) :
    l = fetcher.place identifier ∨
      ∃ base, fetcher = .repositories base ∧ session.fetched.lookup identifier = some l := by
  cases fetcher with
  | directories base => exact .inl (lookUp_eq_ok h).1
  | repositories base =>
    rw [Fetcher.fetch, Fetcher.checkout_eq, map_eq_pure_bind] at h
    obtain ⟨⟨place, commit⟩, between, hpinned, h⟩ := exists_between_of_bind h
    obtain ⟨rfl, -⟩ := EStateM.Result.ok.inj h
    replace hpinned := of_get_bind hpinned
    -- a repository that was fetched earlier in the session is answered from there
    cases hknown : session.fetched.lookup identifier with
    | some known =>
      rw [hknown] at hpinned
      obtain ⟨hplace, -⟩ := Prod.mk.inj (EStateM.Result.ok.inj hpinned).1
      exact .inr ⟨base, rfl, congrArg some hplace⟩
    | none =>
      simp only [hknown] at hpinned
      split_ifs at hpinned
      · cases hpinned
      · obtain ⟨r, provided, -, hpinned⟩ := exists_between_of_bind hpinned
        obtain ⟨found, checked, -, hpinned⟩ := exists_between_of_bind hpinned
        obtain ⟨⟨⟩, remembered, -, hpinned⟩ := exists_between_of_bind hpinned
        exact .inl (Prod.mk.inj (EStateM.Result.ok.inj hpinned).1).1.symm

theorem fetchFor_eq_ok (hsteady : ctx.Steady start) (hsound : Sound ctx start loading)
    {identifier path : String} (h : fetchFor ctx d identifier loading = .ok path after) :
    ∃ fetcher, ctx.fetcher = some fetcher ∧
      path = workspacePath ctx.workspace.root (fetcher.place identifier) ∧
      after.graph = loading.graph := by
  unfold fetchFor at h
  cases hfetcher : ctx.fetcher with
  | none =>
    rw [hfetcher] at h
    cases h
  | some fetcher =>
    simp only [hfetcher] at h
    obtain ⟨l, between, hfetch, h⟩ := exists_between_of_bind h
    cases h
    -- an error of the fetcher is thrown again
    obtain ⟨session, hl, rfl⟩ := inPass_eq_ok (of_tryCatch_throw hfetch)
    refine ⟨fetcher, rfl, ?_, rfl⟩
    rcases fetch_eq_ok hl with rfl | ⟨base, rfl, hknown⟩
    · rfl
    · rcases hsound.passed.fetched identifier l hknown with hbefore | ⟨other, hother, rfl⟩
      · rw [hsteady.fetched base hfetcher identifier l hbefore]
      · rw [Option.some.inj (hother.symm.trans hfetcher)]

theorem readNode_eq_ok (hsteady : ctx.Steady start) (hsound : Sound ctx start loading)
    (h : readNode ctx d loading = .ok node after) :
    Sound ctx start after ∧ ctx.Reads d node ∧ after.graph = loading.graph := by
  suffices hreads : ctx.Reads d node ∧ after.graph = loading.graph from
    ⟨hsound.of_keeps (readNode_keeps (spares_passed ctx start) d) h hreads.2, hreads⟩
  obtain ⟨nodeClass, between, hrun, h⟩ := exists_between_of_bind h
  obtain ⟨hfind, rfl⟩ := lift_eq_ok hrun
  obtain ⟨reading, between, hrun', h⟩ := exists_between_of_bind h
  obtain ⟨hread, rfl⟩ := lift_eq_ok hrun'
  cases reading with
  | complete found =>
    cases h
    exact ⟨.complete hfind hread, rfl⟩
  | awaiting identifier finish =>
    obtain ⟨path, between, hfetch, h⟩ := exists_between_of_bind h
    cases h
    obtain ⟨fetcher, hfetcher, rfl, hgraph⟩ := fetchFor_eq_ok hsteady hsound hfetch
    exact ⟨.fetched hfind hread hfetcher, hgraph⟩

/-! ## Adding descriptions -/

/-- What adding some descriptions does: their targets are there, and whatever a new node depends on
is among the requests, which come from these descriptions only. -/
structure Added (ctx : Context) (start : Session) (ds : List Description)
    (requests : List Request) (before after : Loading) : Prop where
  sound : Sound ctx start after
  mem_targets : ∀ t, t ∈ after.graph.targets ↔
    t ∈ before.graph.targets ∨ ∃ d ∈ ds, d.target = t
  requested : ∀ node ∈ after.graph.nodes, node ∈ before.graph.nodes ∨
    ∀ dependency ∈ node.dependencies, ∃ request ∈ requests, request.target = dependency
  justified : ∀ request ∈ requests, ∃ d ∈ ds, ∃ node, ctx.Reads d node ∧
    request.target ∈ node.dependencies

theorem Added.grows {ds : List Description} {requests : List Request} {before : Loading}
    (h : Added ctx start ds requests before after) :
    before.graph.targets ⊆ after.graph.targets :=
  fun t ht => (h.mem_targets t).2 (.inl ht)

theorem contains_iff {g : Graph} {t : Target} : g.contains t ↔ t ∈ g.targets := by
  unfold Graph.contains
  rw [Option.isSome_iff_exists, Graph.mem_targets]
  simp only [Graph.node?_eq_some_iff]

/-- A description is added if its target is new: its node is read, the addition is reported, and the
node is declared. -/
theorem exists_of_add (h : add ctx d loading = .ok node after) :
    d.target ∉ loading.graph.targets ∧ ∃ level reporter text between session,
      readNode ctx d loading = .ok node between ∧
      inPass (Pass.report level reporter text) between = .ok () ⟨between.graph, session⟩ ∧
      after = ⟨between.graph.declare node, session⟩ := by
  unfold add at h
  replace h := of_get_bind h
  split_ifs at h with hcontains
  · cases h
  · obtain ⟨found, between, hread, h⟩ := exists_between_of_bind h
    obtain ⟨⟨⟩, reported, hreport, h⟩ := exists_between_of_bind h
    obtain ⟨session, -, rfl⟩ := inPass_eq_ok hreport
    cases h
    exact ⟨fun hthere => hcontains (contains_iff.2 hthere), _, _, _, between, session, hread,
      hreport, rfl⟩

theorem add_eq_ok (hsteady : ctx.Steady start) {package : String} {ds : List Description}
    (hsound : Sound ctx start loading) (hds : ctx.Describes start.disk.files package ds)
    (hd : d ∈ ds) (h : add ctx d loading = .ok node after) :
    Sound ctx start after ∧ ctx.Reads d node ∧
      after.graph.nodes = loading.graph.nodes ++ [node] := by
  obtain ⟨hnew, level, reporter, text, between, session, hread, hreport, rfl⟩ := exists_of_add h
  obtain ⟨hbetween, hreads, hsame⟩ := readNode_eq_ok hsteady hsound hread
  obtain ⟨hreported, -⟩ := hbetween.report hreport
  rw [← hreads.target, ← hsame] at hnew
  have hnodes : (between.graph.declare node).nodes = between.graph.nodes ++ [node] := by
    rw [Graph.declare, dif_neg hnew]
  refine ⟨⟨hreported.passed, fun other hother => ?_⟩, hreads, hsame ▸ hnodes⟩
  replace hother : other ∈ between.graph.nodes ++ [node] := hnodes ▸ hother
  rcases List.mem_append.1 hother with hold | hlast
  · exact hreported.declares other hold
  · rw [List.mem_singleton.1 hlast]
    exact hreads.declares hds hd

/-- A description whose target is there already adds nothing. -/
theorem Added.of_mem {rest : List Description} {requests : List Request}
    (h : Added ctx start rest requests loading after) (hthere : d.target ∈ loading.graph.targets) :
    Added ctx start (d :: rest) requests loading after := by
  refine ⟨h.sound, ?_, h.requested, ?_⟩
  · intro t
    rw [h.mem_targets, List.exists_mem_cons_iff]
    constructor
    · exact Or.imp_right Or.inr
    · rintro (hold | rfl | hnew)
      · exact Or.inl hold
      · exact Or.inl hthere
      · exact Or.inr hnew
  · intro request hrequest
    obtain ⟨e, he, hjustified⟩ := h.justified request hrequest
    exact ⟨e, List.mem_cons_of_mem d he, hjustified⟩

/-- A description that is added puts the dependencies of its node in front of the requests. -/
theorem Added.cons {rest : List Description} {requests : List Request} {between : Loading}
    (h : Added ctx start rest requests between after) (hreads : ctx.Reads d node)
    (hnodes : between.graph.nodes = loading.graph.nodes ++ [node]) :
    Added ctx start (d :: rest) (node.dependencies.map (⟨some node.target, ·⟩) ++ requests)
      loading after := by
  have htargets : ∀ t,
      t ∈ between.graph.targets ↔ t ∈ loading.graph.targets ∨ t = d.target := by
    intro t
    simp [Graph.targets, hnodes, hreads.target]
  refine ⟨h.sound, ?_, ?_, ?_⟩
  · intro t
    rw [h.mem_targets, htargets, List.exists_mem_cons_iff, or_assoc, eq_comm]
  · intro other hother
    -- a node that was there before the rest is an old one, or the node of `d`
    rcases h.requested other hother with hold | hnew
    · rw [hnodes, List.mem_append, List.mem_singleton] at hold
      refine hold.imp_right ?_
      rintro rfl dependency hdependency
      refine ⟨⟨some other.target, dependency⟩, List.mem_append_left _ ?_, rfl⟩
      exact List.mem_map_of_mem hdependency
    · refine Or.inr fun dependency hdependency => ?_
      obtain ⟨request, hrequest, htarget⟩ := hnew dependency hdependency
      exact ⟨request, List.mem_append_right _ hrequest, htarget⟩
  · intro request hrequest
    rcases List.mem_append.1 hrequest with hown | hother
    · obtain ⟨dependency, hdependency, rfl⟩ := List.mem_map.1 hown
      exact ⟨d, List.mem_cons_self, node, hreads, hdependency⟩
    · obtain ⟨e, he, hjustified⟩ := h.justified request hother
      exact ⟨e, List.mem_cons_of_mem d he, hjustified⟩

/-- Adding the descriptions of a package one after the other. -/
theorem addAll_eq_ok (hsteady : ctx.Steady start) {package : String} {ds rest : List Description}
    {requests : List Request} (hsound : Sound ctx start loading)
    (hds : ctx.Describes start.disk.files package ds) (hrest : rest ⊆ ds)
    (h : addAll ctx rest loading = .ok requests after) :
    Added ctx start rest requests loading after := by
  induction rest generalizing loading requests with
  | nil =>
    cases h
    exact ⟨hsound, by simp, fun node hnode => Or.inl hnode, by simp⟩
  | cons d rest ih =>
    obtain ⟨hd, hrest⟩ := List.cons_subset.1 hrest
    unfold addAll at h
    replace h := of_get_bind h
    by_cases hcontains : loading.graph.contains d.target
    · rw [if_pos hcontains] at h
      exact (ih hsound hrest h).of_mem (contains_iff.1 hcontains)
    · rw [if_neg hcontains] at h
      obtain ⟨node, between, hadd, h⟩ := exists_between_of_bind h
      obtain ⟨hbetween, hreads, hnodes⟩ := add_eq_ok hsteady hsound hds hd hadd
      obtain ⟨further, last, hfurther, h⟩ := exists_between_of_bind h
      cases h
      exact (ih hbetween hrest hfurther).cons hreads hnodes

/-! ## Loading packages -/

/-- A package is looked up, or else its build file is read, and the graph is left alone. -/
theorem graph_of_describePackage {package : String} {found : Option (List Description)}
    (h : describePackage ctx package loading = .ok found after) :
    after.graph = loading.graph ∧ BuildFile.load loading.session.disk.files ctx.workspace.root
      loading.session.packages package = .ok (found, after.session.packages) := by
  obtain ⟨session, hsession, rfl⟩ := inPass_eq_ok h
  replace hsession := of_get_bind hsession
  obtain ⟨⟨answer, packages⟩, between, hrun, hsession⟩ := exists_between_of_bind hsession
  obtain ⟨hload, rfl⟩ := Pass.lift_eq_ok hrun
  cases hsession
  exact ⟨rfl, hload⟩

/-- The targets of a package are asked for, and the answer is that of its build file. -/
theorem describePackage_eq_ok (hsteady : ctx.Steady start) {package : String}
    {found : Option (List Description)} (hsound : Sound ctx start loading)
    (h : describePackage ctx package loading = .ok found after) :
    Sound ctx start after ∧ after.graph = loading.graph ∧
      BuildFile.read start.disk.files ctx.workspace.root package = .ok found := by
  obtain ⟨hgraph, hload⟩ := graph_of_describePackage h
  refine ⟨hsound.of_keeps (describePackage_keeps package) h hgraph, hgraph, ?_⟩
  rcases BuildFile.load_eq_ok hload with ⟨hknown, -⟩ | ⟨hread, -⟩
  · exact hsteady.read_eq hsound.passed hknown
  · rw [← hsteady.files _ hsound.passed.disk package, hread]

/-- A package is loaded if it has a build file: the package is reported, and its descriptions are
added. -/
theorem exists_of_loadPackage {package : String} {wanted : Option Request}
    {requests : List Request} (h : loadPackage ctx package wanted loading = .ok requests after) :
    ∃ ds level reporter text between session,
      describePackage ctx package loading = .ok (some ds) between ∧
      inPass (Pass.report level reporter text) between = .ok () ⟨between.graph, session⟩ ∧
      addAll ctx ds ⟨between.graph, session⟩ = .ok requests after := by
  unfold loadPackage at h
  obtain ⟨found, between, hfound, h⟩ := exists_between_of_bind h
  cases found with
  | none => cases h
  | some ds =>
    obtain ⟨⟨⟩, reported, hreport, h⟩ := exists_between_of_bind h
    obtain ⟨session, -, rfl⟩ := inPass_eq_ok hreport
    exact ⟨ds, _, _, _, between, session, hfound, hreport, h⟩

/-- Loading a package adds what its build file describes. -/
theorem loadPackage_eq_ok (hsteady : ctx.Steady start) {package : String}
    {wanted : Option Request} {requests : List Request} (hsound : Sound ctx start loading)
    (h : loadPackage ctx package wanted loading = .ok requests after) :
    ∃ ds, ctx.Describes start.disk.files package ds ∧
      Added ctx start ds requests loading after := by
  obtain ⟨ds, level, reporter, text, between, session, hfound, hreport, h⟩ :=
    exists_of_loadPackage h
  obtain ⟨hbetween, hgraph, hread⟩ := describePackage_eq_ok hsteady hsound hfound
  have hreported := (hbetween.report hreport).1
  have hadded := addAll_eq_ok hsteady hreported hread (List.Subset.refl ds) h
  refine ⟨ds, hread, hadded.sound, ?_, ?_, hadded.justified⟩
  · rw [← hgraph]
    exact hadded.mem_targets
  · rw [← hgraph]
    exact hadded.requested

end Loading

/-! ## The packages that a selection needs -/

namespace Context

/-- The packages that a selection of roots and packages leads to: the requested ones, those of the
roots, and those of the dependencies of every target of such a package. -/
inductive Needs (ctx : Context) (files : FileTree) (roots : List Target) (packages : List String) :
    String → Prop
  | package {package : String} (h : package ∈ packages) : Needs ctx files roots packages package
  | root {root : Target} (h : root ∈ roots) : Needs ctx files roots packages root.package
  | dependency {package : String} {ds : List Description} {d : Description} {node : Node}
    {dependency : Target} (h : Needs ctx files roots packages package)
    (hds : ctx.Describes files package ds) (hd : d ∈ ds) (hreads : ctx.Reads d node)
    (hdependency : dependency ∈ node.dependencies) :
    Needs ctx files roots packages dependency.package

/-- A selection asks for its roots and for the dependencies of every target of a package that it
needs. -/
inductive Asks (ctx : Context) (files : FileTree) (roots : List Target) (packages : List String) :
    Target → Prop
  | root {root : Target} (h : root ∈ roots) : Asks ctx files roots packages root
  | dependency {package : String} {ds : List Description} {d : Description} {node : Node}
    {dependency : Target} (h : ctx.Needs files roots packages package)
    (hds : ctx.Describes files package ds) (hd : d ∈ ds) (hreads : ctx.Reads d node)
    (hdependency : dependency ∈ node.dependencies) : Asks ctx files roots packages dependency

theorem Asks.needs {roots : List Target} {packages : List String} {t : Target}
    (h : ctx.Asks files roots packages t) : ctx.Needs files roots packages t.package := by
  cases h with
  | root h => exact .root h
  | dependency h hds hd hreads hdependency => exact .dependency h hds hd hreads hdependency

end Context

namespace Loading

open Stateful

variable {start : Session} {roots : List Target} {packages loaded : List String}
  {queue requests : List Request} {loading after : Loading}

/-- Where the work stands: the packages `loaded` have been loaded, all of them needed, and the
requests of the queue are still to be answered. Every dependency is in the graph or waits in the
queue. -/
structure Underway (ctx : Context) (start : Session) (roots : List Target) (packages : List String)
    (loaded : List String) (queue : List Request) (loading : Loading) : Prop where
  sound : Sound ctx start loading
  loaded_needed : ∀ package ∈ loaded, ctx.Needs start.disk.files roots packages package
  queue_asked : ∀ request ∈ queue, ctx.Asks start.disk.files roots packages request.target
  mem_targets : ∀ t, t ∈ loading.graph.targets ↔
    ∃ package ∈ loaded, ∃ ds, ctx.Describes start.disk.files package ds ∧ ∃ d ∈ ds, d.target = t
  pending : ∀ node ∈ loading.graph.nodes, ∀ dependency ∈ node.dependencies,
    dependency ∈ loading.graph.targets ∨ ∃ request ∈ queue, request.target = dependency

/-- A target is in the graph because its package has been loaded. -/
theorem Underway.package_mem (h : Underway ctx start roots packages loaded queue loading)
    {t : Target} (ht : t ∈ loading.graph.targets) : t.package ∈ loaded := by
  obtain ⟨package, hpackage, ds, hds, d, hd, rfl⟩ := (h.mem_targets t).1 ht
  rwa [hds.package_eq hd]

/-- One more package is loaded, and the requests of its targets join the queue. -/
theorem Underway.added {package : String} {ds : List Description}
    (h : Underway ctx start roots packages loaded queue loading)
    (hneeded : ctx.Needs start.disk.files roots packages package)
    (hds : ctx.Describes start.disk.files package ds)
    (hadded : Added ctx start ds requests loading after) :
    Underway ctx start roots packages (package :: loaded) (queue ++ requests) after := by
  refine ⟨hadded.sound, List.forall_mem_cons.2 ⟨hneeded, h.loaded_needed⟩, ?_, ?_, ?_⟩
  · intro request hrequest
    rcases List.mem_append.1 hrequest with hold | hnew
    · exact h.queue_asked request hold
    · obtain ⟨d, hd, node, hreads, hdependency⟩ := hadded.justified request hnew
      exact .dependency hneeded hds hd hreads hdependency
  · intro t
    rw [hadded.mem_targets, h.mem_targets, List.exists_mem_cons_iff, or_comm]
    refine or_congr ?_ Iff.rfl
    constructor
    · intro hd
      exact ⟨ds, hds, hd⟩
    · rintro ⟨others, hothers, hd⟩
      rwa [hds.unique hothers]
  · intro node hnode dependency hdependency
    -- an older node keeps its claim on the old queue; a new one put its requests in the new part
    rcases hadded.requested node hnode with hold | hnew
    · refine (h.pending node hold dependency hdependency).imp (hadded.grows ·) ?_
      rintro ⟨request, hrequest, htarget⟩
      exact ⟨request, List.mem_append_left _ hrequest, htarget⟩
    · obtain ⟨request, hrequest, htarget⟩ := hnew dependency hdependency
      exact Or.inr ⟨request, List.mem_append_right _ hrequest, htarget⟩

/-- A request whose target is in the graph leaves the queue. -/
theorem Underway.dequeue {request : Request}
    (h : Underway ctx start roots packages loaded (request :: queue) loading)
    (hthere : request.target ∈ loading.graph.targets) :
    Underway ctx start roots packages loaded queue loading := by
  refine ⟨h.sound, h.loaded_needed, fun other hother => ?_, h.mem_targets, ?_⟩
  · exact h.queue_asked other (List.mem_cons_of_mem request hother)
  · intro node hnode dependency hdependency
    rcases h.pending node hnode dependency hdependency with hdone | ⟨other, hother, htarget⟩
    · exact Or.inl hdone
    · rcases List.mem_cons.1 hother with rfl | hother
      · exact Or.inl (htarget ▸ hthere)
      · exact Or.inr ⟨other, hother, htarget⟩

theorem answer_eq_ok {request : Request} (h : answer request loading = .ok () after) :
    loading = after ∧ request.target ∈ after.graph.targets := by
  unfold answer at h
  replace h := of_get_bind h
  split_ifs at h with hcontains
  · cases h
  · cases h
    exact ⟨rfl, contains_iff.1 (by simpa using hcontains)⟩

/-- The requests at the front of the queue that are answered are for targets in the graph, and the
package of the next one is not loaded. -/
theorem answerLoaded_eq_ok {rest : List Request}
    (h : answerLoaded loaded queue loading = .ok rest after) :
    loading = after ∧ ∃ front, queue = front ++ rest ∧
      (∀ request ∈ front, request.target ∈ after.graph.targets) ∧
      ∀ request ∈ rest.head?, request.target.package ∉ loaded := by
  induction queue with
  | nil =>
    cases h
    exact ⟨rfl, [], rfl, by simp, by simp⟩
  | cons request others ih =>
    unfold answerLoaded at h
    by_cases hloaded : request.target.package ∈ loaded
    · rw [if_pos hloaded] at h
      obtain ⟨⟨⟩, between, hanswer, h⟩ := exists_between_of_bind h
      obtain ⟨rfl, hthere⟩ := answer_eq_ok hanswer
      obtain ⟨rfl, front, hfront, hall, hnext⟩ := ih h
      refine ⟨rfl, request :: front, by rw [hfront, List.cons_append], ?_, hnext⟩
      exact List.forall_mem_cons.2 ⟨hthere, hall⟩
    · rw [if_neg hloaded] at h
      cases h
      exact ⟨rfl, [], rfl, by simp, by simpa using hloaded⟩

theorem Underway.dequeueAll {front rest : List Request}
    (h : Underway ctx start roots packages loaded (front ++ rest) loading)
    (hthere : ∀ request ∈ front, request.target ∈ loading.graph.targets) :
    Underway ctx start roots packages loaded rest loading := by
  induction front with
  | nil => exact h
  | cons request front ih =>
    obtain ⟨hrequest, hfront⟩ := List.forall_mem_cons.1 hthere
    exact ih (h.dequeue hrequest) hfront

/-- The requested packages are loaded one after the other. -/
theorem loadPackages_eq_ok (hsteady : ctx.Steady start) {rest : List String}
    {result : List String × List Request} (hrest : ∀ package ∈ rest,
      ctx.Needs start.disk.files roots packages package)
    (hunderway : Underway ctx start roots packages loaded queue loading)
    (h : loadPackages ctx rest loaded queue loading = .ok result after) :
    Underway ctx start roots packages result.1 result.2 after ∧ loaded ⊆ result.1 ∧
      rest ⊆ result.1 := by
  induction rest generalizing loaded queue loading with
  | nil =>
    cases h
    exact ⟨hunderway, List.Subset.refl loaded, List.nil_subset loaded⟩
  | cons package rest ih =>
    obtain ⟨hneeded, hrest⟩ := List.forall_mem_cons.1 hrest
    unfold loadPackages at h
    by_cases hmem : package ∈ loaded
    · rw [if_pos hmem] at h
      obtain ⟨hafter, hloaded, hall⟩ := ih hrest hunderway h
      exact ⟨hafter, hloaded, List.cons_subset.2 ⟨hloaded hmem, hall⟩⟩
    · rw [if_neg hmem] at h
      obtain ⟨further, between, hload, h⟩ := exists_between_of_bind h
      obtain ⟨ds, hds, hadded⟩ := loadPackage_eq_ok hsteady hunderway.sound hload
      obtain ⟨hafter, hloaded, hall⟩ := ih hrest (hunderway.added hneeded hds hadded) h
      obtain ⟨hpackage, hloaded⟩ := List.cons_subset.1 hloaded
      exact ⟨hafter, hloaded, List.cons_subset.2 ⟨hpackage, hall⟩⟩

/-- A round that goes on loads the package of the first request whose package is not loaded. -/
theorem exists_of_round {more : List String} {rest : List Request}
    (h : round ctx loaded queue loading = .ok (some (more, rest)) after) :
    ∃ front request others further, queue = front ++ request :: others ∧
      (∀ asked ∈ front, asked.target ∈ loading.graph.targets) ∧
      request.target.package ∉ loaded ∧
      loadPackage ctx request.target.package (some request) loading = .ok further after ∧
      request.target ∈ after.graph.targets ∧
      more = request.target.package :: loaded ∧ rest = others ++ further := by
  obtain ⟨waiting, between, hanswered, h⟩ := exists_between_of_bind h
  obtain ⟨rfl, front, hqueue, hfront, hnext⟩ := answerLoaded_eq_ok hanswered
  cases waiting with
  | nil => cases h
  | cons request others =>
    obtain ⟨further, between, hload, h⟩ := exists_between_of_bind h
    obtain ⟨⟨⟩, answered, hanswer, h⟩ := exists_between_of_bind h
    obtain ⟨rfl, hthere⟩ := answer_eq_ok hanswer
    cases h
    exact ⟨front, request, others, further, hqueue, hfront, hnext request rfl, hload, hthere, rfl,
      rfl⟩

/-- When no request is left whose package is not loaded, all of them are answered. -/
theorem answered_of_answerLoaded (h : answerLoaded loaded queue loading = .ok [] after) :
    loading = after ∧ ∀ request ∈ queue, request.target ∈ after.graph.targets := by
  obtain ⟨rfl, front, hqueue, hfront, -⟩ := answerLoaded_eq_ok h
  rw [hqueue, List.append_nil]
  exact ⟨rfl, hfront⟩

/-- The last round finds the targets of all requests in the graph. -/
theorem answered_of_round (h : round ctx loaded queue loading = .ok none after) :
    loading = after ∧ ∀ request ∈ queue, request.target ∈ after.graph.targets := by
  obtain ⟨waiting, between, hanswered, h⟩ := exists_between_of_bind h
  cases waiting with
  | nil =>
    cases h
    exact answered_of_answerLoaded hanswered
  | cons request others =>
    obtain ⟨further, between, -, h⟩ := exists_between_of_bind h
    obtain ⟨⟨⟩, answered, -, h⟩ := exists_between_of_bind h
    cases h

/-- After a round that goes on, every request has its target in the graph or waits. -/
theorem waits_of_mem {front others further : List Request} {request asked : Request} {g : Graph}
    (hfront : ∀ asked ∈ front, asked.target ∈ g.targets) (hthere : request.target ∈ g.targets)
    (hasked : asked ∈ front ++ request :: others) :
    asked.target ∈ g.targets ∨ asked ∈ others ++ further := by
  rcases List.mem_append.1 hasked with hfirst | hasked
  · exact .inl (hfront asked hfirst)
  · rcases List.mem_cons.1 hasked with rfl | hother
    · exact .inl hthere
    · exact .inr (List.mem_append_left _ hother)

/-- The work as rounds, until all requests are for targets in the graph. -/
inductive Rounds (ctx : Context) : List String → List Request → Loading → Loading → Prop
  | answered {loaded : List String} {queue : List Request} {loading : Loading}
    (h : ∀ request ∈ queue, request.target ∈ loading.graph.targets) :
    Rounds ctx loaded queue loading loading
  | again {loaded more : List String} {queue rest : List Request} {loading next after : Loading}
    (hround : round ctx loaded queue loading = .ok (some (more, rest)) next)
    (h : Rounds ctx more rest next after) : Rounds ctx loaded queue loading after

/-- Some rounds, and then those that work off what they leave to do. -/
theorem Rounds.of_rounds {fuel : Nat} {left : Option (List String × List Request)} {next : Loading}
    (h : rounds ctx fuel loaded queue loading = .ok left next) (hnone : left = none → next = after)
    (hsome : ∀ more rest, left = some (more, rest) → Rounds ctx more rest next after) :
    Rounds ctx loaded queue loading after := by
  induction fuel generalizing loaded queue loading with
  | zero =>
    cases h
    exact hsome loaded queue rfl
  | succ fuel ih =>
    obtain ⟨answer, between, hround, h⟩ := exists_between_of_bind h
    cases answer with
    | none =>
      cases h
      obtain rfl := hnone rfl
      obtain ⟨rfl, hanswered⟩ := answered_of_round hround
      exact .answered hanswered
    | some asked =>
      obtain ⟨more, rest⟩ := asked
      exact .again hround (ih h)

theorem rounds_of_work {replies : Nat} (h : work ctx replies loaded queue loading = .ok () after) :
    Rounds ctx loaded queue loading after := by
  induction replies generalizing loaded queue loading with
  | zero =>
    unfold work at h
    replace h := of_get_bind h
    obtain ⟨left, between, hrounds, h⟩ := exists_between_of_bind h
    cases left with
    | none =>
      cases h
      apply Rounds.of_rounds hrounds
      · exact fun _ => rfl
      · rintro _ _ ⟨⟩
    | some asked => cases h
  | succ replies ih =>
    unfold work at h
    replace h := of_get_bind h
    obtain ⟨left, between, hrounds, h⟩ := exists_between_of_bind h
    cases left with
    | none =>
      cases h
      apply Rounds.of_rounds hrounds
      · exact fun _ => rfl
      · rintro _ _ ⟨⟩
    | some asked =>
      apply Rounds.of_rounds hrounds
      · rintro ⟨⟩
      · rintro more rest ⟨⟩
        exact ih h

/-- What a round that goes on does: it loads one more package, for a request, and the other requests
wait or are for targets in the graph. -/
structure Served (ctx : Context) (start : Session) (roots : List Target) (packages : List String)
    (loaded : List String) (queue : List Request) (loading : Loading) (more : List String)
    (rest : List Request) (next : Loading) : Prop where
  underway : Underway ctx start roots packages more rest next
  loads : ∃ t ds, ctx.Asks start.disk.files roots packages t ∧ t.package ∉ loaded ∧
    more = t.package :: loaded ∧ ctx.Describes start.disk.files t.package ds
  waiting : ∀ request ∈ queue, request.target ∈ next.graph.targets ∨ request ∈ rest
  grows : loading.graph.targets ⊆ next.graph.targets

theorem Underway.served (hsteady : ctx.Steady start)
    (h : Underway ctx start roots packages loaded queue loading) {more : List String}
    {rest : List Request}
    (hround : round ctx loaded queue loading = .ok (some (more, rest)) after) :
    Served ctx start roots packages loaded queue loading more rest after := by
  obtain ⟨front, request, others, further, rfl, hfront, hnew, hload, hthere, rfl, rfl⟩ :=
    exists_of_round hround
  replace h := h.dequeueAll hfront
  have hasked := h.queue_asked request List.mem_cons_self
  obtain ⟨ds, hds, hadded⟩ := loadPackage_eq_ok hsteady h.sound hload
  have hafter := h.added hasked.needs hds hadded
  rw [List.cons_append] at hafter
  exact ⟨hafter.dequeue hthere, ⟨request.target, ds, hasked, hnew, rfl, hds⟩,
    fun asked => waits_of_mem (fun first hfirst => hadded.grows (hfront first hfirst)) hthere,
    hadded.grows⟩

/-- When all requests are answered, nothing is left to do. -/
theorem Underway.drained (h : Underway ctx start roots packages loaded queue loading)
    (hanswered : ∀ request ∈ queue, request.target ∈ loading.graph.targets) :
    Underway ctx start roots packages loaded [] loading := by
  rw [← List.append_nil queue] at h
  exact h.dequeueAll hanswered

/-- The work ends with an empty queue, and then the targets of all requests are in the graph. -/
theorem work_eq_ok (hsteady : ctx.Steady start) {replies : Nat}
    (hunderway : Underway ctx start roots packages loaded queue loading)
    (h : work ctx replies loaded queue loading = .ok () after) :
    ∃ all, Underway ctx start roots packages all [] after ∧ loaded ⊆ all ∧
      loading.graph.targets ⊆ after.graph.targets ∧
      ∀ request ∈ queue, request.target ∈ after.graph.targets := by
  replace h := rounds_of_work h
  induction h with
  | @answered loaded queue loading hanswered =>
    exact ⟨loaded, hunderway.drained hanswered, List.Subset.refl loaded, List.Subset.refl _,
      hanswered⟩
  | again hround _ ih =>
    have hserved := hunderway.served hsteady hround
    obtain ⟨all, hall, hmore, hgrows, hrest⟩ := ih hserved.underway
    obtain ⟨t, ds, -, -, rfl, -⟩ := hserved.loads
    refine ⟨all, hall, (List.cons_subset.1 hmore).2, List.Subset.trans hserved.grows hgrows, ?_⟩
    intro request hrequest
    rcases hserved.waiting request hrequest with hthere | hwaits
    · exact hgrows hthere
    · exact hrest request hwaits

end Loading

/-- The graph holds what a selection of roots and packages leads to: the targets of all packages
that it needs, each with the node that the files declare. -/
structure Graph.Holds (g : Graph) (ctx : Context) (files : FileTree) (roots : List Target)
    (packages : List String) : Prop where
  declares : ∀ node ∈ g.nodes, ctx.Declares files node
  mem_targets : ∀ t, t ∈ g.targets ↔ ∃ package ds, ctx.Needs files roots packages package ∧
    ctx.Describes files package ds ∧ ∃ d ∈ ds, d.target = t
  roots : roots ⊆ g.targets
  closed : ∀ node ∈ g.nodes, node.dependencies ⊆ g.targets

namespace Loading

open Stateful

variable {start : Session} {roots : List Target} {packages : List String} {after : Loading}

/-- A needed package is loaded in the end: whatever asks for it is. -/
theorem Underway.mem_of_needs {loaded : List String} {loading : Loading}
    (h : Underway ctx start roots packages loaded [] loading) (hpackages : packages ⊆ loaded)
    (hroots : ∀ root ∈ roots, root.package ∈ loaded) {package : String}
    (hneeded : ctx.Needs start.disk.files roots packages package) : package ∈ loaded := by
  induction hneeded with
  | package hmem => exact hpackages hmem
  | root hmem => exact hroots _ hmem
  | @dependency package ds d node dependency _ hds hd hreads hdependency ih =>
    have htarget : d.target ∈ loading.graph.targets :=
      (h.mem_targets d.target).2 ⟨package, ih, ds, hds, d, hd, rfl⟩
    obtain ⟨found, hfound, hsame⟩ := Graph.mem_targets.1 htarget
    have hunique := (h.sound.declares found hfound).unique (hreads.declares hds hd)
      (hsame.trans hreads.target.symm)
    rcases h.pending found hfound dependency (hunique ▸ hdependency) with hthere | ⟨_, hnone, _⟩
    · exact h.package_mem hthere
    · exact absurd hnone List.not_mem_nil

/-- Nothing has been loaded yet. -/
theorem underway_empty (ctx : Context) (start : Session) (roots : List Target)
    (packages : List String) : Underway ctx start roots packages [] [] ⟨.empty, start⟩ := by
  refine ⟨⟨.refl ctx start, ?_⟩, ?_, ?_, ?_, ?_⟩ <;> simp [Graph.empty, Graph.targets]

/-- Once the requested packages are loaded on a fresh graph, the roots join the queue. -/
theorem underway_of_loadPackages (hsteady : ctx.Steady start) {loaded : List String}
    {queue : List Request}
    (h : loadPackages ctx packages [] [] ⟨.empty, start⟩ = .ok (loaded, queue) after) :
    Underway ctx start roots packages loaded (queue ++ roots.map fun root => ⟨none, root⟩) after ∧
      packages ⊆ loaded := by
  obtain ⟨hafter, -, hrequested⟩ := loadPackages_eq_ok hsteady
    (fun package hpackage => .package hpackage) (underway_empty ctx start roots packages) h
  refine ⟨⟨hafter.sound, hafter.loaded_needed, ?_, hafter.mem_targets, ?_⟩, hrequested⟩
  · intro request hrequest
    rcases List.mem_append.1 hrequest with hold | hroot
    · exact hafter.queue_asked request hold
    · obtain ⟨root, hmem, rfl⟩ := List.mem_map.1 hroot
      exact .root hmem
  · intro node hnode dependency hdependency
    refine (hafter.pending node hnode dependency hdependency).imp_right ?_
    rintro ⟨request, hrequest, htarget⟩
    exact ⟨request, List.mem_append_left _ hrequest, htarget⟩

/-- A load that succeeds on a fresh graph loads what the selection leads to. -/
theorem load_eq_ok (hsteady : ctx.Steady start)
    (h : load ctx roots packages ⟨.empty, start⟩ = .ok () after) :
    after.graph.Holds ctx start.disk.files roots packages := by
  obtain ⟨⟨loaded, queue⟩, between, hpackages, h⟩ := exists_between_of_bind h
  replace h := of_get_bind h
  obtain ⟨hqueue, hrequested⟩ := underway_of_loadPackages hsteady hpackages
  obtain ⟨all, hall, hloaded, -, hanswered⟩ := work_eq_ok hsteady hqueue h
  have hroots : roots ⊆ after.graph.targets := by
    intro root hroot
    exact hanswered ⟨none, root⟩ (List.mem_append_right _ (List.mem_map_of_mem hroot))
  -- the queue is empty at the end, so no dependency can be pending
  have hclosed : ∀ node ∈ after.graph.nodes, node.dependencies ⊆ after.graph.targets := by
    intro node hnode dependency hdependency
    rcases hall.pending node hnode dependency hdependency with hthere | ⟨_, hnone, _⟩
    · exact hthere
    · exact absurd hnone List.not_mem_nil
  refine ⟨hall.sound.declares, fun t => ?_, hroots, hclosed⟩
  rw [hall.mem_targets]
  constructor
  · rintro ⟨package, hpackage, ds, hds, hd⟩
    exact ⟨package, ds, hall.loaded_needed package hpackage, hds, hd⟩
  · rintro ⟨package, ds, hneeded, hds, hd⟩
    have hpackages := List.Subset.trans hrequested hloaded
    have hpackage := hall.mem_of_needs hpackages (fun root hroot => hall.package_mem (hroots hroot))
      hneeded
    exact ⟨package, hpackage, ds, hds, hd⟩

end Loading

end Makewright
