import Makewright.Proofs.Generation.Contribution
import Makewright.Proofs.Graph.History
import Makewright.Proofs.Graph.Moves

/-!
# Loading into a graph that has been used

A load that succeeds finds its roots and the targets of the packages that it is asked for, and it
follows the dependencies of every target that it adds. It leaves alone what is in the graph already,
and takes it that the dependencies of these targets have been followed before. That is so for the
targets of earlier loads that succeeded. The targets of a load that failed halfway, and those that
were added one at a time, have nobody who follows their dependencies (`strays`), and a load that
meets them does not do it either (`load_misses_dependency`).

So what a load guarantees holds along the paths of dependencies that do not lead on from a stray
target (`load_reaches`). The invariant that all calls keep is that the dependencies of every target
that is not stray are in the graph (`attended_after`).
-/

set_option autoImplicit false

namespace Makewright.Loading

open Relation Stateful

variable {ctx : Context} {d : Description} {node : Node} {loading later : Loading}
  {stray : List Target} {queue requests : List Request}

/-! ## The queue -/

/-- Every dependency of a target that is not stray is in the graph or waits in the queue. -/
def Attended (stray : List Target) (queue : List Request) (g : Graph) : Prop :=
  ∀ node ∈ g.nodes, node.target ∉ stray → ∀ dependency ∈ node.dependencies,
    dependency ∈ g.targets ∨ ∃ request ∈ queue, request.target = dependency

/-- What a step that adds targets does: nodes stay, and the dependencies of a new one are among the
requests. -/
structure Brings (requests : List Request) (before after : Graph) : Prop where
  grows : before.nodes ⊆ after.nodes
  requested : ∀ node ∈ after.nodes, node ∈ before.nodes ∨
    ∀ dependency ∈ node.dependencies, ∃ request ∈ requests, request.target = dependency

variable {before between after : Graph}

theorem targets_subset (h : before.nodes ⊆ after.nodes) : before.targets ⊆ after.targets :=
  List.map_subset Node.target h

theorem Brings.refl (g : Graph) : Brings [] g g :=
  ⟨List.Subset.refl _, fun _ hnode => .inl hnode⟩

theorem Brings.declare (g : Graph) (node : Node) : Brings (requestsOf node) g (g.declare node) := by
  refine ⟨subset_declare g node, fun other hother => ?_⟩
  refine (mem_of_mem_declare hother).imp_right ?_
  rintro rfl dependency hdependency
  exact ⟨⟨some other.target, dependency⟩, List.mem_map_of_mem hdependency, rfl⟩

theorem Brings.trans {further : List Request} (h : Brings requests before between)
    (hnext : Brings further between after) : Brings (requests ++ further) before after := by
  refine ⟨List.Subset.trans h.grows hnext.grows, fun node hnode => ?_⟩
  rcases hnext.requested node hnode with hold | hnew
  · refine (h.requested node hold).imp_right fun hnew dependency hdependency => ?_
    obtain ⟨request, hrequest, htarget⟩ := hnew dependency hdependency
    exact ⟨request, List.mem_append_left _ hrequest, htarget⟩
  · refine .inr fun dependency hdependency => ?_
    obtain ⟨request, hrequest, htarget⟩ := hnew dependency hdependency
    exact ⟨request, List.mem_append_right _ hrequest, htarget⟩

/-- The requests of a step join the queue. -/
theorem Attended.brings (h : Attended stray queue before) (hbrings : Brings requests before after) :
    Attended stray (queue ++ requests) after := by
  intro node hnode hstray dependency hdependency
  rcases hbrings.requested node hnode with hold | hnew
  · refine (h node hold hstray dependency hdependency).imp (targets_subset hbrings.grows ·) ?_
    rintro ⟨request, hrequest, htarget⟩
    exact ⟨request, List.mem_append_left _ hrequest, htarget⟩
  · obtain ⟨request, hrequest, htarget⟩ := hnew dependency hdependency
    exact .inr ⟨request, List.mem_append_right _ hrequest, htarget⟩

/-- Requests whose targets are in the graph may leave the queue. -/
theorem Attended.shorten {rest : List Request} {g : Graph} (h : Attended stray queue g)
    (hanswered : ∀ request ∈ queue, request.target ∈ g.targets ∨ request ∈ rest) :
    Attended stray rest g := by
  intro node hnode hstray dependency hdependency
  rcases h node hnode hstray dependency hdependency with hthere | ⟨request, hrequest, rfl⟩
  · exact .inl hthere
  · exact (hanswered request hrequest).imp_right fun hwaits => ⟨request, hwaits, rfl⟩

/-! ## What is found in the end -/

theorem Lasting.and {inv other : Loading → Prop} (h : Lasting ctx inv)
    (hother : Lasting ctx other) : Lasting ctx fun loading => inv loading ∧ other loading where
  spares g s after htouches hs :=
    ⟨h.spares g s after htouches hs.1, hother.spares g s after htouches hs.2⟩
  describePackage package := (h.describePackage package).and (hother.describePackage package)
  declare loading node hloading :=
    ⟨h.declare loading node hloading.1, hother.declare loading node hloading.2⟩

/-- What is known of a package stays known. -/
theorem lasting_known (ctx : Context) (package : String) (found : Option (List Description)) :
    Lasting ctx fun loading => loading.session.packages.lookup package = some found where
  spares g s after htouches hs := by
    cases htouches <;> exact hs
  describePackage other := by
    refine inPass_keeps fun _ => .get_bind fun s hs => .bind (Pass.lift_leads ?_ hs)
    rintro ⟨answer, packages⟩ hload
    exact .bind (.modify (.pure ((BuildFile.remembers_of_load hload).2 package found hs)))
  declare loading node hloading := hloading

/-- The package is known to hold the descriptions, and their targets are in the graph. -/
def Supplies (package : String) (ds : List Description) (loading : Loading) : Prop :=
  loading.session.packages.lookup package = some (some ds) ∧
    ∀ d ∈ ds, d.target ∈ loading.graph.targets

/-- The package has a build file, and the targets that it describes are in the graph. -/
def Provides (package : String) (loading : Loading) : Prop :=
  ∃ ds, Supplies package ds loading

theorem lasting_supplies (ctx : Context) (package : String) (ds : List Description) :
    Lasting ctx (Supplies package ds) :=
  (lasting_known ctx package (some ds)).and
    (lasting_of_graph (fun g => ∀ d ∈ ds, d.target ∈ g.targets)
      fun g node hg d hd => targets_subset (subset_declare g node) (hg d hd))

/-! ## Steps that add targets -/

theorem graph_of_readNode (h : readNode ctx d loading = .ok node later) :
    later.graph = loading.graph := by
  have hspares : Spares ctx fun l => l.graph = loading.graph := fun _ _ _ _ hg => hg
  exact (readNode_keeps hspares d loading rfl).ok h

/-- The node that is added has the target of the description, which is new to the graph. -/
theorem graph_of_add (h : add ctx d loading = .ok node later) :
    node.target = d.target ∧ node.target ∉ loading.graph.targets ∧
      later.graph = loading.graph.declare node := by
  obtain ⟨hnew, level, reporter, text, between, session, hread, -, rfl⟩ := exists_of_add h
  have htarget := (isReadFrom_of_readNode hread).follows.target
  rw [← graph_of_readNode hread]
  rw [← graph_of_readNode hread, ← htarget] at hnew
  exact ⟨htarget, hnew, rfl⟩

theorem brings_of_add (h : add ctx d loading = .ok node later) :
    Brings (requestsOf node) loading.graph later.graph ∧ d.target ∈ later.graph.targets := by
  obtain ⟨htarget, hnew, hgraph⟩ := graph_of_add h
  rw [hgraph]
  exact ⟨.declare loading.graph node, Graph.mem_targets.2 ⟨node, mem_declare hnew, htarget⟩⟩

theorem brings_of_addAll {ds : List Description} (h : addAll ctx ds loading = .ok requests later) :
    Brings requests loading.graph later.graph ∧ ∀ d ∈ ds, d.target ∈ later.graph.targets := by
  induction ds generalizing loading requests with
  | nil =>
    cases h
    exact ⟨.refl _, by simp⟩
  | cons d rest ih =>
    unfold addAll at h
    replace h := of_get_bind h
    split_ifs at h with hcontains
    · obtain ⟨hbrings, hall⟩ := ih h
      have hthere := targets_subset hbrings.grows (contains_iff.1 hcontains)
      exact ⟨hbrings, List.forall_mem_cons.2 ⟨hthere, hall⟩⟩
    · obtain ⟨node, between, hadd, h⟩ := exists_between_of_bind h
      obtain ⟨further, last, hfurther, h⟩ := exists_between_of_bind h
      cases h
      obtain ⟨hfirst, hthere⟩ := brings_of_add hadd
      obtain ⟨hbrings, hall⟩ := ih hfurther
      exact ⟨hfirst.trans hbrings,
        List.forall_mem_cons.2 ⟨targets_subset hbrings.grows hthere, hall⟩⟩

theorem known_of_describePackage {package : String} {found : Option (List Description)}
    (h : describePackage ctx package loading = .ok found later) :
    later.graph = loading.graph ∧ later.session.packages.lookup package = some found := by
  obtain ⟨hgraph, hload⟩ := graph_of_describePackage h
  exact ⟨hgraph, (BuildFile.remembers_of_load hload).1⟩

theorem brings_of_loadPackage {package : String} {wanted : Option Request}
    (h : loadPackage ctx package wanted loading = .ok requests later) :
    Brings requests loading.graph later.graph ∧ Provides package later := by
  obtain ⟨ds, level, reporter, text, between, session, hfound, hreport, h⟩ :=
    exists_of_loadPackage h
  obtain ⟨hgraph, hknown⟩ := known_of_describePackage hfound
  have hlasting := lasting_known ctx package (some ds)
  have hreported := (report_keeps hlasting.spares level reporter text between hknown).ok hreport
  obtain ⟨hbrings, hall⟩ := brings_of_addAll h
  rw [← hgraph]
  exact ⟨hbrings, ds, (hlasting.addAll ds _ hreported).ok h, hall⟩

/-! ## A load that succeeds -/

variable {loaded packages : List String} {roots : List Target}

theorem attended_of_loadPackages {answer : List String × List Request}
    (hattended : Attended stray queue loading.graph)
    (hprovided : ∀ package ∈ loaded, Provides package loading)
    (h : loadPackages ctx packages loaded queue loading = .ok answer later) :
    Attended stray answer.2 later.graph ∧ (∀ package ∈ loaded, Provides package later) ∧
      ∀ package ∈ packages, Provides package later := by
  induction packages generalizing loaded queue loading with
  | nil =>
    cases h
    exact ⟨hattended, hprovided, by simp⟩
  | cons package rest ih =>
    unfold loadPackages at h
    split_ifs at h with hthere
    · obtain ⟨hafter, hloaded, hrest⟩ := ih hattended hprovided h
      exact ⟨hafter, hloaded, List.forall_mem_cons.2 ⟨hloaded package hthere, hrest⟩⟩
    · obtain ⟨further, between, hload, h⟩ := exists_between_of_bind h
      obtain ⟨hbrings, hprovides⟩ := brings_of_loadPackage hload
      have hbetween : ∀ other ∈ package :: loaded, Provides other between := by
        refine List.forall_mem_cons.2 ⟨hprovides, fun other hother => ?_⟩
        obtain ⟨ds, hds⟩ := hprovided other hother
        exact ⟨ds, ((lasting_supplies ctx other ds).loadPackage package none loading hds).ok hload⟩
      obtain ⟨hafter, hmore, hrest⟩ := ih (hattended.brings hbrings) hbetween h
      obtain ⟨hpackage, hloaded⟩ := List.forall_mem_cons.1 hmore
      exact ⟨hafter, hloaded, List.forall_mem_cons.2 ⟨hpackage, hrest⟩⟩

/-- A round that goes on leaves requests waiting, or else their targets are in the graph. -/
theorem attended_of_round {more : List String} {rest : List Request}
    (hattended : Attended stray queue loading.graph)
    (h : round ctx loaded queue loading = .ok (some (more, rest)) later) :
    Attended stray rest later.graph ∧ loading.graph.nodes ⊆ later.graph.nodes ∧
      ∀ request ∈ queue, request.target ∈ later.graph.targets ∨ request ∈ rest := by
  obtain ⟨front, request, others, further, rfl, hfront, -, hload, hthere, -, rfl⟩ :=
    exists_of_round h
  obtain ⟨hbrings, -⟩ := brings_of_loadPackage hload
  have hwaiting : ∀ asked ∈ front ++ request :: others,
      asked.target ∈ later.graph.targets ∨ asked ∈ others ++ further := fun asked =>
    waits_of_mem (fun first hfirst => targets_subset hbrings.grows (hfront first hfirst)) hthere
  refine ⟨(hattended.brings hbrings).shorten fun asked hasked => ?_, hbrings.grows, hwaiting⟩
  rcases List.mem_append.1 hasked with hold | hnew
  · exact hwaiting asked hold
  · exact .inr (List.mem_append_right _ hnew)

theorem Attended.drained {g : Graph} (h : Attended stray queue g)
    (hanswered : ∀ request ∈ queue, request.target ∈ g.targets) : Attended stray [] g :=
  h.shorten fun request hrequest => .inl (hanswered request hrequest)

/-- The work ends when no requests are left. -/
theorem attended_of_work {replies : Nat} (hattended : Attended stray queue loading.graph)
    (h : work ctx replies loaded queue loading = .ok () later) :
    Attended stray [] later.graph ∧ loading.graph.nodes ⊆ later.graph.nodes ∧
      ∀ request ∈ queue, request.target ∈ later.graph.targets := by
  replace h := rounds_of_work h
  induction h with
  | answered hanswered => exact ⟨hattended.drained hanswered, List.Subset.refl _, hanswered⟩
  | again hround _ ih =>
    obtain ⟨hbetween, hgrows, hwaiting⟩ := attended_of_round hattended hround
    obtain ⟨hafter, hmore, hrest⟩ := ih hbetween
    refine ⟨hafter, List.Subset.trans hgrows hmore, fun request hrequest => ?_⟩
    rcases hwaiting request hrequest with hthere | hwaits
    · exact targets_subset hmore hthere
    · exact hrest request hwaits

/-- What a load guarantees that succeeds, if the dependencies of every target are in the graph that
is not stray: that this is so afterwards, and that the roots and the targets of the packages are in
the graph. -/
theorem attended_of_load (hattended : Attended stray [] loading.graph)
    (h : load ctx roots packages loading = .ok () later) :
    Attended stray [] later.graph ∧ roots ⊆ later.graph.targets ∧
      ∀ package ∈ packages, Provides package later := by
  obtain ⟨⟨loaded, queue⟩, between, hpackages, h⟩ := exists_between_of_bind h
  replace h := of_get_bind h
  obtain ⟨hbetween, -, hprovided⟩ := attended_of_loadPackages hattended (by simp) hpackages
  have hqueue : Attended stray (queue ++ roots.map fun root => ⟨none, root⟩) between.graph :=
    hbetween.shorten fun request hrequest => .inr (List.mem_append_left _ hrequest)
  obtain ⟨hafter, -, hanswered⟩ := attended_of_work hqueue h
  refine ⟨hafter, fun root hroot => ?_, fun package hpackage => ?_⟩
  · exact hanswered ⟨none, root⟩ (List.mem_append_right _ (List.mem_map_of_mem hroot))
  · obtain ⟨ds, hds⟩ := hprovided package hpackage
    exact ⟨ds, ((lasting_supplies ctx package ds).work _ loaded _ between hds).ok h⟩

/-! ## Histories -/

/-- The targets that a call leaves in the graph without following their dependencies: all that it
has added, unless it is a load that succeeds. -/
def Call.leaves (ctx : Context) (call : Call) (loading : Loading) : List Target :=
  let added := (stateAfter (call.run ctx) loading).graph.targets.filter (· ∉ loading.graph.targets)
  match call with
  | .load roots packages => if answers (Loading.load ctx roots packages) loading then [] else added
  | _ => added

/-- The targets that some calls leave in the graph without following their dependencies. -/
def strays (ctx : Context) : List Call → Loading → List Target
  | [], _ => []
  | call :: rest, loading =>
    call.leaves ctx loading ++ strays ctx rest (stateAfter (call.run ctx) loading)

/-- The nodes of the graph stay whatever is done with it. -/
theorem Call.nodes_subset (ctx : Context) (call : Call) (loading : Loading) :
    loading.graph.nodes ⊆ (stateAfter (call.run ctx) loading).graph.nodes := by
  have hkeeps : Keeps (fun l => loading.graph.nodes ⊆ l.graph.nodes) (call.run ctx) :=
    call.run_keeps (loading.graph.nodes ⊆ ·.nodes)
      (fun g node hg => List.Subset.trans hg (subset_declare g node))
      (fun g hg => g.nodes_resolve.symm ▸ hg) fun g t hg => (g.nodes_dependenciesOf t).symm ▸ hg
  exact hkeeps.stateAfter (List.Subset.refl _)

/-- A graph that grows is attended to if what is new counts as stray. -/
theorem Attended.of_grown (h : Attended stray [] before) (hgrows : before.nodes ⊆ after.nodes) :
    Attended (stray ++ after.targets.filter (· ∉ before.targets)) [] after := by
  intro node hnode hstray dependency hdependency
  rw [List.mem_append, not_or] at hstray
  -- what is not stray was there before, and with the same node
  have hold : node.target ∈ before.targets := by
    by_contra hnew
    exact hstray.2 (List.mem_filter.2
      ⟨Graph.mem_targets.2 ⟨node, hnode, rfl⟩, decide_eq_true hnew⟩)
  obtain ⟨same, hsame, htarget⟩ := Graph.mem_targets.1 hold
  obtain rfl := Graph.eq_of_target_eq (hgrows hsame) hnode htarget
  exact (h same hsame hstray.1 dependency hdependency).imp_left (targets_subset hgrows ·)

/-- What a call adds is stray or, if the call is a load that succeeds, attended to. -/
theorem Call.attended (call : Call) (h : Attended stray [] loading.graph) :
    Attended (stray ++ call.leaves ctx loading) []
      (stateAfter (call.run ctx) loading).graph := by
  have hgrown := h.of_grown (call.nodes_subset ctx loading)
  cases call with
  | load roots packages =>
    unfold leaves
    dsimp only
    split_ifs with hanswers
    -- a load that succeeds leaves nothing stray behind
    · obtain ⟨⟨⟩, later, hload⟩ := exists_of_answers hanswers
      have hlater : stateAfter ((Call.load roots packages).run ctx) loading = later :=
        stateAfter_of_ok hload
      rw [List.append_nil, hlater]
      exact (attended_of_load h hload).1
    · exact hgrown
  | add d => exact hgrown
  | resolve => exact hgrown
  | ask target => exact hgrown
  | turn session => exact hgrown

/-- Whatever is done with a graph, the dependencies of all targets that are not stray are in it. -/
theorem attended_after (calls : List Call) (h : Attended stray [] loading.graph) :
    Attended (stray ++ strays ctx calls loading) [] (Loading.after ctx calls loading).graph := by
  induction calls generalizing stray loading with
  | nil => simpa [strays, Loading.after] using h
  | cons call rest ih =>
    rw [strays, ← List.append_assoc]
    exact ih (call.attended h)

/-! ## Results -/

/-- The target `a` depends on `b`, and it is not one of the stray targets. -/
def Follows (stray : List Target) (g : Graph) (a b : Target) : Prop :=
  a ∉ stray ∧ g.DependsOn a b

/-- A load that succeeds, whatever has been done with the graph before, finds its roots and the
targets of the packages that it is asked for. All that is reached from a target of the graph is in
the graph, along paths that do not lead on from a target that was added alone or by a load that
failed. -/
theorem load_reaches (ctx : Context) (session : Session) (calls : List Call)
    (h : load ctx roots packages (Loading.after ctx calls ⟨.empty, session⟩) = .ok () later) :
    roots ⊆ later.graph.targets ∧ (∀ package ∈ packages, Provides package later) ∧
      ∀ t ∈ later.graph.targets, ∀ u,
        ReflTransGen (Follows (strays ctx calls ⟨.empty, session⟩) later.graph) t u →
          u ∈ later.graph.targets := by
  have hempty : Attended [] [] Graph.empty := fun node hnode => absurd hnode List.not_mem_nil
  have hbefore : Attended ([] ++ strays ctx calls ⟨.empty, session⟩) []
      (Loading.after ctx calls ⟨.empty, session⟩).graph := attended_after calls hempty
  rw [List.nil_append] at hbefore
  obtain ⟨hafter, hroots, hpackages⟩ := attended_of_load hbefore h
  refine ⟨hroots, hpackages, fun t ht u hpath => ?_⟩
  induction hpath with
  | refl => exact ht
  | tail _ hstep _ =>
    obtain ⟨hstray, node, hnode, rfl, hdependency⟩ := hstep
    exact (hafter node hnode hstray _ hdependency).resolve_right (by simp)

/-- The workspace of the sample with one more package, whose library depends on a package that has
no build file. -/
def gappyDisk : Disk :=
  ⟨⟨Context.sampleDisk.files.entries ++ [(["work", "gappy"], .directory),
    (["work", "gappy", "BUILD.toml"], .file ("[[targets]]\nkind = 'cc_library'\n" ++
      "name = 'part'\nsources = ['part.c']\ndependencies = ['//gone:part']\n"))]⟩, []⟩

/-- A session in which the library with the gap is loaded first, which fails. -/
def gappyCalls : List Call := [.load [⟨"gappy", "part"⟩] []]

/-- After a load that has failed, the executable is loaded together with the library that it depends
on. The library with the gap stays behind. -/
theorem load_reaches_sample :
    ∃ later, strays sampleContext gappyCalls ⟨.empty, .new gappyDisk []⟩ = [⟨"gappy", "part"⟩] ∧
      load sampleContext [⟨"", "draw"⟩] []
        (Loading.after sampleContext gappyCalls ⟨.empty, .new gappyDisk []⟩) = .ok () later ∧
      later.graph.targets = [⟨"gappy", "part"⟩, ⟨"", "draw"⟩, ⟨"shapes", "area"⟩] ∧
      later.graph.DependsOn ⟨"", "draw"⟩ ⟨"shapes", "area"⟩ ∧
      ⟨"shapes", "area"⟩ ∈ later.graph.targets := by
  have hstrays : strays sampleContext gappyCalls ⟨.empty, .new gappyDisk []⟩ =
      [⟨"gappy", "part"⟩] := by decide +kernel
  have hchecked : passes (load sampleContext [⟨"", "draw"⟩] [])
      (Loading.after sampleContext gappyCalls ⟨.empty, .new gappyDisk []⟩) (fun later =>
        decide (later.graph.targets = [⟨"gappy", "part"⟩, ⟨"", "draw"⟩, ⟨"shapes", "area"⟩] ∧
          ∃ node ∈ later.graph.nodes, node.target = ⟨"", "draw"⟩ ∧
            ⟨"shapes", "area"⟩ ∈ node.dependencies)) = true := by
    decide +kernel
  obtain ⟨⟨⟩, later, hload, hpassed⟩ := exists_of_passes hchecked
  obtain ⟨htargets, hdepends⟩ := of_decide_eq_true hpassed
  obtain ⟨hroots, -, hreached⟩ := load_reaches sampleContext (.new gappyDisk []) gappyCalls hload
  refine ⟨later, hstrays, hload, htargets, hdepends, ?_⟩
  refine hreached ⟨"", "draw"⟩ (hroots List.mem_cons_self) _ (.single ⟨?_, hdepends⟩)
  rw [hstrays]
  decide

/-- The library with the gap is loaded again, which succeeds, though what it depends on is not
there. -/
theorem load_misses_dependency :
    ∃ later, load sampleContext [⟨"gappy", "part"⟩] []
        (Loading.after sampleContext gappyCalls ⟨.empty, .new gappyDisk []⟩) = .ok () later ∧
      later.graph.DependsOn ⟨"gappy", "part"⟩ ⟨"gone", "part"⟩ ∧
      ⟨"gone", "part"⟩ ∉ later.graph.targets := by
  have hchecked : passes (load sampleContext [⟨"gappy", "part"⟩] [])
      (Loading.after sampleContext gappyCalls ⟨.empty, .new gappyDisk []⟩) (fun later =>
        decide ((∃ node ∈ later.graph.nodes, node.target = ⟨"gappy", "part"⟩ ∧
          ⟨"gone", "part"⟩ ∈ node.dependencies) ∧
            ⟨"gone", "part"⟩ ∉ later.graph.targets)) = true := by
    decide +kernel
  obtain ⟨⟨⟩, later, hload, hpassed⟩ := exists_of_passes hchecked
  obtain ⟨hdepends, hmissing⟩ := of_decide_eq_true hpassed
  exact ⟨later, hload, hdepends, hmissing⟩

end Makewright.Loading
