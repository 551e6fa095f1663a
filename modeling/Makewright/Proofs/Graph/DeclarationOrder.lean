import Makewright.Proofs.Graph.Reload
import Makewright.Proofs.Meeting

/-!
# The order in which targets are declared

A load works packages off from the front of a queue, and the targets of a package stand together
behind those of the packages that were loaded before (`Stacked`). So the order of the targets is
that in which packages have joined the queue: the requested packages, what their targets depend on,
the packages of the roots, and then what all other targets depend on (`Loading.asked` and
`Loading.load_follows_requests`).

In this order a package that only a dependency names comes in front of the packages of the roots if
the dependency is one of a requested package.
-/

set_option autoImplicit false

namespace Makewright

/-- What is known of packages has been read from their build files. -/
def Context.Informed (ctx : Context) (s : Session) : Prop :=
  ∀ package found, s.packages.lookup package = some found →
    ∃ files, BuildFile.read files ctx.workspace.root package = .ok found

namespace Loading

open Stateful

variable {ctx : Context} {d : Description} {node : Node} {loading later : Loading}
  {package : String} {loaded packages : List String} {roots : List Target}
  {queue requests : List Request}

theorem lasting_informed (ctx : Context) :
    Lasting ctx fun loading => ctx.Informed loading.session where
  spares g s after htouches hs := by
    cases htouches <;> exact hs
  describePackage package := by
    refine inPass_keeps fun _ => .get_bind fun s hs => .bind (Pass.lift_leads ?_ hs)
    rintro ⟨found, known⟩ hload
    refine .bind (.modify (.pure ?_))
    rcases BuildFile.load_eq_ok hload with ⟨-, rfl⟩ | ⟨hread, rfl⟩
    · exact hs
    · intro other answer hanswer
      rw [List.lookup_cons] at hanswer
      by_cases hsame : other = package
      · rw [hsame, beq_self_eq_true] at hanswer
        cases hanswer
        exact ⟨_, hsame ▸ hread⟩
      · rw [beq_false_of_ne hsame] at hanswer
        exact hs other answer hanswer
  declare loading node hloading := hloading

/-! ## The targets that a package adds -/

theorem nodes_of_add (h : add ctx d loading = .ok node later) :
    later.graph.nodes = loading.graph.nodes ++ [node] ∧ node.target = d.target := by
  obtain ⟨htarget, hnew, hgraph⟩ := graph_of_add h
  rw [hgraph, Graph.declare, dif_neg hnew]
  exact ⟨rfl, htarget⟩

/-- The targets of a package are put behind those of the graph, and their dependencies are asked
for in their order. -/
theorem exists_of_addAll {ds : List Description} (hds : ∀ d ∈ ds, d.target.package = package)
    (h : addAll ctx ds loading = .ok requests later) :
    ∃ more, later.graph.nodes = loading.graph.nodes ++ more ∧
      requests = more.flatMap requestsOf ∧ ∀ node ∈ more, node.target.package = package := by
  induction ds generalizing loading requests with
  | nil =>
    cases h
    exact ⟨[], by simp, rfl, nofun⟩
  | cons d rest ih =>
    obtain ⟨hd, hrest⟩ := List.forall_mem_cons.1 hds
    unfold addAll at h
    replace h := of_get_bind h
    split_ifs at h
    · exact ih hrest h
    · obtain ⟨node, between, hadd, h⟩ := exists_between_of_bind h
      obtain ⟨further, last, hfurther, h⟩ := exists_between_of_bind h
      cases h
      obtain ⟨hnodes, htarget⟩ := nodes_of_add hadd
      obtain ⟨more, hmore, rfl, hpackage⟩ := ih hrest hfurther
      refine ⟨node :: more, ?_, rfl, List.forall_mem_cons.2 ⟨htarget ▸ hd, hpackage⟩⟩
      rw [hmore, hnodes, List.append_assoc, List.singleton_append]

theorem exists_nodes_of_loadPackage {wanted : Option Request}
    (hinformed : ctx.Informed loading.session)
    (h : loadPackage ctx package wanted loading = .ok requests later) :
    ctx.Informed later.session ∧ ∃ more, later.graph.nodes = loading.graph.nodes ++ more ∧
      requests = more.flatMap requestsOf ∧ ∀ node ∈ more, node.target.package = package := by
  refine ⟨((lasting_informed ctx).loadPackage package wanted loading hinformed).ok h, ?_⟩
  obtain ⟨ds, level, reporter, text, between, session, hfound, hreport, h⟩ :=
    exists_of_loadPackage h
  obtain ⟨hgraph, hknown⟩ := known_of_describePackage hfound
  have hbetween : ctx.Informed between.session :=
    ((lasting_informed ctx).describePackage package loading hinformed).ok hfound
  obtain ⟨files, hread⟩ := hbetween package (some ds) hknown
  rw [← hgraph]
  have hadded := exists_of_addAll (BuildFile.read_spec hread).package_eq h
  exact hadded

/-! ## Packages on top of each other -/

/-- The nodes of the packages that have been loaded, the last one first, each package behind those
that were loaded before it. -/
inductive Stacked : List String → List Node → Prop
  | nil : Stacked [] []
  | load {loaded : List String} {nodes more : List Node} {package : String}
    (h : Stacked loaded nodes) (hnew : package ∉ loaded)
    (hmore : ∀ node ∈ more, node.target.package = package) :
    Stacked (package :: loaded) (nodes ++ more)

namespace Stacked

variable {nodes : List Node} {t u : Target}

theorem package_mem (h : Stacked loaded nodes) : ∀ node ∈ nodes, node.target.package ∈ loaded := by
  induction h with
  | nil => exact nofun
  | load h hnew hmore ih =>
    intro node hnode
    rcases List.mem_append.1 hnode with hold | hlast
    · exact List.mem_cons_of_mem _ (ih node hold)
    · rw [hmore node hlast]
      exact List.mem_cons_self

theorem nodup (h : Stacked loaded nodes) : loaded.Nodup := by
  induction h with
  | nil => exact .nil
  | load h hnew hmore ih => exact List.nodup_cons.2 ⟨hnew, ih⟩

/-- Of two targets, that of the package which was loaded first comes first. -/
theorem sublist (h : Stacked loaded nodes) (ht : t ∈ nodes.map Node.target)
    (hu : u ∈ nodes.map Node.target) (hne : t.package ≠ u.package)
    (hfirst : MeetsFirst loaded.reverse t.package u.package) :
    [t, u].Sublist (nodes.map Node.target) := by
  induction h with
  | nil => cases ht
  | @load loaded nodes more package h hnew hmore ih =>
    have hpackage : ∀ v ∈ more.map Node.target, v.package = package := by
      intro v hv
      obtain ⟨node, hnode, rfl⟩ := List.mem_map.1 hv
      exact hmore node hnode
    have hbelow : ∀ v ∈ nodes.map Node.target, v.package ∈ loaded := by
      intro v hv
      obtain ⟨node, hnode, rfl⟩ := List.mem_map.1 hv
      exact h.package_mem node hnode
    rw [List.map_append] at ht hu ⊢
    rw [List.reverse_cons] at hfirst
    rcases List.mem_append.1 hu with hu | hu
    · -- the package of `u` was loaded before the last one, and so was that of `t`
      have hbefore := hfirst.of_append (List.mem_reverse.2 (hbelow u hu))
      have ht : t ∈ nodes.map Node.target := by
        apply (List.mem_append.1 ht).resolve_right
        intro hlast
        obtain ⟨front, back, hsplit, -⟩ := hbefore
        apply hnew
        rw [← List.mem_reverse, hsplit, ← hpackage t hlast]
        simp
      exact (ih ht hu hbefore).trans (List.sublist_append_left _ _)
    · have ht : t ∈ nodes.map Node.target := by
        apply (List.mem_append.1 ht).resolve_right
        intro hlast
        exact hne ((hpackage t hlast).trans (hpackage u hu).symm)
      have hboth := (List.singleton_sublist.2 ht).append (List.singleton_sublist.2 hu)
      rwa [List.singleton_append] at hboth

end Stacked

/-! ## Packages in the order in which they are asked for -/

/-- The packages that some requests ask for. -/
def packagesOf (queue : List Request) : List String :=
  queue.map (·.target.package)

/-- The packages that the dependencies of some nodes are in. -/
def namedBy (nodes : List Node) : List String :=
  packagesOf (nodes.flatMap requestsOf)

/-- The packages that a load asks for, in the order of the asking: the requested ones, those that
their targets depend on, those of the roots, and those that all other targets depend on. -/
def asked (roots : List Target) (packages : List String) (nodes : List Node) : List String :=
  packages ++ namedBy (nodes.filter (·.target.package ∈ packages)) ++ roots.map Target.package
    ++ namedBy (nodes.filter (·.target.package ∉ packages))

theorem packagesOf_append (front back : List Request) :
    packagesOf (front ++ back) = packagesOf front ++ packagesOf back :=
  List.map_append

theorem namedBy_append (front back : List Node) :
    namedBy (front ++ back) = namedBy front ++ namedBy back := by
  rw [namedBy, List.flatMap_append, packagesOf_append]
  rfl

/-- The requested packages are loaded in their order, each once, and the queue holds what their
targets depend on. -/
theorem stacked_of_loadPackages {answer : List String × List Request}
    (hinformed : ctx.Informed loading.session) (hstacked : Stacked loaded loading.graph.nodes)
    (hqueue : queue = loading.graph.nodes.flatMap requestsOf)
    (h : loadPackages ctx packages loaded queue loading = .ok answer later) :
    ctx.Informed later.session ∧ Stacked answer.1 later.graph.nodes ∧
      answer.2 = later.graph.nodes.flatMap requestsOf ∧
      answer.1.reverse = addAllOnce loaded.reverse packages := by
  induction packages generalizing loaded queue loading with
  | nil =>
    cases h
    exact ⟨hinformed, hstacked, hqueue, rfl⟩
  | cons package rest ih =>
    unfold loadPackages at h
    change _ ∧ _ ∧ _ ∧ _ = addAllOnce (addOnce loaded.reverse package) rest
    split_ifs at h with hthere
    · rw [addOnce, if_pos (List.mem_reverse.2 hthere)]
      exact ih hinformed hstacked hqueue h
    · obtain ⟨further, between, hload, h⟩ := exists_between_of_bind h
      obtain ⟨hbetween, more, hnodes, rfl, hmore⟩ := exists_nodes_of_loadPackage hinformed hload
      have hnext : Stacked (package :: loaded) between.graph.nodes := by
        rw [hnodes]
        exact hstacked.load hthere hmore
      rw [addOnce, if_neg (mt List.mem_reverse.1 hthere), ← List.reverse_cons]
      apply ih hbetween hnext _ h
      rw [hqueue, hnodes, List.flatMap_append]

/-- Requests for packages that have been loaded ask for nothing new. -/
theorem packagesOf_subset (h : ∀ request ∈ queue, request.target.package ∈ loaded) :
    packagesOf queue ⊆ loaded.reverse := by
  intro package hpackage
  obtain ⟨request, hrequest, rfl⟩ := List.mem_map.1 hpackage
  exact List.mem_reverse.2 (h request hrequest)

theorem Stacked.answered (h : Stacked loaded loading.graph.nodes)
    (hqueue : ∀ request ∈ queue, request.target ∈ loading.graph.targets) :
    ∀ request ∈ queue, request.target.package ∈ loaded := by
  intro request hrequest
  obtain ⟨node, hnode, htarget⟩ := Graph.mem_targets.1 (hqueue request hrequest)
  exact htarget ▸ h.package_mem node hnode

/-- When all requests are answered, all packages that were asked for are loaded. -/
theorem Stacked.reverse_eq (h : Stacked loaded loading.graph.nodes)
    (hqueue : ∀ request ∈ queue, request.target ∈ loading.graph.targets) :
    loaded.reverse = distinct (loaded.reverse ++ (packagesOf queue ++ namedBy [])) := by
  have hmet := packagesOf_subset (h.answered hqueue)
  rw [distinct_append_append_of_subset hmet]
  change _ = distinct (loaded.reverse ++ [])
  rw [List.append_nil, distinct_of_nodup (List.nodup_reverse.2 h.nodup)]

/-- A round that goes on puts one more package on top, that of the first request that is not
answered, and the dependencies of its targets join the end of the queue. -/
theorem stacked_of_round {more : List String} {rest : List Request}
    (hinformed : ctx.Informed loading.session) (hstacked : Stacked loaded loading.graph.nodes)
    (h : round ctx loaded queue loading = .ok (some (more, rest)) later) :
    ctx.Informed later.session ∧ Stacked more later.graph.nodes ∧ loaded ⊆ more ∧
      ∃ nodes, later.graph.nodes = loading.graph.nodes ++ nodes ∧
        (∀ node ∈ nodes, node.target.package ∉ loaded) ∧
        ∀ names, distinct (more.reverse ++ (packagesOf rest ++ names)) =
          distinct (loaded.reverse ++ (packagesOf queue ++ (namedBy nodes ++ names))) := by
  obtain ⟨front, request, others, further, rfl, hfront, hnew, hload, -, rfl, rfl⟩ :=
    exists_of_round h
  obtain ⟨hlater, nodes, hnodes, rfl, hpackage⟩ := exists_nodes_of_loadPackage hinformed hload
  refine ⟨hlater, ?_, List.subset_cons_self _ _, nodes, hnodes, ?_, fun names => ?_⟩
  · rw [hnodes]
    exact hstacked.load hnew hpackage
  · intro node hnode
    rw [hpackage node hnode]
    exact hnew
  · -- the requests at the front are for packages that are loaded
    have hmet := packagesOf_subset (hstacked.answered hfront)
    rw [packagesOf_append, packagesOf_append, List.append_assoc, List.append_assoc,
      distinct_append_append_of_subset hmet, List.reverse_cons, List.append_assoc]
    rfl

/-- The work loads packages in the order in which they are asked for: what has been loaded, what the
queue asks for, and what the targets that are added on the way depend on. -/
theorem stacked_of_work {replies : Nat} (hinformed : ctx.Informed loading.session)
    (hstacked : Stacked loaded loading.graph.nodes)
    (h : work ctx replies loaded queue loading = .ok () later) :
    ∃ all more, Stacked all later.graph.nodes ∧
      later.graph.nodes = loading.graph.nodes ++ more ∧
      (∀ node ∈ more, node.target.package ∉ loaded) ∧
      all.reverse = distinct (loaded.reverse ++ (packagesOf queue ++ namedBy more)) := by
  replace h := rounds_of_work h
  induction h with
  | @answered loaded queue loading hanswered =>
    exact ⟨loaded, [], hstacked, (List.append_nil _).symm, List.forall_mem_nil _,
      hstacked.reverse_eq hanswered⟩
  | again hround _ ih =>
    obtain ⟨hbetween, hnext, hsubset, nodes, hnodes, hnew, horder⟩ :=
      stacked_of_round hinformed hstacked hround
    obtain ⟨all, more, hall, hmore, hothers, hreverse⟩ := ih hbetween hnext
    refine ⟨all, nodes ++ more, hall, ?_, ?_, ?_⟩
    · rw [hmore, hnodes, List.append_assoc]
    · intro node hnode
      rcases List.mem_append.1 hnode with hfirst | hlater
      · exact hnew node hfirst
      · exact fun hthere => hothers node hlater (hsubset hthere)
    · rw [hreverse, horder, namedBy_append]

/-- A load on a fresh graph loads the packages that are asked for in the order of the asking. -/
theorem stacked_of_load {start : Session} (hinformed : ctx.Informed start)
    (h : load ctx roots packages ⟨.empty, start⟩ = .ok () later) :
    ∃ all, Stacked all later.graph.nodes ∧
      all.reverse = distinct (asked roots packages later.graph.nodes) := by
  obtain ⟨⟨loaded, queue⟩, between, hpackages, h⟩ := exists_between_of_bind h
  replace h := of_get_bind h
  have hstart : ctx.Informed (⟨.empty, start⟩ : Loading).session := hinformed
  have hnone : Stacked [] (⟨.empty, start⟩ : Loading).graph.nodes := .nil
  obtain ⟨hbetween, hstacked, hqueue, hloaded⟩ :=
    stacked_of_loadPackages hstart hnone rfl hpackages
  obtain ⟨all, more, hall, hmore, hnew, hreverse⟩ := stacked_of_work hbetween hstacked h
  dsimp only at hstacked hqueue hloaded hnew hreverse
  refine ⟨all, hall, ?_⟩
  -- the requested packages are loaded first, and the work adds other packages only
  have hmem : ∀ package, package ∈ loaded ↔ package ∈ packages := by
    intro package
    rw [← List.mem_reverse, hloaded]
    exact mem_distinct
  have hold : ∀ node ∈ between.graph.nodes, node.target.package ∈ packages :=
    fun node hnode => (hmem _).1 (hstacked.package_mem node hnode)
  have hnone : ∀ node ∈ more, node.target.package ∉ packages :=
    fun node hnode => mt (hmem _).2 (hnew node hnode)
  have hrequested : later.graph.nodes.filter (·.target.package ∈ packages) =
      between.graph.nodes := by
    rw [hmore, List.filter_append, List.filter_eq_self.2 (by simpa using hold),
      List.filter_eq_nil_iff.2 (by simpa using hnone), List.append_nil]
  have hothers : later.graph.nodes.filter (·.target.package ∉ packages) = more := by
    rw [hmore, List.filter_append, List.filter_eq_nil_iff.2 (by simpa using hold),
      List.filter_eq_self.2 (by simpa using hnone), List.nil_append]
  have hroots : packagesOf (roots.map fun root => ⟨none, root⟩) = roots.map Target.package := by
    rw [packagesOf, List.map_map]
    rfl
  rw [asked, hrequested, hothers, hreverse, hloaded]
  change distinct (distinct packages ++ _) = _
  have hnamed : packagesOf queue = namedBy between.graph.nodes := by
    rw [hqueue]
    rfl
  rw [distinct_distinct_append, packagesOf_append, hroots, hnamed]
  simp only [List.append_assoc]

/-! ## Results -/

/-- The targets that a load declares on a fresh graph are in the order in which their packages are
asked for. So those of the requested packages come in front of all that only a dependency leads to,
and those of the packages of the roots come in front of all that only a dependency leads to which is
not one of a requested package. -/
theorem load_follows_requests {start : Session} (hinformed : ctx.Informed start)
    (h : load ctx roots packages ⟨.empty, start⟩ = .ok () later) :
    (∀ t ∈ later.graph.targets, ∀ u ∈ later.graph.targets, t.package ≠ u.package →
      ([t, u].Sublist later.graph.targets ↔
        MeetsFirst (asked roots packages later.graph.nodes) t.package u.package)) ∧
    ∀ t ∈ later.graph.targets, ∀ u ∈ later.graph.targets,
      u.package ∉ packages → u.package ∉ roots.map Target.package →
      (t.package ∈ packages ∨ t.package ∈ roots.map Target.package ∧
        u.package ∉ namedBy (later.graph.nodes.filter (·.target.package ∈ packages))) →
      [t, u].Sublist later.graph.targets := by
  obtain ⟨all, hall, hreverse⟩ := stacked_of_load hinformed h
  have hasked : ∀ {t}, t ∈ later.graph.targets →
      t.package ∈ asked roots packages later.graph.nodes := by
    intro t ht
    obtain ⟨node, hnode, rfl⟩ := Graph.mem_targets.1 ht
    rw [← mem_distinct, ← hreverse, List.mem_reverse]
    exact hall.package_mem node hnode
  -- one direction; the other one follows, since one of two packages is asked for first
  have hfirst : ∀ {t u}, t ∈ later.graph.targets → u ∈ later.graph.targets →
      t.package ≠ u.package →
      MeetsFirst (asked roots packages later.graph.nodes) t.package u.package →
      [t, u].Sublist later.graph.targets := by
    intro t u ht hu hne hmeets
    apply hall.sublist ht hu hne
    rw [hreverse]
    exact hmeets.distinct
  constructor
  · intro t ht u hu hne
    constructor
    · intro hsublist
      rcases MeetsFirst.total (b := u.package) (Or.inl (hasked ht)) with hmeets | hmeets
      · exact hmeets
      · have hother := hfirst hu ht hne.symm hmeets
        exact absurd hother (not_sublist_of_nodup later.graph.distinctTargets hsublist)
    · exact hfirst ht hu hne
  · intro t ht u hu hpackages hroots hwanted
    have hne : t.package ≠ u.package := by
      intro hsame
      rw [hsame] at hwanted
      rcases hwanted with hpackage | ⟨hroot, -⟩
      · exact hpackages hpackage
      · exact hroots hroot
    apply hfirst ht hu hne
    -- the packages of the dependencies come last among those that are asked for
    rcases hwanted with hpackage | ⟨hroot, hnamed⟩
    · have hmeets : MeetsFirst packages t.package u.package := .of_mem hpackage hpackages
      exact ((hmeets.append_right _).append_right _).append_right _
    · have hmeets : MeetsFirst (roots.map Target.package) t.package u.package :=
        .of_mem hroot hroots
      apply MeetsFirst.append_right
      apply MeetsFirst.append_left _ hmeets
      exact fun hmem => (List.mem_append.1 hmem).elim hpackages hnamed

/-- A workspace with a program that depends on a library and with a tool that depends on nothing. -/
def shelfDisk : Disk :=
  ⟨⟨[(["work"], .directory), (["work", "app"], .directory),
    (["work", "app", "BUILD.toml"], .file ("[[targets]]\nkind='cc_binary'\n" ++
      "name='app'\nsources=['app.c']\ndependencies=['//lib:l']\n")),
    (["work", "lib"], .directory),
    (["work", "lib", "BUILD.toml"], .file
      "[[targets]]\nkind='cc_library'\nname='l'\nsources=['l.c']\n"),
    (["work", "tool"], .directory),
    (["work", "tool", "BUILD.toml"], .file
      "[[targets]]\nkind='cc_binary'\nname='tool'\nsources=['tool.c']\n")]⟩, []⟩

/-- The tool is requested and the program is a root. The library comes last. -/
theorem load_follows_requests_shelf :
    ∃ later, load sampleContext [⟨"app", "app"⟩] ["tool"] ⟨.empty, .new shelfDisk []⟩ =
        .ok () later ∧
      later.graph.targets = [⟨"tool", "tool"⟩, ⟨"app", "app"⟩, ⟨"lib", "l"⟩] ∧
      [⟨"app", "app"⟩, ⟨"lib", "l"⟩].Sublist later.graph.targets := by
  have hchecked : passes (load sampleContext [⟨"app", "app"⟩] ["tool"])
      ⟨.empty, .new shelfDisk []⟩ (fun later => decide
        (later.graph.targets = [⟨"tool", "tool"⟩, ⟨"app", "app"⟩, ⟨"lib", "l"⟩] ∧
          "lib" ∉ namedBy (later.graph.nodes.filter (·.target.package ∈ ["tool"])))) = true := by
    decide +kernel
  obtain ⟨⟨⟩, later, hload, hpassed⟩ := exists_of_passes hchecked
  obtain ⟨htargets, hnamed⟩ := of_decide_eq_true hpassed
  have hinformed : sampleContext.Informed (.new shelfDisk []) := nofun
  obtain ⟨-, hfirst⟩ := load_follows_requests hinformed hload
  refine ⟨later, hload, htargets, ?_⟩
  apply hfirst _ (by simp [htargets]) _ (by simp [htargets]) (by decide) (by decide)
  exact Or.inr ⟨by decide, hnamed⟩

/-- The program is requested and the tool is a root. The library, which only a dependency leads to,
comes in front of the tool. -/
theorem load_puts_dependency_first :
    ∃ later, load sampleContext [⟨"tool", "tool"⟩] ["app"] ⟨.empty, .new shelfDisk []⟩ =
        .ok () later ∧
      later.graph.targets = [⟨"app", "app"⟩, ⟨"lib", "l"⟩, ⟨"tool", "tool"⟩] ∧
      ¬ [⟨"tool", "tool"⟩, ⟨"lib", "l"⟩].Sublist later.graph.targets := by
  have hchecked : passes (load sampleContext [⟨"tool", "tool"⟩] ["app"])
      ⟨.empty, .new shelfDisk []⟩ (fun later => decide
        (later.graph.targets = [⟨"app", "app"⟩, ⟨"lib", "l"⟩, ⟨"tool", "tool"⟩])) = true := by
    decide +kernel
  obtain ⟨⟨⟩, later, hload, hpassed⟩ := exists_of_passes hchecked
  have htargets := of_decide_eq_true hpassed
  refine ⟨later, hload, htargets, ?_⟩
  rw [htargets]
  decide

end Loading

end Makewright
