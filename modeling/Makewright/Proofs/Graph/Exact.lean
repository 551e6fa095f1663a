import Makewright.Proofs.Generation.Contribution
import Makewright.Proofs.Graph.Resolution
import Makewright.Proofs.Graph.Termination

/-!
# Loading is exact

What a load on a fresh graph comes to (`Loading.load_exact`). It ends, as the loop without a bound
does. If it succeeds, the graph holds the targets of the packages that the selection needs and no
others, and all that they depend on, so that nothing but a cycle can keep it from being put in
order. If all these packages have build files, and whatever is asked for is described in them, then
nothing but the reading of a target can make the load fail.
-/

set_option autoImplicit false

namespace Makewright

variable {ctx : Context} {start : Session} {roots : List Target} {packages : List String}

namespace Context

/-- The build file of its package describes the target. -/
def IsDescribed (ctx : Context) (files : FileTree) (t : Target) : Prop :=
  ∃ ds d, ctx.Describes files t.package ds ∧ d ∈ ds ∧ d.target = t

/-- In the course of a pass, the reading of a description fails with the error. -/
def FailsToRead (ctx : Context) (start : Session) (d : Description) (e : BuildError) : Prop :=
  ∃ loading after, Loading.Passed ctx start loading ∧
    Loading.readNode ctx d loading = .error e after

/-- In the course of a pass, the reading of a target of some needed package fails with the error. -/
def ReadingFails (ctx : Context) (start : Session) (roots : List Target) (packages : List String)
    (e : BuildError) : Prop :=
  ∃ package ds d, ctx.Needs start.disk.files roots packages package ∧
    ctx.Describes start.disk.files package ds ∧ d ∈ ds ∧ ctx.FailsToRead start d e

/-- Every package that the selection needs has a build file, which describes whatever the selection
asks for in the package. -/
structure Covers (ctx : Context) (files : FileTree) (roots : List Target)
    (packages : List String) : Prop where
  describes : ∀ package, ctx.Needs files roots packages package →
    ∃ ds, ctx.Describes files package ds
  described : ∀ t, ctx.Asks files roots packages t → ctx.IsDescribed files t

end Context

namespace Loading

open Stateful

variable {loading after : Loading} {loaded : List String} {queue : List Request}
  {e : BuildError} {d : Description}

/-! ## Errors -/

theorem report_ne_error {level : LogLevel} {reporter : Reporter} {text : String} :
    inPass (Pass.report level reporter text) loading ≠ .error e after :=
  nofun

theorem exists_error_of_inPass {α : Type} {step : Pass α}
    (h : inPass step loading = .error e after) :
    ∃ session, step loading.session = .error e session := by
  unfold inPass at h
  cases hstep : step loading.session with
  | ok a session => simp [hstep] at h
  | error e' session =>
    simp only [hstep, EStateM.Result.error.injEq] at h
    exact ⟨session, by rw [h.1]⟩

/-- An error of adding a description whose target is new is one of reading it. -/
theorem failsToRead_of_add (hpassed : Passed ctx start loading)
    (hnew : ¬ loading.graph.contains d.target) (h : add ctx d loading = .error e after) :
    ctx.FailsToRead start d e := by
  unfold add at h
  replace h := error_of_get_bind h
  rw [if_neg hnew] at h
  rcases error_of_bind h with hread | ⟨node, between, -, h⟩
  · exact ⟨loading, after, hpassed, hread⟩
  · rcases error_of_bind h with hreport | ⟨⟨⟩, reported, -, h⟩
    · exact absurd hreport report_ne_error
    · cases h

/-- An error of adding descriptions is one of reading one of them. -/
theorem failsToRead_of_addAll {rest : List Description} (hpassed : Passed ctx start loading)
    (h : addAll ctx rest loading = .error e after) : ∃ d ∈ rest, ctx.FailsToRead start d e := by
  induction rest generalizing loading with
  | nil => cases h
  | cons d rest ih =>
    unfold addAll at h
    replace h := error_of_get_bind h
    by_cases hcontains : loading.graph.contains d.target
    · rw [if_pos hcontains] at h
      obtain ⟨other, hother, hfails⟩ := ih hpassed h
      exact ⟨other, List.mem_cons_of_mem d hother, hfails⟩
    · rw [if_neg hcontains] at h
      rcases error_of_bind h with hadd | ⟨node, between, hadd, h⟩
      · exact ⟨d, List.mem_cons_self, failsToRead_of_add hpassed hcontains hadd⟩
      · rcases error_of_bind h with hrest | ⟨further, last, -, h⟩
        · have hbetween := ((lasting_passed ctx start).add d loading hpassed).ok hadd
          obtain ⟨other, hother, hfails⟩ := ih hbetween hrest
          exact ⟨other, List.mem_cons_of_mem d hother, hfails⟩
        · cases h

/-- Asking for the targets of a package with a build file is no error. -/
theorem describePackage_ne_error (hsteady : ctx.Steady start) (hpassed : Passed ctx start loading)
    {package : String} {ds : List Description}
    (hds : ctx.Describes start.disk.files package ds) :
    describePackage ctx package loading ≠ .error e after := by
  intro h
  obtain ⟨session, hsession⟩ := exists_error_of_inPass h
  replace hsession := error_of_get_bind hsession
  rcases error_of_bind hsession with hlift | ⟨answer, between, -, hrest⟩
  · have hread : BuildFile.read loading.session.disk.files ctx.workspace.root package =
        .ok (some ds) := by
      rw [hsteady.files _ hpassed.disk package]
      exact hds
    unfold BuildFile.load at hlift
    cases hknown : loading.session.packages.lookup package with
    | some known =>
      rw [hknown] at hlift
      cases hlift
    | none =>
      rw [hknown, hread] at hlift
      cases hlift
  · cases hrest

/-- An error of loading a package with a build file is one of reading one of its targets. -/
theorem failsToRead_of_loadPackage (hsteady : ctx.Steady start) {package : String}
    {wanted : Option Request} {ds : List Description} (hsound : Sound ctx start loading)
    (hds : ctx.Describes start.disk.files package ds)
    (h : loadPackage ctx package wanted loading = .error e after) :
    ∃ d ∈ ds, ctx.FailsToRead start d e := by
  unfold loadPackage at h
  rcases error_of_bind h with hdescribe | ⟨found, between, hdescribe, h⟩
  · exact absurd hdescribe (describePackage_ne_error hsteady hsound.passed hds)
  · obtain ⟨hbetween, -, hread⟩ := describePackage_eq_ok hsteady hsound hdescribe
    cases Except.ok.inj (hread.symm.trans hds)
    rcases error_of_bind h with hreport | ⟨⟨⟩, reported, hreport, h⟩
    · exact absurd hreport report_ne_error
    · exact failsToRead_of_addAll (hbetween.report hreport).1.passed h

theorem answer_ne_error {request : Request} (hthere : request.target ∈ loading.graph.targets) :
    answer request loading ≠ .error e after := by
  intro h
  unfold answer at h
  replace h := error_of_get_bind h
  rw [if_neg (by simpa using contains_iff.2 hthere)] at h
  cases h

/-- An error of loading the requested packages, which have build files, is one of reading one of
their targets. -/
theorem readingFails_of_loadPackages (hsteady : ctx.Steady start)
    {rest : List String}
    (hrest : ∀ package ∈ rest, ctx.Needs start.disk.files roots packages package)
    (hdescribes : ∀ package ∈ rest, ∃ ds, ctx.Describes start.disk.files package ds)
    (hunderway : Underway ctx start roots packages loaded queue loading)
    (h : loadPackages ctx rest loaded queue loading = .error e after) :
    ctx.ReadingFails start roots packages e := by
  induction rest generalizing loaded queue loading with
  | nil => cases h
  | cons package rest ih =>
    obtain ⟨hneeded, hrest⟩ := List.forall_mem_cons.1 hrest
    obtain ⟨⟨ds, hds⟩, hdescribes⟩ := List.forall_mem_cons.1 hdescribes
    unfold loadPackages at h
    split_ifs at h
    · exact ih hrest hdescribes hunderway h
    · rcases error_of_bind h with hload | ⟨further, between, hload, h⟩
      · obtain ⟨d, hd, hfails⟩ := failsToRead_of_loadPackage hsteady hunderway.sound hds hload
        exact ⟨package, ds, d, hneeded, hds, hd, hfails⟩
      · obtain ⟨others, hothers, hadded⟩ := loadPackage_eq_ok hsteady hunderway.sound hload
        exact ih hrest hdescribes (hunderway.added hneeded hothers hadded) h

/-! ## Rounds of a selection that is covered -/

/-- A target that is described is in the graph when its package is loaded. -/
theorem Underway.mem_targets_of_isDescribed
    (h : Underway ctx start roots packages loaded queue loading) {t : Target}
    (ht : ctx.IsDescribed start.disk.files t) (hloaded : t.package ∈ loaded) :
    t ∈ loading.graph.targets := by
  obtain ⟨ds, d, hds, hd, htarget⟩ := ht
  exact (h.mem_targets t).2 ⟨t.package, hloaded, ds, hds, d, hd, htarget⟩

theorem answerLoaded_ne_error
    (hthere : ∀ request ∈ queue, request.target.package ∈ loaded →
      request.target ∈ loading.graph.targets) :
    answerLoaded loaded queue loading ≠ .error e after := by
  induction queue with
  | nil => nofun
  | cons request rest ih =>
    obtain ⟨hrequest, hrest⟩ := List.forall_mem_cons.1 hthere
    intro h
    unfold answerLoaded at h
    split_ifs at h with hloaded
    · rcases error_of_bind h with hanswer | ⟨⟨⟩, between, hanswer, h⟩
      · exact answer_ne_error (hrequest hloaded) hanswer
      · obtain ⟨rfl, -⟩ := answer_eq_ok hanswer
        exact ih hrest h
    · cases h

/-- An error of a round is one of reading a target, when the selection is covered. -/
theorem readingFails_of_round (hsteady : ctx.Steady start)
    (hcovers : ctx.Covers start.disk.files roots packages)
    (hunderway : Underway ctx start roots packages loaded queue loading)
    (h : round ctx loaded queue loading = .error e after) :
    ctx.ReadingFails start roots packages e := by
  rcases error_of_bind h with hanswered | ⟨waiting, between, hanswered, h⟩
  · -- a target of a loaded package is there, so answering does not fail
    refine absurd hanswered (answerLoaded_ne_error fun request hrequest hloaded => ?_)
    have hdescribed := hcovers.described _ (hunderway.queue_asked request hrequest)
    exact hunderway.mem_targets_of_isDescribed hdescribed hloaded
  · obtain ⟨rfl, front, hqueue, hfront, -⟩ := answerLoaded_eq_ok hanswered
    rw [hqueue] at hunderway
    replace hunderway := hunderway.dequeueAll hfront
    -- what fails is the load of the package of the first request that waits
    cases waiting with
    | nil => cases h
    | cons request others =>
      have hasked := hunderway.queue_asked request List.mem_cons_self
      obtain ⟨ds, hds⟩ := hcovers.describes _ hasked.needs
      rcases error_of_bind h with hload | ⟨further, next, hload, h⟩
      · obtain ⟨d, hd, hfails⟩ := failsToRead_of_loadPackage hsteady hunderway.sound hds hload
        exact ⟨request.target.package, ds, d, hasked.needs, hds, hd, hfails⟩
      · obtain ⟨loadedDs, hloadedDs, hadded⟩ := loadPackage_eq_ok hsteady hunderway.sound hload
        have hafter := hunderway.added hasked.needs hloadedDs hadded
        have hthere := hafter.mem_targets_of_isDescribed (hcovers.described _ hasked)
          List.mem_cons_self
        rcases error_of_bind h with hanswer | ⟨⟨⟩, answered, -, h⟩
        · exact absurd hanswer (answer_ne_error hthere)
        · cases h

/-- An error of the loop is one of reading a target, when the selection is covered. -/
theorem Drains.readingFails (hsteady : ctx.Steady start)
    (hcovers : ctx.Covers start.disk.files roots packages)
    (hunderway : Underway ctx start roots packages loaded queue loading)
    {outcome : EStateM.Result BuildError Loading Unit}
    (h : Drains ctx loaded queue loading outcome) (he : outcome = .error e after) :
    ctx.ReadingFails start roots packages e := by
  induction h with
  | done h => cases he
  | failed h =>
    cases he
    exact readingFails_of_round hsteady hcovers hunderway h
  | again hround h ih => exact ih (hunderway.served hsteady hround).underway he

/-! ## Loading as a whole -/

/-- An error of a load is one of reading a target, when the selection is covered. -/
theorem readingFails_of_load (hsteady : ctx.Steady start)
    (hcovers : ctx.Covers start.disk.files roots packages)
    (h : load ctx roots packages ⟨.empty, start⟩ = .error e after) :
    ctx.ReadingFails start roots packages e := by
  have hloads := loads_load ctx roots packages ⟨.empty, start⟩
  rw [h] at hloads
  cases hloads with
  | failed hpackages =>
    have hneeded : ∀ package ∈ packages,
        ctx.Needs start.disk.files roots packages package := fun _ hpackage => .package hpackage
    exact readingFails_of_loadPackages hsteady hneeded
      (fun package hpackage => hcovers.describes package (hneeded package hpackage))
      (underway_empty ctx start roots packages) hpackages
  | drained hpackages hdrains =>
    obtain ⟨hunderway, -⟩ := underway_of_loadPackages hsteady hpackages
    exact hdrains.readingFails hsteady hcovers hunderway rfl

/-- Loading on a fresh graph is exact. It ends, with the outcome of the loop without a bound. If it
succeeds, the graph holds the targets that are described in needed packages and no others, each
once; it contains the roots and whatever its targets depend on, and can fail to resolve for a cycle
only. If every needed package has a build file, and whatever is asked for is described, it succeeds
unless the reading of a target of some needed package fails. -/
theorem load_exact (hsteady : ctx.Steady start) (roots : List Target) (packages : List String) :
    (∀ outcome, Loads ctx roots packages ⟨.empty, start⟩ outcome ↔
      outcome = load ctx roots packages ⟨.empty, start⟩) ∧
    (∀ after, load ctx roots packages ⟨.empty, start⟩ = .ok () after →
      (∀ t, t ∈ after.graph.targets ↔ ctx.Needs start.disk.files roots packages t.package ∧
        ctx.IsDescribed start.disk.files t) ∧
      after.graph.targets.Nodup ∧ roots ⊆ after.graph.targets ∧
      (∀ node ∈ after.graph.nodes, node.dependencies ⊆ after.graph.targets) ∧
      ∀ e, after.graph.resolve.1 = .error e → ∃ c, e = .cycle c ∧ after.graph.IsCycle c) ∧
    (ctx.Covers start.disk.files roots packages →
      (∃ after, load ctx roots packages ⟨.empty, start⟩ = .ok () after) ∨
      ∃ e after, load ctx roots packages ⟨.empty, start⟩ = .error e after ∧
        ctx.ReadingFails start roots packages e) := by
  refine ⟨fun outcome => ?_, fun after h => ?_, fun hcovers => ?_⟩
  · have hloads := loads_load ctx roots packages ⟨.empty, start⟩
    constructor
    · intro houtcome
      exact houtcome.unique hloads
    · rintro rfl
      exact hloads
  · have hholds := load_eq_ok hsteady h
    refine ⟨fun t => ?_, after.graph.distinctTargets, hholds.roots, hholds.closed, fun e he => ?_⟩
    · rw [hholds.mem_targets]
      constructor
      · rintro ⟨package, ds, hneeded, hds, d, hd, rfl⟩
        rw [Context.IsDescribed, hds.package_eq hd]
        exact ⟨hneeded, ds, d, hds, hd, rfl⟩
      · rintro ⟨hneeded, ds, d, hds, hd, htarget⟩
        exact ⟨t.package, ds, hneeded, hds, d, hd, htarget⟩
    · rcases after.graph.resolve_cases with ⟨r, -, hresolve⟩ | ⟨e', hwalk, hresolve⟩
      · rw [hresolve] at he
        cases he
      · rw [hresolve] at he
        cases he
        rcases Graph.error_of_walk hwalk with hcycle | ⟨t, d, -, -, hdepends, hmissing⟩
        · exact hcycle
        · -- every dependency is in the graph
          obtain ⟨node, hnode, -, hdependency⟩ := hdepends
          exact absurd (hholds.closed node hnode hdependency) hmissing
  · cases h : load ctx roots packages ⟨.empty, start⟩ with
    | ok answer after => exact .inl ⟨after, rfl⟩
    | error e after => exact .inr ⟨e, after, rfl, readingFails_of_load hsteady hcovers h⟩

/-- The executable of the sample is loaded together with the library of another package that it
depends on. -/
theorem load_exact_sample :
    ∃ after, sampleContext.Steady (.new Context.sampleDisk []) ∧
      load sampleContext [⟨"", "draw"⟩] [] ⟨.empty, .new Context.sampleDisk []⟩ = .ok () after ∧
      (∀ t, t ∈ after.graph.targets ↔
        sampleContext.Needs Context.sampleDisk.files [⟨"", "draw"⟩] [] t.package ∧
          sampleContext.IsDescribed Context.sampleDisk.files t) ∧
      ⟨"shapes", "area"⟩ ∈ after.graph.targets := by
  have hlocal : sampleContext.FetchesLocally := by
    intro fetcher h
    cases h
  have hsteady : sampleContext.Steady (.new Context.sampleDisk []) := hlocal.steady rfl
  have hchecked : passes (load sampleContext [⟨"", "draw"⟩] [])
      ⟨.empty, .new Context.sampleDisk []⟩
      (fun after => decide (⟨"shapes", "area"⟩ ∈ after.graph.targets)) = true := by
    decide +kernel
  obtain ⟨⟨⟩, after, hload, hthere⟩ := exists_of_passes hchecked
  have hexact := (load_exact hsteady [⟨"", "draw"⟩] []).2.1 after hload
  exact ⟨after, hsteady, hload, hexact.1, of_decide_eq_true hthere⟩

end Loading

end Makewright
