import Makewright.Proofs.Order.Finished
import Makewright.Proofs.Outcome
import Mathlib.Data.List.Chain
import Mathlib.Data.List.Perm.Subperm

/-!
# The walk in dependency order

`walk_ends` says how the walk ends. If it succeeds, every declared target is finished. If it fails,
the error is a fault of the declarations: a cycle of declared dependencies, or a target that lists
one that is not declared.

The walk is inside of the targets on the trail. They form a chain of dependencies that leads to the
target that is visited, each stands there once, and none of them is finished; so a target that is
met again on the trail closes a cycle, and the trail never outgrows the declarations.
-/

set_option autoImplicit false

namespace Makewright.Order

open Relation

variable {declared : Declarations}

/-- A closed chain of dependencies: it starts and ends at one target, and goes through others, each
once, in between. -/
structure IsCycle (declared : Declarations) (cycle : List Target) : Prop where
  closed : cycle.head? = cycle.getLast?
  nonempty : cycle.dropLast ≠ []
  nodup : cycle.dropLast.Nodup
  linked : cycle.IsChain (DependsOn declared)

/-- What can be wrong with declarations, as the error that reports it. -/
inductive Fault (declared : Declarations) : BuildError → Prop
  | cycle {c : List Target} : IsCycle declared c → Fault declared (.cycle c)
  | undeclared {target dependency : Target} :
      DependsOn declared target dependency → ¬ IsDeclared declared dependency →
      Fault declared (.unresolved target dependency none)

/-- More targets may be finished after than before. -/
structure Extends (before after : Resolution) : Prop where
  order : before.order <+: after.order
  closures : before.closures <+: after.closures

namespace Extends

variable {r s t : Resolution}

theorem refl (r : Resolution) : Extends r r :=
  ⟨List.prefix_refl _, List.prefix_refl _⟩

theorem trans (hrs : Extends r s) (hst : Extends s t) : Extends r t :=
  ⟨hrs.order.trans hst.order, hrs.closures.trans hst.closures⟩

theorem finish (r : Resolution) (target : Target) (closure : List Target) :
    Extends r (r.finish target closure) :=
  ⟨List.prefix_append _ _, List.prefix_append _ _⟩

/-- What stands below a finished target stays. -/
theorem below (h : Extends r s) (hr : Finished declared r) {target : Target}
    (ht : target ∈ r.order) : s.below target = r.below target := by
  obtain ⟨c, hc⟩ := hr.exists_closure? ht
  obtain ⟨more, hmore⟩ := h.closures
  rw [Resolution.closure?] at hc
  simp [Resolution.below, Resolution.closure?, ← hmore, List.lookup_append, hc]

end Extends

/-- Where the walk stands when it visits a target: inside of the targets on the trail, which form a
chain to it. -/
structure OnTrail (declared : Declarations) (trail : List Target) (target : Target) : Prop where
  chain : (trail ++ [target]).IsChain (DependsOn declared)
  nodup : trail.Nodup
  isDeclared : ∀ t ∈ trail ++ [target], IsDeclared declared t

namespace OnTrail

variable {trail : List Target} {target : Target}

/-- The trail goes on to a dependency of the target. -/
theorem next (h : OnTrail declared trail target) (hnew : target ∉ trail) {dependency : Target}
    (hdepends : DependsOn declared target dependency) (hdeclared : IsDeclared declared dependency) :
    OnTrail declared (trail ++ [target]) dependency where
  chain := by
    rw [List.isChain_append]
    refine ⟨h.chain, List.isChain_singleton _, ?_⟩
    intro x hx y hy
    simp only [List.getLast?_append, List.getLast?_singleton, Option.mem_def, Option.some_or,
      Option.some.injEq, List.head?_cons] at hx hy
    rw [← hx, ← hy]
    exact hdepends
  nodup := nodup_append_singleton h.nodup hnew
  isDeclared t ht := by
    rcases List.mem_append.1 ht with ht | ht
    · exact h.isDeclared t ht
    · exact List.mem_singleton.1 ht ▸ hdeclared

/-- A target that is met again on the trail closes a cycle. -/
theorem isCycle (h : OnTrail declared trail target) (hmem : target ∈ trail) :
    IsCycle declared (trail.dropWhile (· != target) ++ [target]) := by
  -- cut the trail where the target stands on it
  obtain ⟨front, back, rfl, hfront⟩ := List.eq_append_cons_of_mem hmem
  have hcut : (front ++ target :: back).dropWhile (· != target) = target :: back := by
    rw [List.dropWhile_append_of_pos]
    · simp
    · intro x hx
      rw [bne_iff_ne]
      rintro rfl
      exact hfront hx
  rw [hcut]
  refine ⟨?_, ?_, ?_, ?_⟩
  · rw [List.getLast?_append]
    rfl
  · rw [List.dropLast_concat]
    exact List.cons_ne_nil _ _
  · rw [List.dropLast_concat]
    exact (List.nodup_append.1 h.nodup).2.1
  · have hchain := h.chain
    rw [List.append_assoc] at hchain
    exact hchain.right_of_append

/-- The targets on the trail and the one that is visited are not more than the declarations. -/
theorem length_lt (h : OnTrail declared trail target) (hnew : target ∉ trail) :
    trail.length < declared.length := by
  have hnodup : (target :: trail).Nodup := List.nodup_cons.2 ⟨hnew, h.nodup⟩
  have hsub : target :: trail ⊆ declared.map Prod.fst := by
    intro t ht
    rcases List.mem_cons.1 ht with rfl | ht
    · exact h.isDeclared t (by simp)
    · exact h.isDeclared t (by simp [ht])
  have hle := (List.subperm_of_subset hnodup hsub).length_le
  rw [List.length_cons, List.length_map] at hle
  omega

end OnTrail

/-- No target on the trail is finished. -/
def Unfinished (trail : List Target) (r : Resolution) : Prop :=
  ∀ t ∈ trail, t ∉ r.order

/-- What a visit answers: more targets are finished, the visited one among them, and none that is on
the trail. -/
structure Visited (declared : Declarations) (trail : List Target) (target : Target)
    (before after : Resolution) : Prop where
  finished : Finished declared after
  grown : Extends before after
  mem : target ∈ after.order
  unfinished : Unfinished trail after

/-- Where the loop over the dependencies of a target stands: the dependencies `rest` are still to
come, those before them are finished, and their closures are collected. -/
structure Collecting (declared : Declarations) (trail : List Target) (target : Target)
    (before : Resolution) (rest : List Target) (state : Resolution × List Target) : Prop where
  finished : Finished declared state.1
  grown : Extends before state.1
  unfinished : Unfinished trail state.1
  collected : ∃ seen, declared.listed target = seen ++ rest ∧ (∀ d ∈ seen, d ∈ state.1.order) ∧
    state.2 = distinct (seen.flatMap fun d => state.1.below d ++ [d])

/-- One dependency is taken in, if `finish` visits it as it should. -/
theorem advance_ends {trail : List Target} {target : Target} {before : Resolution}
    {finish : Resolution → Target → Except BuildError Resolution}
    (hfinish : ∀ done d, Finished declared done → Unfinished trail done →
      DependsOn declared target d → IsDeclared declared d →
      Ends (Visited declared trail d done) (Fault declared) (finish done d))
    (dependency : Target) (rest : List Target) (state : Resolution × List Target)
    (h : Collecting declared trail target before (dependency :: rest) state) :
    Ends (Collecting declared trail target before rest) (Fault declared)
      (advance declared target finish state dependency) := by
  obtain ⟨done, closure⟩ := state
  obtain ⟨seen, hlisted, hseen, hclosure⟩ := h.collected
  have hdepends : DependsOn declared target dependency := by
    simp [DependsOn, hlisted]
  rw [advance]
  split
  · next hnone => exact .undeclared hdepends (lookup_isNone_iff.1 hnone)
  · next hsome =>
    have hdeclared : IsDeclared declared dependency := by
      by_contra hnot
      exact hsome (lookup_isNone_iff.2 hnot)
    refine .bind ((hfinish done dependency h.finished h.unfinished hdepends hdeclared).mono ?_
      fun _ he => he)
    intro after hafter
    refine ⟨hafter.finished, h.grown.trans hafter.grown, hafter.unfinished,
      seen ++ [dependency], by simp [hlisted], ?_, ?_⟩
    · intro d hd
      rcases List.mem_append.1 hd with hd | hd
      · exact hafter.grown.order.subset (hseen d hd)
      · exact List.mem_singleton.1 hd ▸ hafter.mem
    · -- the closures collected before the visit are the same after it
      have hsame : seen.flatMap (fun d => after.below d ++ [d]) =
          seen.flatMap (fun d => done.below d ++ [d]) := by
        refine List.flatMap_congr fun d hd => ?_
        rw [hafter.grown.below h.finished (hseen d hd)]
      change closure = _ at hclosure
      rw [List.flatMap_append, hsame, List.flatMap_singleton, hclosure]
      exact (addAllOnce_append [] _ _).symm

/-- Once all dependencies are taken in, the target can be finished with what is collected. -/
theorem Collecting.visited {trail : List Target} {target : Target} {before after : Resolution}
    {closure : List Target}
    (h : Collecting declared (trail ++ [target]) target before [] (after, closure))
    (htrail : OnTrail declared trail target) (hnew : target ∉ trail) :
    Visited declared trail target before (after.finish target closure) := by
  obtain ⟨hafter, hgrown, hopen, seen, hlisted, hseen, hclosure⟩ := h
  rw [List.append_nil] at hlisted
  have hcollected : closure = closureFrom declared after target := by
    rw [closureFrom, hlisted]
    exact hclosure
  have hnotAfter : target ∉ after.order := hopen target (by simp)
  have hdeclared : IsDeclared declared target := htrail.isDeclared target (by simp)
  rw [hcollected]
  refine ⟨.finish hafter hnotAfter hdeclared (hlisted ▸ hseen),
    hgrown.trans (.finish after target _), by simp [Resolution.finish], ?_⟩
  -- of what the trail holds, only the target itself is finished now
  intro t ht hmem
  rcases List.mem_append.1 hmem with hmem | hmem
  · exact hopen t (List.mem_append_left _ ht) hmem
  · exact hnew (List.mem_singleton.1 hmem ▸ ht)

/-- A visit of a target at the end of the trail finishes it or meets a fault. -/
theorem visit_ends {fuel : Nat} {trail : List Target} {done : Resolution} {target : Target}
    (hfinished : Finished declared done) (hunfinished : Unfinished trail done)
    (htrail : OnTrail declared trail target) (hfuel : declared.length ≤ fuel + trail.length) :
    Ends (Visited declared trail target done) (Fault declared)
      (visit declared fuel trail done target) := by
  induction fuel generalizing trail done target with
  | zero =>
    rw [visit]
    split
    · next hmem => exact ⟨hfinished, .refl done, hmem, hunfinished⟩
    · split
      · next hmem => exact .cycle (htrail.isCycle hmem)
      · next hnew =>
        -- without fuel the trail would hold all declarations already
        have hlt := htrail.length_lt hnew
        omega
  | succ fuel ih =>
    rw [visit]
    split
    · next hmem => exact ⟨hfinished, .refl done, hmem, hunfinished⟩
    · next hnotDone =>
      split
      · next hmem => exact .cycle (htrail.isCycle hmem)
      · next hnew =>
        have hinside : Unfinished (trail ++ [target]) done := by
          intro t ht
          rcases List.mem_append.1 ht with ht | ht
          · exact hunfinished t ht
          · exact List.mem_singleton.1 ht ▸ hnotDone
        have hstart : Collecting declared (trail ++ [target]) target done
            (declared.listed target) (done, []) :=
          ⟨hfinished, .refl done, hinside, [], rfl, by simp, rfl⟩
        -- inside of the loop the trail is longer by one target, and the fuel is less by one
        have hloop := Ends.foldlM (Collecting declared (trail ++ [target]) target done)
          (advance_ends fun done d hdone hopen hdepends hdeclared =>
            ih hdone hopen (htrail.next hnew hdepends hdeclared) (by simp; omega)) hstart
        refine .bind (hloop.mono ?_ fun _ he => he)
        rintro ⟨after, closure⟩ hcollected
        exact hcollected.visited htrail hnew

/-- Where the walk stands: the targets `rest` are still to come, and those before them are
finished. -/
structure Walking (declared : Declarations) (rest : List Target) (r : Resolution) : Prop where
  finished : Finished declared r
  done : ∃ seen, declared.map Prod.fst = seen ++ rest ∧ ∀ t ∈ seen, t ∈ r.order

/-- One more declared target is visited, from an empty trail. -/
theorem visit_walking (target : Target) (rest : List Target) (r : Resolution)
    (h : Walking declared (target :: rest) r) :
    Ends (Walking declared rest) (Fault declared) (visit declared declared.length [] r target) := by
  obtain ⟨seen, hall, hseen⟩ := h.done
  have hdeclared : IsDeclared declared target := by
    simp [IsDeclared, hall]
  have htrail : OnTrail declared [] target :=
    ⟨List.isChain_singleton _, .nil, by simpa using hdeclared⟩
  refine (visit_ends h.finished (by simp [Unfinished]) htrail (by simp)).mono ?_ fun _ he => he
  intro after hafter
  refine ⟨hafter.finished, seen ++ [target], by simp [hall], ?_⟩
  intro t ht
  rcases List.mem_append.1 ht with ht | ht
  · exact hafter.grown.order.subset (hseen t ht)
  · exact List.mem_singleton.1 ht ▸ hafter.mem

/-- How the walk ends: every declared target is finished, or the declarations have a fault. -/
theorem walk_ends (declared : Declarations) :
    Ends (fun r => Finished declared r ∧ ∀ t, IsDeclared declared t → t ∈ r.order)
      (Fault declared) (walk declared) := by
  have hstart : Walking declared (declared.map Prod.fst) .empty := ⟨.empty, [], rfl, by simp⟩
  refine (Ends.foldlM (Walking declared) visit_walking hstart).mono ?_ fun _ he => he
  rintro r ⟨hr, seen, hall, hseen⟩
  rw [List.append_nil] at hall
  exact ⟨hr, fun t ht => hseen t (hall ▸ ht)⟩

theorem finished_of_walk {r : Resolution} (hwalk : walk declared = .ok r) : Finished declared r :=
  ((walk_ends declared).of_eq_ok hwalk).1

theorem mem_order_of_walk {r : Resolution} {t : Target} (hwalk : walk declared = .ok r)
    (ht : IsDeclared declared t) : t ∈ r.order :=
  ((walk_ends declared).of_eq_ok hwalk).2 t ht

end Makewright.Order
