import Makewright.Graph.Order
import Makewright.Proofs.Layered
import Mathlib.Data.List.Basic

/-!
# Finished targets

`Finished` describes the resolutions that come about when targets are finished one after the other:
each is finished once, it is declared, and everything it lists has been finished before it. Nothing
is said here about the walk that chooses the next target.

From it the shape of a resolution follows by induction on the targets that were finished. The order
is layered by the declared dependencies, so no finished target reaches itself, and what stands below
a finished target is its closure (`IsClosure`): the targets that it reaches, each once and each
behind what it reaches itself.
-/

set_option autoImplicit false

namespace Makewright.Order

open Relation

variable {declared : Declarations} {r : Resolution}

/-- The target `a` lists `b` as a dependency. -/
def DependsOn (declared : Declarations) (a b : Target) : Prop :=
  b ∈ declared.listed a

/-- The target has a declaration. -/
def IsDeclared (declared : Declarations) (target : Target) : Prop :=
  target ∈ declared.map Prod.fst

/-- The closure that a target gets when everything it lists is finished. -/
def closureFrom (declared : Declarations) (r : Resolution) (target : Target) : List Target :=
  distinct ((declared.listed target).flatMap fun d => r.below d ++ [d])

/-- The resolutions that finishing one declared target after the other makes, each after all that it
lists. -/
inductive Finished (declared : Declarations) : Resolution → Prop
  | empty : Finished declared .empty
  | finish {r : Resolution} {target : Target} :
      Finished declared r → target ∉ r.order → IsDeclared declared target →
      (∀ d ∈ declared.listed target, d ∈ r.order) →
      Finished declared (r.finish target (closureFrom declared r target))

/-- The list holds the targets that `target` reaches, each once and each behind what it depends on
itself. -/
structure IsClosure (declared : Declarations) (target : Target) (closure : List Target) :
    Prop where
  mem_iff : ∀ d, d ∈ closure ↔ TransGen (DependsOn declared) target d
  nodup : closure.Nodup
  layered : Layered (DependsOn declared) closure

theorem lookup_eq_none_iff_not_key {entries : List (Target × List Target)} {target : Target} :
    entries.lookup target = none ↔ target ∉ entries.map Prod.fst := by
  rw [List.lookup_eq_none_iff, List.mem_map]
  constructor
  · rintro h ⟨entry, hentry, rfl⟩
    simpa using h entry hentry
  · intro h entry hentry
    rw [bne_iff_ne]
    rintro rfl
    exact h ⟨entry, hentry, rfl⟩

theorem lookup_isNone_iff {target : Target} :
    (declared.lookup target).isNone ↔ ¬ IsDeclared declared target := by
  rw [Option.isNone_iff_eq_none, lookup_eq_none_iff_not_key]
  rfl

/-- A target that is not declared lists nothing. -/
theorem DependsOn.isDeclared {a b : Target} (h : DependsOn declared a b) :
    IsDeclared declared a := by
  by_contra hundeclared
  have hnone := Option.isNone_iff_eq_none.1 (lookup_isNone_iff.2 hundeclared)
  simp [DependsOn, Declarations.listed, hnone] at h

namespace Finished

theorem closures_keys (h : Finished declared r) : r.closures.map Prod.fst = r.order := by
  induction h with
  | empty => rfl
  | finish _ _ _ _ ih => simp [Resolution.finish, ih]

theorem nodup (h : Finished declared r) : r.order.Nodup := by
  induction h with
  | empty => exact .nil
  | finish _ hnew _ _ ih => exact nodup_append_singleton ih hnew

theorem isDeclared (h : Finished declared r) : ∀ t ∈ r.order, IsDeclared declared t := by
  induction h with
  | empty => simp [Resolution.empty]
  | finish _ _ hdeclared _ ih =>
    intro t ht
    rcases List.mem_append.1 ht with ht | ht
    · exact ih t ht
    · exact List.mem_singleton.1 ht ▸ hdeclared

theorem layered (h : Finished declared r) : Layered (DependsOn declared) r.order := by
  induction h with
  | empty => exact layered_nil
  | finish _ _ _ hlisted ih => exact layered_append_singleton.2 ⟨ih, hlisted⟩

/-- Every finished target has a closure. -/
theorem exists_closure? (h : Finished declared r) {t : Target} (ht : t ∈ r.order) :
    ∃ closure, r.closure? t = some closure := by
  rw [← Option.ne_none_iff_exists', Resolution.closure?, Ne, lookup_eq_none_iff_not_key, not_not,
    h.closures_keys]
  exact ht

theorem closure?_eq_below (h : Finished declared r) {t : Target} (ht : t ∈ r.order) :
    r.closure? t = some (r.below t) := by
  obtain ⟨closure, hclosure⟩ := h.exists_closure? ht
  rw [Resolution.below, hclosure, Option.getD_some]

/-- Finishing one more target leaves what stands below the others. -/
theorem below_finish_of_mem (h : Finished declared r) {t target : Target} (ht : t ∈ r.order)
    (closure : List Target) : (r.finish target closure).below t = r.below t := by
  obtain ⟨c, hc⟩ := h.exists_closure? ht
  rw [Resolution.closure?] at hc
  simp [Resolution.below, Resolution.closure?, Resolution.finish, List.lookup_append, hc]

/-- A target that is new gets the closure it is finished with. -/
theorem below_finish_self (h : Finished declared r) {target : Target} (hnew : target ∉ r.order)
    (closure : List Target) : (r.finish target closure).below target = closure := by
  have hnone : r.closures.lookup target = none := by
    rw [lookup_eq_none_iff_not_key, h.closures_keys]
    exact hnew
  simp [Resolution.below, Resolution.closure?, Resolution.finish, List.lookup_append, hnone]

/-- What is collected for a target whose dependencies have their closures is its closure. -/
theorem isClosure_closureFrom {target : Target}
    (hbelow : ∀ d ∈ declared.listed target, IsClosure declared d (r.below d)) :
    IsClosure declared target (closureFrom declared r target) where
  mem_iff d := by
    simp only [closureFrom, mem_distinct, List.mem_flatMap, List.mem_append, List.mem_singleton]
    rw [TransGen.head'_iff]
    constructor
    · rintro ⟨e, he, hd | rfl⟩
      · exact ⟨e, he, (((hbelow e he).mem_iff d).1 hd).to_reflTransGen⟩
      · exact ⟨d, he, .refl⟩
    · rintro ⟨e, he, hed⟩
      rcases reflTransGen_iff_eq_or_transGen.1 hed with rfl | hed
      · exact ⟨d, he, Or.inr rfl⟩
      · exact ⟨e, he, Or.inl (((hbelow e he).mem_iff d).2 hed)⟩
  nodup := nodup_distinct _
  layered := by
    refine layered_distinct_flatMap fun d hd => ?_
    refine layered_append_singleton.2 ⟨(hbelow d hd).layered, fun e he => ?_⟩
    exact ((hbelow d hd).mem_iff e).2 (.single he)

/-- What stands below a finished target is its closure. -/
theorem isClosure_below (h : Finished declared r) :
    ∀ t ∈ r.order, IsClosure declared t (r.below t) := by
  induction h with
  | empty => simp [Resolution.empty]
  | @finish r target hr hnew _ hlisted ih =>
    intro t ht
    rcases List.mem_append.1 ht with ht | ht
    · rw [hr.below_finish_of_mem ht]
      exact ih t ht
    · rw [List.mem_singleton.1 ht, hr.below_finish_self hnew]
      exact isClosure_closureFrom fun d hd => ih d (hlisted d hd)

/-- What stands below a finished target is finished as well. -/
theorem mem_of_mem_below (h : Finished declared r) {t d : Target} (ht : t ∈ r.order)
    (hd : d ∈ r.below t) : d ∈ r.order :=
  h.layered.transGen.mem_of_rel ht (((h.isClosure_below t ht).mem_iff d).1 hd)

/-- What stands below a finished target is collected from what stands below the targets that it
lists. -/
theorem below_eq (h : Finished declared r) :
    ∀ t ∈ r.order, r.below t = closureFrom declared r t := by
  induction h with
  | empty => simp [Resolution.empty]
  | @finish r target hr hnew _ hlisted ih =>
    -- what the targets of a list have below them stays the same
    have hkept : ∀ {t : Target}, (∀ d ∈ declared.listed t, d ∈ r.order) →
        closureFrom declared (r.finish target (closureFrom declared r target)) t =
          closureFrom declared r t := by
      intro t hmem
      unfold closureFrom
      refine congrArg distinct (List.flatMap_congr fun d hd => ?_)
      rw [hr.below_finish_of_mem (hmem d hd)]
    intro t ht
    rcases List.mem_append.1 ht with ht | ht
    · rw [hr.below_finish_of_mem ht, hkept fun d hd => hr.layered.mem_of_rel ht hd]
      exact ih t ht
    · rw [List.mem_singleton.1 ht, hr.below_finish_self hnew, hkept hlisted]

/-- What stands below a target does not depend on what else is declared: two resolutions agree on
the targets that they share, if these list the same dependencies in both. -/
theorem below_agree {other : Declarations} {s : Resolution} (h : Finished declared r)
    (hs : Finished other s)
    (hlisted : ∀ t ∈ r.order, t ∈ s.order → declared.listed t = other.listed t) :
    ∀ t ∈ r.order, t ∈ s.order → r.below t = s.below t := by
  induction h with
  | empty => simp [Resolution.empty]
  | @finish r target hr hnew _ hdone ih =>
    have hearlier := ih fun t ht => hlisted t (List.mem_append_left _ ht)
    intro t ht hts
    rcases List.mem_append.1 ht with ht | ht
    · rw [hr.below_finish_of_mem ht]
      exact hearlier t ht hts
    · obtain rfl := List.mem_singleton.1 ht
      have hsame := hlisted t (List.mem_append_right _ ht) hts
      rw [hr.below_finish_self hnew, hs.below_eq t hts]
      unfold closureFrom
      rw [hsame]
      refine congrArg distinct (List.flatMap_congr fun d hd => ?_)
      rw [hearlier d (hdone d (hsame ▸ hd)) (hs.layered.mem_of_rel hts hd)]

end Finished

end Makewright.Order
