import Makewright.Proofs.Order.Walk

/-!
# The walk and plain expansion

The expansion of a target follows the dependencies that are listed all the way down and takes no
notice of what it has met before: what stands below a target is what stands below each of its
dependencies in turn, with the dependency behind it, and of repeated targets the first one counts.

The walk skips whatever is finished, and comes to the same lists. If it succeeds, the closure of
every target is its expansion (`expand_eq_below`), and the order is what the expansions of all
declared targets make, one behind the other (`order_eq_of_walk`). The reason is that the finished
targets are closed under dependencies at any time, so that a target that is skipped would add
nothing.
-/

set_option autoImplicit false

namespace Makewright.Order

open Relation

namespace Declarations

/-- The expansion of a target, with dependencies followed down to a depth. -/
def expandTo (declared : Declarations) : Nat → Target → List Target
  | 0, _ => []
  | depth + 1, target =>
    distinct ((declared.listed target).flatMap fun d => declared.expandTo depth d ++ [d])

/-- The expansion of a target. Without cycles no path is longer than the list of declarations. -/
def expand (declared : Declarations) (target : Target) : List Target :=
  declared.expandTo declared.length target

/-- The expansion of a target, and then the target. -/
def upTo (declared : Declarations) (target : Target) : List Target :=
  declared.expand target ++ [target]

end Declarations

variable {declared : Declarations} {r : Resolution} {t d : Target}

/-! ## Closures are expansions -/

namespace Finished

/-- What stands below finished targets is found at a depth of as many targets as are finished. -/
theorem expandTo_eq (h : Finished declared r) {depth : Nat} (hdepth : r.order.length ≤ depth) :
    ∀ t ∈ r.order, declared.expandTo depth t = r.below t := by
  induction h generalizing depth with
  | empty => simp [Resolution.empty]
  | @finish r target hr hnew _ hlisted ih =>
    -- the target that is finished last takes one level of the depth
    have hlength : r.order.length + 1 ≤ depth := by
      simpa [Resolution.finish] using hdepth
    obtain ⟨depth, rfl⟩ := Nat.exists_eq_add_of_lt (Nat.lt_of_lt_of_le (Nat.succ_pos _) hlength)
    rw [Nat.zero_add] at hlength ⊢
    intro t ht
    rcases List.mem_append.1 ht with ht | ht
    · rw [hr.below_finish_of_mem ht]
      exact ih (by omega) t ht
    · rw [List.mem_singleton.1 ht, hr.below_finish_self hnew]
      refine congrArg distinct (List.flatMap_congr fun d hd => ?_)
      rw [ih (by omega) d (hlisted d hd)]

theorem length_order_le (h : Finished declared r) : r.order.length ≤ declared.length := by
  have hsubset : r.order ⊆ declared.map Prod.fst := h.isDeclared
  simpa using (List.subperm_of_subset h.nodup hsubset).length_le

theorem expand_eq_below (h : Finished declared r) (ht : t ∈ r.order) :
    declared.expand t = r.below t :=
  h.expandTo_eq h.length_order_le t ht

/-- Whatever follows the dependencies in the way the expansion does finds what stands below. -/
theorem eq_below_of_unfolds (h : Finished declared r) {f : Target → List Target}
    (hf : ∀ t, f t = distinct ((declared.listed t).flatMap fun d => f d ++ [d])) :
    ∀ t ∈ r.order, f t = r.below t := by
  induction h with
  | empty => simp [Resolution.empty]
  | @finish r target hr hnew _ hlisted ih =>
    intro t ht
    rcases List.mem_append.1 ht with ht | ht
    · rw [hr.below_finish_of_mem ht]
      exact ih t ht
    · rw [List.mem_singleton.1 ht, hr.below_finish_self hnew, hf]
      refine congrArg distinct (List.flatMap_congr fun d hd => ?_)
      rw [ih d (hlisted d hd)]

end Finished

theorem listed_eq_nil (h : ¬ IsDeclared declared t) : declared.listed t = [] := by
  rw [List.eq_nil_iff_forall_not_mem]
  exact fun d hd => h (DependsOn.isDeclared hd)

theorem expand_eq_nil (h : ¬ IsDeclared declared t) : declared.expand t = [] := by
  unfold Declarations.expand
  cases declared.length with
  | zero => rfl
  | succ depth => rw [Declarations.expandTo, listed_eq_nil h]; rfl

/-- Where the loop over the dependencies of a target stands: the dependencies `rest` are still to
come, and what the others expand to has been added to the targets finished before. -/
def Gathering (declared : Declarations) (target : Target) (before : Resolution)
    (rest : List Target) (state : Resolution × List Target) : Prop :=
  ∃ seen, declared.listed target = seen ++ rest ∧
    state.1.order = addAllOnce before.order (seen.flatMap declared.upTo)

/-- Where the walk stands: the targets `rest` are still to come, and the order holds what the others
expand to. -/
def Unfolding (declared : Declarations) (rest : List Target) (done : Resolution) : Prop :=
  ∃ seen, declared.map Prod.fst = seen ++ rest ∧
    done.order = distinct (seen.flatMap declared.upTo)

section Walked

variable (hwalk : walk declared = .ok r)

include hwalk

/-- The expansion of a target is made of the expansions of its dependencies. -/
theorem expand_eq (t : Target) :
    declared.expand t = distinct ((declared.listed t).flatMap declared.upTo) := by
  by_cases hdeclared : IsDeclared declared t
  · have hfinished := finished_of_walk hwalk
    have ht := mem_order_of_walk hwalk hdeclared
    rw [hfinished.expand_eq_below ht, hfinished.below_eq t ht]
    refine congrArg distinct (List.flatMap_congr fun d hd => ?_)
    rw [Declarations.upTo, hfinished.expand_eq_below (hfinished.layered.mem_of_rel ht hd)]
  · rw [expand_eq_nil hdeclared, listed_eq_nil hdeclared]
    rfl

/-- The expansion is the only function that follows the dependencies in this way. -/
theorem unfolds_iff (f : Target → List Target) :
    (∀ t, f t = distinct ((declared.listed t).flatMap fun d => f d ++ [d])) ↔
      f = declared.expand := by
  constructor
  · intro hf
    funext t
    by_cases hdeclared : IsDeclared declared t
    · have hfinished := finished_of_walk hwalk
      have ht := mem_order_of_walk hwalk hdeclared
      rw [hfinished.eq_below_of_unfolds hf t ht, hfinished.expand_eq_below ht]
    · rw [hf, expand_eq_nil hdeclared, listed_eq_nil hdeclared]
      rfl
  · rintro rfl
    exact expand_eq hwalk

/-- The expansion holds the targets that are reached. -/
theorem mem_expand_iff : d ∈ declared.expand t ↔ TransGen (DependsOn declared) t d := by
  by_cases hdeclared : IsDeclared declared t
  · have hfinished := finished_of_walk hwalk
    have ht := mem_order_of_walk hwalk hdeclared
    rw [hfinished.expand_eq_below ht]
    exact (hfinished.isClosure_below t ht).mem_iff d
  · rw [expand_eq_nil hdeclared]
    refine iff_of_false List.not_mem_nil fun hreaches => ?_
    obtain ⟨b, hb, -⟩ := TransGen.head'_iff.1 hreaches
    exact hdeclared hb.isDeclared

theorem not_mem_expand (t : Target) : t ∉ declared.expand t := by
  intro hself
  have hreaches := (mem_expand_iff hwalk).1 hself
  obtain ⟨b, hb, -⟩ := TransGen.head'_iff.1 hreaches
  exact (finished_of_walk hwalk).layered.irrefl (mem_order_of_walk hwalk hb.isDeclared) hreaches

/-! ## The order is made of expansions -/

/-- A list that is closed under dependencies holds the expansions of its members. -/
theorem upTo_subset {xs : List Target} (hclosed : ∀ a ∈ xs, declared.listed a ⊆ xs)
    (ht : t ∈ xs) : declared.upTo t ⊆ xs := by
  refine List.append_subset.2 ⟨fun d hd => ?_, by simpa using ht⟩
  have hreaches := (mem_expand_iff hwalk).1 hd
  clear hd
  induction hreaches with
  | single hb => exact hclosed t ht hb
  | tail _ hc ih => exact hclosed _ ih hc

/-- Adding expansions to a list that is closed under dependencies leaves it closed. -/
theorem closed_addAllOnce {xs : List Target} (hclosed : ∀ a ∈ xs, declared.listed a ⊆ xs)
    (ts : List Target) : ∀ a ∈ addAllOnce xs (ts.flatMap declared.upTo),
      declared.listed a ⊆ addAllOnce xs (ts.flatMap declared.upTo) := by
  intro a ha d hd
  rcases mem_addAllOnce.1 ha with hold | hnew
  · exact mem_addAllOnce.2 (.inl (hclosed a hold hd))
  · obtain ⟨t, ht, hat⟩ := List.mem_flatMap.1 hnew
    refine mem_addAllOnce.2 (.inr (List.mem_flatMap.2 ⟨t, ht, List.mem_append_left _ ?_⟩))
    rcases List.mem_append.1 hat with hbelow | hself
    · exact (mem_expand_iff hwalk).2 (((mem_expand_iff hwalk).1 hbelow).tail hd)
    · obtain rfl := List.mem_singleton.1 hself
      exact (mem_expand_iff hwalk).2 (.single hd)

/-- One more dependency is visited, which adds what it expands to. -/
theorem advance_gathers (target : Target) {before : Resolution}
    {finish : Resolution → Target → Except BuildError Resolution}
    (hclosed : ∀ a ∈ before.order, declared.listed a ⊆ before.order)
    (hfinish : ∀ done d, (∀ a ∈ done.order, declared.listed a ⊆ done.order) →
      Ends (fun after => after.order = addAllOnce done.order (declared.upTo d)) (fun _ => True)
        (finish done d))
    (dependency : Target) (rest : List Target) (state : Resolution × List Target)
    (h : Gathering declared target before (dependency :: rest) state) :
    Ends (Gathering declared target before rest) (fun _ => True)
      (advance declared target finish state dependency) := by
  obtain ⟨done, closure⟩ := state
  obtain ⟨seen, hlisted, horder⟩ := h
  replace horder : done.order = addAllOnce before.order (seen.flatMap declared.upTo) := horder
  rw [advance]
  split
  · trivial
  · have hdone : ∀ a ∈ done.order, declared.listed a ⊆ done.order := by
      rw [horder]
      exact closed_addAllOnce hwalk hclosed seen
    refine .bind ((hfinish done dependency hdone).mono (fun after hafter => ?_) fun _ he => he)
    refine ⟨seen ++ [dependency], by simp [hlisted], ?_⟩
    change after.order = _
    rw [hafter, List.flatMap_append, addAllOnce_append, List.flatMap_singleton, ← horder]

/-- Once all dependencies are gathered, finishing the target has added what it expands to. -/
theorem order_finish_of_gathering {target : Target} {before after : Resolution}
    (hnew : target ∉ before.order) {closure : List Target}
    (h : Gathering declared target before [] (after, closure)) :
    (after.finish target closure).order = addAllOnce before.order (declared.upTo target) := by
  obtain ⟨seen, hlisted, horder⟩ := h
  rw [List.append_nil] at hlisted
  have hexpanded : after.order = addAllOnce before.order (declared.expand target) := by
    rw [expand_eq hwalk, addAllOnce_distinct, hlisted]
    exact horder
  have hlast : target ∉ addAllOnce before.order (declared.expand target) := by
    rw [mem_addAllOnce, not_or]
    exact ⟨hnew, not_mem_expand hwalk target⟩
  calc (after.finish target closure).order
    _ = addAllOnce before.order (declared.expand target) ++ [target] := by rw [← hexpanded]; rfl
    _ = addOnce (addAllOnce before.order (declared.expand target)) target := (if_neg hlast).symm
    _ = addAllOnce before.order (declared.upTo target) :=
      (addAllOnce_append before.order (declared.expand target) [target]).symm

/-- A visit adds what the target expands to, if the finished targets are closed under
dependencies. -/
theorem visit_adds {fuel : Nat} {trail : List Target} {done : Resolution} {target : Target}
    (hclosed : ∀ a ∈ done.order, declared.listed a ⊆ done.order) :
    Ends (fun after => after.order = addAllOnce done.order (declared.upTo target)) (fun _ => True)
      (visit declared fuel trail done target) := by
  induction fuel generalizing trail done target with
  | zero =>
    rw [visit]
    split_ifs with hthere
    -- a target that is finished is skipped, and what it expands to is finished as well
    · exact (addAllOnce_of_subset (upTo_subset hwalk hclosed hthere)).symm
    · trivial
    · trivial
  | succ fuel ih =>
    rw [visit]
    split_ifs with hthere
    · exact (addAllOnce_of_subset (upTo_subset hwalk hclosed hthere)).symm
    · trivial
    -- any other one is visited behind its dependencies, each of which adds what it expands to
    · have hstart : Gathering declared target done (declared.listed target) (done, []) :=
        ⟨[], rfl, rfl⟩
      have hstep := advance_gathers hwalk target hclosed
        fun done d (hdone : ∀ a ∈ done.order, declared.listed a ⊆ done.order) =>
          @ih (trail ++ [target]) done d hdone
      have hloop := Ends.foldlM (Gathering declared target done) hstep hstart
      refine .bind (hloop.mono ?_ fun _ he => he)
      rintro ⟨after, closure⟩ hgathered
      exact order_finish_of_gathering hwalk hthere hgathered

/-- One more declared target is visited. -/
theorem visit_unfolds (target : Target) (rest : List Target) (done : Resolution)
    (h : Unfolding declared (target :: rest) done) :
    Ends (Unfolding declared rest) (fun _ => True)
      (visit declared declared.length [] done target) := by
  obtain ⟨seen, hall, horder⟩ := h
  have hclosed : ∀ a ∈ done.order, declared.listed a ⊆ done.order := by
    have hnone : ∀ a ∈ ([] : List Target), declared.listed a ⊆ [] := by simp
    rw [horder]
    exact closed_addAllOnce hwalk hnone seen
  refine (visit_adds hwalk hclosed).mono (fun after hafter => ?_) fun _ he => he
  refine ⟨seen ++ [target], by simp [hall], ?_⟩
  rw [hafter, horder, List.flatMap_append, List.flatMap_singleton]
  exact (addAllOnce_append [] _ _).symm

/-- The order holds what the declared targets expand to, one behind the other. -/
theorem order_eq_of_walk : r.order = distinct ((declared.map Prod.fst).flatMap declared.upTo) := by
  have hstart : Unfolding declared (declared.map Prod.fst) .empty := ⟨[], rfl, rfl⟩
  obtain ⟨seen, hall, horder⟩ :=
    (Ends.foldlM (Unfolding declared) (visit_unfolds hwalk) hstart).of_eq_ok hwalk
  rw [List.append_nil] at hall
  rw [hall]
  exact horder

end Walked

end Makewright.Order
