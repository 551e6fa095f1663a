/-!
# Lists that hold every member once

Collecting in the order of the first appearance: `addOnce` appends a newcomer, `addAllOnce` appends
the newcomers of a list one after the other, and `distinct` keeps the first appearance of every
member of a list.
-/

set_option autoImplicit false

namespace Makewright

theorem nodup_append_singleton {α : Type} {xs : List α} (h : xs.Nodup) {x : α} (hx : x ∉ xs) :
    (xs ++ [x]).Nodup := by
  rw [List.nodup_append]
  refine ⟨h, by simp, ?_⟩
  intro a ha b hb hab
  rw [List.mem_singleton] at hb
  exact hx (hb ▸ hab ▸ ha)

variable {α : Type} [DecidableEq α]

/-- Append a member unless it is there. -/
def addOnce (xs : List α) (x : α) : List α :=
  if x ∈ xs then xs else xs ++ [x]

/-- Append the members that are not there yet, one after the other. -/
def addAllOnce (xs ys : List α) : List α :=
  ys.foldl addOnce xs

/-- The members of a list in the order of their first appearance. -/
def distinct (xs : List α) : List α :=
  addAllOnce [] xs

theorem mem_addOnce {xs : List α} {x y : α} : y ∈ addOnce xs x ↔ y ∈ xs ∨ y = x := by
  unfold addOnce
  split
  · next h =>
    constructor
    · exact Or.inl
    · rintro (hy | rfl)
      · exact hy
      · exact h
  · simp

theorem mem_addAllOnce {xs ys : List α} {y : α} : y ∈ addAllOnce xs ys ↔ y ∈ xs ∨ y ∈ ys := by
  induction ys generalizing xs with
  | nil => simp [addAllOnce]
  | cons z rest ih =>
    have step : addAllOnce xs (z :: rest) = addAllOnce (addOnce xs z) rest := rfl
    rw [step, ih, mem_addOnce, List.mem_cons, or_assoc]

theorem addAllOnce_append (xs ys zs : List α) :
    addAllOnce xs (ys ++ zs) = addAllOnce (addAllOnce xs ys) zs :=
  List.foldl_append

/-- Members that are there already add nothing. -/
theorem addAllOnce_of_subset {xs ys : List α} (h : ys ⊆ xs) : addAllOnce xs ys = xs := by
  induction ys with
  | nil => rfl
  | cons y rest ih =>
    have hy : addOnce xs y = xs := if_pos (h List.mem_cons_self)
    change addAllOnce (addOnce xs y) rest = xs
    rw [hy]
    exact ih fun z hz => h (List.mem_cons_of_mem y hz)

theorem addAllOnce_addOnce (xs ys : List α) (y : α) :
    addAllOnce xs (addOnce ys y) = addOnce (addAllOnce xs ys) y := by
  by_cases hy : y ∈ ys
  · have hthere : y ∈ addAllOnce xs ys := mem_addAllOnce.2 (Or.inr hy)
    rw [addOnce, if_pos hy, addOnce, if_pos hthere]
  · rw [addOnce, if_neg hy, addAllOnce_append]
    rfl

theorem addAllOnce_addAllOnce (xs ys zs : List α) :
    addAllOnce xs (addAllOnce ys zs) = addAllOnce (addAllOnce xs ys) zs := by
  induction zs generalizing ys with
  | nil => rfl
  | cons z rest ih =>
    change addAllOnce xs (addAllOnce (addOnce ys z) rest) =
      addAllOnce (addOnce (addAllOnce xs ys) z) rest
    rw [ih, addAllOnce_addOnce]

/-- Only the first appearances count. -/
theorem addAllOnce_distinct (xs ys : List α) : addAllOnce xs (distinct ys) = addAllOnce xs ys :=
  addAllOnce_addAllOnce xs [] ys

theorem mem_distinct {xs : List α} {y : α} : y ∈ distinct xs ↔ y ∈ xs := by
  simp [distinct, mem_addAllOnce]

theorem nodup_addOnce {xs : List α} (h : xs.Nodup) (x : α) : (addOnce xs x).Nodup := by
  unfold addOnce
  split
  · exact h
  · next hx => exact nodup_append_singleton h hx

theorem nodup_addAllOnce {xs : List α} (h : xs.Nodup) (ys : List α) : (addAllOnce xs ys).Nodup := by
  induction ys generalizing xs with
  | nil => exact h
  | cons z rest ih => exact ih (nodup_addOnce h z)

theorem nodup_distinct (xs : List α) : (distinct xs).Nodup :=
  nodup_addAllOnce .nil xs

end Makewright
