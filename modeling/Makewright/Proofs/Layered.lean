import Makewright.Distinct
import Mathlib.Data.List.Induction
import Mathlib.Logic.Relation

/-!
# Layered lists

A list is layered by a relation if everything that a member is related to stands before it. This is
what it means that a list of targets is in dependency order. A layered list is layered by the
transitive closure as well, so none of its members reaches itself; and collecting layered lists one
behind the other, each member once, keeps the order.
-/

set_option autoImplicit false

namespace Makewright

variable {α : Type} {R : α → α → Prop}

/-- Everything that a member of the list is related to stands before it. -/
def Layered (R : α → α → Prop) (xs : List α) : Prop :=
  ∀ front x back, xs = front ++ x :: back → ∀ y, R x y → y ∈ front

theorem layered_nil : Layered R [] := by
  intro front x back h
  simp at h

theorem layered_append_singleton {xs : List α} {x : α} :
    Layered R (xs ++ [x]) ↔ Layered R xs ∧ ∀ y, R x y → y ∈ xs := by
  constructor
  · intro h
    refine ⟨?_, h xs x [] rfl⟩
    intro front z back hxs
    exact h front z (back ++ [x]) (by simp [hxs])
  · rintro ⟨hxs, hx⟩ front z back heq
    -- the last member of the list is either `x` itself or a member behind `z`
    rcases List.eq_nil_or_concat back with rfl | ⟨back, w, rfl⟩
    · obtain ⟨rfl, hzx⟩ := List.append_inj' heq rfl
      obtain rfl : x = z := by simpa using hzx
      exact hx
    · have heq' : xs ++ [x] = (front ++ z :: back) ++ [w] := by simpa using heq
      obtain ⟨hfront, -⟩ := List.append_inj' heq' rfl
      exact hxs front z back hfront

theorem Layered.mem_of_rel {xs : List α} (h : Layered R xs) {x y : α} (hx : x ∈ xs)
    (hxy : R x y) : y ∈ xs := by
  obtain ⟨front, back, rfl⟩ := List.append_of_mem hx
  exact List.mem_append_left _ (h front x back rfl y hxy)

theorem Layered.transGen {xs : List α} (h : Layered R xs) : Layered (Relation.TransGen R) xs := by
  intro front x back heq y hxy
  induction hxy with
  | single hy => exact h front x back heq _ hy
  | @tail b c _ hbc ih =>
    obtain ⟨before, between, rfl⟩ := List.append_of_mem ih
    have hc := h before b (between ++ x :: back) (by simp [heq]) c hbc
    exact List.mem_append_left _ hc

/-- No member of a layered list reaches itself. -/
theorem Layered.irrefl {xs : List α} (h : Layered R xs) {x : α} (hx : x ∈ xs) :
    ¬ Relation.TransGen R x x := by
  intro hxx
  obtain ⟨front, back, heq, hfirst⟩ := List.eq_append_cons_of_mem hx
  exact hfirst (h.transGen front x back heq x hxx)

section Collecting

variable [DecidableEq α]

theorem Layered.addOnce {xs : List α} (h : Layered R xs) {x : α} (hx : ∀ y, R x y → y ∈ xs) :
    Layered R (addOnce xs x) := by
  unfold Makewright.addOnce
  split
  · exact h
  · exact layered_append_singleton.2 ⟨h, hx⟩

theorem Layered.addAllOnce {xs ys : List α} (hxs : Layered R xs) (hys : Layered R ys) :
    Layered R (addAllOnce xs ys) := by
  induction ys using List.reverseRecOn with
  | nil => exact hxs
  | append_singleton ys y ih =>
    obtain ⟨hfront, hy⟩ := layered_append_singleton.1 hys
    rw [addAllOnce_append]
    refine (ih hfront).addOnce fun z hz => ?_
    exact mem_addAllOnce.2 (Or.inr (hy z hz))

theorem layered_addAllOnce_flatMap {β : Type} {f : β → List α} {ds : List β} {xs : List α}
    (hxs : Layered R xs) (hds : ∀ d ∈ ds, Layered R (f d)) :
    Layered R (Makewright.addAllOnce xs (ds.flatMap f)) := by
  induction ds generalizing xs with
  | nil => exact hxs
  | cons d rest ih =>
    rw [List.flatMap_cons, addAllOnce_append]
    refine ih (hxs.addAllOnce (hds d List.mem_cons_self)) fun e he => ?_
    exact hds e (List.mem_cons_of_mem d he)

/-- Layered lists collected one behind the other are layered. -/
theorem layered_distinct_flatMap {β : Type} {f : β → List α} {ds : List β}
    (hds : ∀ d ∈ ds, Layered R (f d)) : Layered R (distinct (ds.flatMap f)) :=
  layered_addAllOnce_flatMap layered_nil hds

end Collecting

end Makewright
