import Makewright.Distinct
import Mathlib.Data.List.Induction
import Mathlib.Data.List.Nodup
import Mathlib.Data.List.Perm.Basic

/-!
# Which member a list comes to first

Going through a list, one comes to one of two members before the other (`MeetsFirst`). The first
appearances of the members keep that order, and a list is left as a subsequence by keeping first
appearances exactly if it repeats nothing and its members are first met in its own order
(`sublist_distinct_iff`).
-/

set_option autoImplicit false

namespace Makewright

variable {α β : Type} {xs ys : List α} {a b : α}

/-- Going through a list, one comes to `a` and has not come to `b` yet. -/
def MeetsFirst (xs : List α) (a b : α) : Prop :=
  ∃ front back, xs = front ++ a :: back ∧ b ∉ front

/-- The members with a property have a first one among them. -/
theorem exists_first {P : α → Prop} (h : ∃ x ∈ xs, P x) :
    ∃ front x back, xs = front ++ x :: back ∧ P x ∧ ∀ y ∈ front, ¬ P y := by
  classical
  obtain ⟨x, hx, hP⟩ := h
  have hsome : (xs.find? fun y => decide (P y)).isSome := by
    rw [List.find?_isSome]
    exact ⟨x, hx, decide_eq_true hP⟩
  obtain ⟨first, hfirst⟩ := Option.isSome_iff_exists.1 hsome
  obtain ⟨hPfirst, front, back, heq, hfront⟩ := List.find?_eq_some_iff_append.1 hfirst
  refine ⟨front, first, back, heq, of_decide_eq_true hPfirst, ?_⟩
  intro y hy
  simpa using hfront y hy

namespace MeetsFirst

theorem of_mem (ha : a ∈ xs) (hb : b ∉ xs) : MeetsFirst xs a b := by
  obtain ⟨front, back, rfl⟩ := List.append_of_mem ha
  exact ⟨front, back, rfl, fun h => hb (List.mem_append_left _ h)⟩

theorem append_right (h : MeetsFirst xs a b) (ys : List α) : MeetsFirst (xs ++ ys) a b := by
  obtain ⟨front, back, rfl, hb⟩ := h
  exact ⟨front, back ++ ys, by simp, hb⟩

theorem append_left (hb : b ∉ xs) (h : MeetsFirst ys a b) : MeetsFirst (xs ++ ys) a b := by
  obtain ⟨front, back, rfl, hfront⟩ := h
  refine ⟨xs ++ front, back, by simp, ?_⟩
  rw [List.mem_append]
  exact not_or.2 ⟨hb, hfront⟩

theorem filter {p : α → Bool} (hp : p a = true) (h : MeetsFirst xs a b) :
    MeetsFirst (xs.filter p) a b := by
  obtain ⟨front, back, rfl, hb⟩ := h
  refine ⟨front.filter p, back.filter p, by simp [hp], ?_⟩
  exact fun hmem => hb (List.mem_filter.1 hmem).1

theorem flatMap {f : β → List α} {front back : List β} {d : β}
    (hfront : ∀ x ∈ front, b ∉ f x) (h : MeetsFirst (f d) a b) :
    MeetsFirst ((front ++ d :: back).flatMap f) a b := by
  have hb : b ∉ front.flatMap f := by
    intro hmem
    obtain ⟨x, hx, hbx⟩ := List.mem_flatMap.1 hmem
    exact hfront x hx hbx
  rw [List.flatMap_append, List.flatMap_cons]
  exact append_left hb (h.append_right _)

variable [DecidableEq α]

theorem addAllOnce (h : MeetsFirst xs a b) (ys : List α) : MeetsFirst (addAllOnce xs ys) a b := by
  induction ys generalizing xs with
  | nil => exact h
  | cons y rest ih =>
    refine ih ?_
    unfold addOnce
    split
    · exact h
    · exact h.append_right [y]

/-- Keeping first appearances only does not change which member comes first. -/
theorem distinct (h : MeetsFirst xs a b) : MeetsFirst (distinct xs) a b := by
  obtain ⟨front, back, rfl, hb⟩ := h
  have hkept : b ∉ Makewright.distinct front := by rwa [mem_distinct]
  have hcollect : Makewright.distinct (front ++ a :: back) =
      Makewright.addAllOnce (addOnce (Makewright.distinct front) a) back := by
    rw [Makewright.distinct, addAllOnce_append]
    rfl
  rw [hcollect]
  refine addAllOnce ?_ back
  unfold addOnce
  split
  · next ha => exact of_mem ha hkept
  · exact ⟨Makewright.distinct front, [], rfl, hkept⟩

end MeetsFirst

theorem MeetsFirst.sublist (h : MeetsFirst xs a b) (hb : b ∈ xs) (hab : a ≠ b) :
    [a, b].Sublist xs := by
  obtain ⟨front, back, rfl, hfront⟩ := h
  have hback : b ∈ back := by simpa [hfront, hab.symm] using hb
  have htail : [a, b].Sublist (a :: back) := (List.singleton_sublist.2 hback).cons_cons a
  exact htail.trans (List.sublist_append_right front _)

/-- Where no member appears twice, one of two stands in front of the other. -/
theorem not_sublist_of_nodup (hxs : xs.Nodup) (h : [a, b].Sublist xs) : ¬ [b, a].Sublist xs := by
  induction xs with
  | nil => simp at h
  | cons x rest ih =>
    obtain ⟨hx, hrest⟩ := List.nodup_cons.1 hxs
    intro hba
    rcases List.sublist_cons_iff.1 h with hab | ⟨tail, heq, htail⟩
    · rcases List.sublist_cons_iff.1 hba with hba | ⟨tail, heq, htail⟩
      · exact ih hrest hab hba
      · obtain ⟨rfl, rfl⟩ := List.cons.inj heq
        exact hx (hab.subset (by simp))
    · obtain ⟨rfl, rfl⟩ := List.cons.inj heq
      rcases List.sublist_cons_iff.1 hba with hba | ⟨tail, heq, htail⟩
      · exact hx (hba.subset (by simp))
      · obtain ⟨rfl, rfl⟩ := List.cons.inj heq
        exact hx (htail.subset (by simp))

/-- Of two members, one comes to one first. -/
theorem MeetsFirst.total (h : a ∈ xs ∨ b ∈ xs) : MeetsFirst xs a b ∨ MeetsFirst xs b a := by
  have hsome : ∃ x ∈ xs, x = a ∨ x = b := by
    rcases h with ha | hb
    · exact ⟨a, ha, Or.inl rfl⟩
    · exact ⟨b, hb, Or.inr rfl⟩
  obtain ⟨front, x, back, rfl, rfl | rfl, hfront⟩ := exists_first hsome
  · left
    exact ⟨front, back, rfl, fun hb => hfront b hb (Or.inr rfl)⟩
  · right
    exact ⟨front, back, rfl, fun ha => hfront a ha (Or.inl rfl)⟩

/-! ## Keeping first appearances -/

section Distinct

variable [DecidableEq α]

theorem MeetsFirst.antisymm (h : MeetsFirst xs a b) (h' : MeetsFirst xs b a) : a = b := by
  have ha : a ∈ Makewright.distinct xs := by
    obtain ⟨front, back, rfl, -⟩ := h
    simp [mem_distinct]
  have hb : b ∈ Makewright.distinct xs := by
    obtain ⟨front, back, rfl, -⟩ := h'
    simp [mem_distinct]
  by_contra hab
  have hfirst := h.distinct.sublist hb hab
  have hsecond := h'.distinct.sublist ha (Ne.symm hab)
  exact not_sublist_of_nodup (nodup_distinct xs) hfirst hsecond

/-- Who comes first among the members of a list comes first in the list. -/
theorem MeetsFirst.of_append (h : MeetsFirst (xs ++ ys) a b) (hb : b ∈ xs) : MeetsFirst xs a b := by
  rcases MeetsFirst.total (a := a) (b := b) (Or.inr hb) with hfirst | hsecond
  · exact hfirst
  · obtain rfl := h.antisymm (hsecond.append_right ys)
    exact hsecond

theorem prefix_addAllOnce (xs ys : List α) : xs <+: addAllOnce xs ys := by
  induction ys generalizing xs with
  | nil => exact List.prefix_rfl
  | cons y rest ih =>
    have hone : xs <+: addOnce xs y := by
      unfold addOnce
      split
      · exact List.prefix_rfl
      · exact List.prefix_append xs [y]
    exact hone.trans (ih (addOnce xs y))

/-- Newcomers that repeat nothing are appended as they stand. -/
theorem addAllOnce_of_disjoint (hys : ys.Nodup) (h : ∀ y ∈ ys, y ∉ xs) :
    addAllOnce xs ys = xs ++ ys := by
  induction ys generalizing xs with
  | nil => exact (List.append_nil xs).symm
  | cons y rest ih =>
    obtain ⟨hy, hrest⟩ := List.nodup_cons.1 hys
    change addAllOnce (addOnce xs y) rest = xs ++ y :: rest
    rw [addOnce, if_neg (h y List.mem_cons_self), ih hrest, List.append_assoc]
    · rfl
    · intro z hz hmem
      rcases List.mem_append.1 hmem with hxs | hself
      · exact h z (List.mem_cons_of_mem y hz) hxs
      · exact hy (List.mem_singleton.1 hself ▸ hz)

theorem distinct_of_nodup (h : xs.Nodup) : distinct xs = xs :=
  addAllOnce_of_disjoint h fun _ _ => List.not_mem_nil

theorem distinct_append (xs ys : List α) :
    distinct (xs ++ ys) = addAllOnce (distinct xs) ys :=
  addAllOnce_append [] xs ys

theorem distinct_append_singleton (xs : List α) (x : α) :
    distinct (xs ++ [x]) = addOnce (distinct xs) x :=
  distinct_append xs [x]

/-- Members that have been met add nothing. -/
theorem distinct_append_append_of_subset (h : ys ⊆ xs) (zs : List α) :
    distinct (xs ++ (ys ++ zs)) = distinct (xs ++ zs) := by
  have hmet : ys ⊆ distinct xs := fun y hy => mem_distinct.2 (h hy)
  rw [distinct_append, addAllOnce_append, addAllOnce_of_subset hmet, ← distinct_append]

/-- Keeping first appearances beforehand changes nothing. -/
theorem distinct_distinct_append (xs ys : List α) :
    distinct (distinct xs ++ ys) = distinct (xs ++ ys) := by
  rw [distinct_append, distinct_append, distinct_of_nodup (nodup_distinct xs)]

/-- The first appearances stand in the order in which one comes to them. -/
theorem pairwise_distinct (xs : List α) : (distinct xs).Pairwise (MeetsFirst xs) := by
  induction xs using List.reverseRecOn with
  | nil => exact .nil
  | append_singleton front x ih =>
    have hkept : (distinct front).Pairwise (MeetsFirst (front ++ [x])) :=
      ih.imp fun h => h.append_right [x]
    rw [distinct_append_singleton, addOnce]
    split
    · exact hkept
    · next hx =>
      -- a newcomer is met behind all that was there
      rw [mem_distinct] at hx
      rw [List.pairwise_append]
      refine ⟨hkept, List.pairwise_singleton _ _, ?_⟩
      intro y hy z hz
      obtain rfl := List.mem_singleton.1 hz
      exact (MeetsFirst.of_mem (mem_distinct.1 hy) hx).append_right [z]

/-- Keeping first appearances keeps a list of members as a subsequence exactly if it repeats none
and one comes to its members in its own order. -/
theorem sublist_distinct_iff (hsub : ys ⊆ xs) :
    ys.Sublist (distinct xs) ↔ ys.Nodup ∧ ys.Pairwise (MeetsFirst xs) := by
  constructor
  · intro h
    exact ⟨(nodup_distinct xs).sublist h, (pairwise_distinct xs).sublist h⟩
  · rintro ⟨hnodup, horder⟩
    -- the members of the list among the first appearances, in the order of these
    have hkept : ((distinct xs).filter (· ∈ ys)).Sublist (distinct xs) := List.filter_sublist
    have hperm : ys.Perm ((distinct xs).filter (· ∈ ys)) := by
      apply (List.perm_ext_iff_of_nodup hnodup ((nodup_distinct xs).sublist hkept)).2
      intro y
      simp only [List.mem_filter, mem_distinct, decide_eq_true_eq]
      exact ⟨fun hy => ⟨hsub hy, hy⟩, And.right⟩
    have heq : ys = (distinct xs).filter (· ∈ ys) := by
      apply hperm.eq_of_pairwise _ horder ((pairwise_distinct xs).sublist hkept)
      exact fun x y _ _ hxy hyx => hxy.antisymm hyx
    rw [heq]
    exact hkept

end Distinct

end Makewright
