import Makewright.Makefile
import Mathlib.Data.List.Induction

/-!
# Grounded rules

Rules are grounded in some names if every prerequisite of a rule is one of these names or the target
of a rule before it. A list of grounded rules can be worked off from the front to the back.
-/

set_option autoImplicit false

namespace Makewright

/-- Every prerequisite is a given name or the target of a rule before it. -/
def Grounded (given : String → Prop) : List Rule → Prop
  | [] => True
  | rule :: rest =>
    (∀ name ∈ rule.prerequisites, given name) ∧
      Grounded (fun name => given name ∨ name = rule.target) rest

namespace Grounded

variable {given more : String → Prop} {rules rest : List Rule}

theorem mono (h : Grounded given rules) (hmore : ∀ name, given name → more name) :
    Grounded more rules := by
  induction rules generalizing given more with
  | nil => trivial
  | cons rule rest ih =>
    refine ⟨fun name hname => hmore name (h.1 name hname), ih h.2 ?_⟩
    rintro name (hname | rfl)
    · exact Or.inl (hmore name hname)
    · exact Or.inr rfl

theorem append (h : Grounded given rules)
    (hrest : Grounded (fun name => given name ∨ name ∈ rules.map Rule.target) rest) :
    Grounded given (rules ++ rest) := by
  induction rules generalizing given with
  | nil =>
    refine hrest.mono ?_
    rintro name (hname | hname)
    · exact hname
    · simp at hname
  | cons rule others ih =>
    refine ⟨h.1, ih h.2 (hrest.mono ?_)⟩
    rintro name (hname | hname)
    · exact Or.inl (Or.inl hname)
    · rcases List.mem_cons.1 hname with rfl | hname
      · exact Or.inl (Or.inr rfl)
      · exact Or.inr hname

theorem append_singleton {rule : Rule} (h : Grounded given rules)
    (hrule : ∀ name ∈ rule.prerequisites, given name ∨ name ∈ rules.map Rule.target) :
    Grounded given (rules ++ [rule]) :=
  h.append ⟨hrule, trivial⟩

/-- Rules that need nothing but given names are grounded. -/
theorem of_forall (h : ∀ rule ∈ rules, ∀ name ∈ rule.prerequisites, given name) :
    Grounded given rules := by
  induction rules generalizing given with
  | nil => trivial
  | cons rule rest ih =>
    refine ⟨h rule List.mem_cons_self, ih ?_⟩
    intro other hother name hname
    exact Or.inl (h other (List.mem_cons_of_mem rule hother) name hname)

/-- Lists of rules one behind the other are grounded if each of them is, given the targets of the
lists in front of it. -/
theorem flatMap {α : Type} {f : α → List Rule} {xs : List α}
    (h : ∀ front x back, xs = front ++ x :: back →
      Grounded (fun name => given name ∨ name ∈ (front.flatMap f).map Rule.target) (f x)) :
    Grounded given (xs.flatMap f) := by
  induction xs using List.reverseRecOn with
  | nil => trivial
  | append_singleton xs x ih =>
    rw [List.flatMap_append, List.flatMap_singleton]
    refine (ih ?_).append (h xs x [] rfl)
    intro front y back hxs
    exact h front y (back ++ [x]) (by simp [hxs])

/-- A prerequisite of a rule is given or the target of a rule in front of it. -/
theorem mem_before (h : Grounded given rules) {front back : List Rule} {rule : Rule}
    (hsplit : rules = front ++ rule :: back) {name : String} (hname : name ∈ rule.prerequisites) :
    given name ∨ name ∈ front.map Rule.target := by
  induction front generalizing given rules with
  | nil =>
    subst hsplit
    exact Or.inl (h.1 name hname)
  | cons first front ih =>
    subst hsplit
    rcases ih h.2 rfl with (hgiven | rfl) | hfront
    · exact Or.inl hgiven
    · exact Or.inr List.mem_cons_self
    · exact Or.inr (List.mem_cons_of_mem _ hfront)

end Grounded

end Makewright
