import Makewright.Generation
import Makewright.Proofs.Makefile.Grounded
import Makewright.Proofs.Makefile.Rules
import Mathlib.Logic.Relation

/-!
# Working off the rules of a Makefile

`Waits` is the relation between the names of a Makefile that an executor of it sees. The rules can
be worked off in the order `workOrder`, in which the rule `all` comes last, as far as they wait for
targets of rules in front of them. If all of them do so but for some given names, every cycle of the
relation leads through one of these names at a place where it is misplaced (`acyclic_of_grounded`).
-/

set_option autoImplicit false

namespace Makewright

open Relation

/-- In grounded rules with distinct targets, whatever a rule waits for is given or the target of a
rule with a smaller index. -/
theorem Grounded.idxOf_lt {given : String → Prop} {rules : List Rule} (h : Grounded given rules)
    (hnodup : (rules.map Rule.target).Nodup) {rule : Rule} (hrule : rule ∈ rules) {name : String}
    (hname : name ∈ rule.prerequisites) :
    given name ∨
      (rules.map Rule.target).idxOf name < (rules.map Rule.target).idxOf rule.target := by
  obtain ⟨front, back, rfl⟩ := List.append_of_mem hrule
  refine (h.mem_before rfl hname).imp_right fun hfront => ?_
  rw [List.map_append, List.map_cons] at hnodup ⊢
  have hnew : rule.target ∉ front.map Rule.target := by
    intro hmem
    exact (List.nodup_append.1 hnodup).2.2 _ hmem _ List.mem_cons_self rfl
  rw [List.idxOf_append_of_mem hfront, List.idxOf_append_of_notMem hnew, List.idxOf_cons_self,
    Nat.add_zero]
  exact List.idxOf_lt_length_of_mem hfront

namespace Makefile

/-- The rule for the first name has the second one among its prerequisites. -/
def Waits (m : Makefile) (a b : String) : Prop :=
  ∃ rule ∈ m.allRules, rule.target = a ∧ b ∈ rule.prerequisites

instance (m : Makefile) (a b : String) : Decidable (m.Waits a b) :=
  inferInstanceAs (Decidable (∃ rule ∈ m.allRules, rule.target = a ∧ b ∈ rule.prerequisites))

/-- The rules with `all` behind the others. -/
def workOrder (m : Makefile) : List Rule :=
  m.allRules.filter (·.target ≠ allTarget) ++ m.allRules.filter (·.target = allTarget)

/-- The targets of the rules in the order in which they can be worked off. -/
def workTargets (m : Makefile) : List String :=
  m.workOrder.map Rule.target

/-- The rule for `b` is worked off in front of the rule for `a`. -/
def Precedes (m : Makefile) (b a : String) : Prop :=
  m.workTargets.idxOf b < m.workTargets.idxOf a

/-- The name `b` is one of some files and also the target of a rule, but of a rule that is not
worked off in front of the rule for `a`. -/
structure Misplaced (m : Makefile) (files : List String) (a b : String) : Prop where
  file : b ∈ files
  target : b ∈ m.workTargets
  late : ¬ m.Precedes b a

variable {m : Makefile} {files : List String} {a b : String}

theorem mem_workOrder {rule : Rule} : rule ∈ m.workOrder ↔ rule ∈ m.allRules := by
  by_cases hall : rule.target = allTarget
  · simp [workOrder, hall]
  · simp [workOrder, hall]

/-- When the rule `all` is the first one, the others follow each other in their order, with the
install rule behind them. -/
theorem workOrder_eq {first : Rule} {rest : List Rule} (hrules : m.rules = first :: rest)
    (hfirst : first.target = allTarget) (hm : Admissible m.targets)
    (hinstall : m.install.target = installTarget) :
    m.workOrder = rest ++ [m.install] ++ [first] := by
  have hne : installTarget ≠ allTarget := by decide
  have hnodup := hm.nodup
  rw [targets, hrules, List.map_cons, List.nodup_cons, hfirst] at hnodup
  have hother : ∀ rule ∈ rest, rule.target ≠ allTarget := by
    intro rule hrule hall
    exact hnodup.1 (hall ▸ List.mem_map_of_mem hrule)
  have hkept : rest.filter (·.target ≠ allTarget) = rest := by
    simpa using hother
  have hdropped : rest.filter (·.target = allTarget) = [] := by
    simpa using hother
  simp only [workOrder, allRules, hrules, List.filter_append, List.filter_cons, hfirst, hinstall,
    hkept, hdropped]
  simp [hne]

/-- The targets are distinct in this order as well. -/
theorem workTargets_nodup {first : Rule} {rest : List Rule} (hrules : m.rules = first :: rest)
    (hfirst : first.target = allTarget) (hm : Admissible m.targets)
    (hinstall : m.install.target = installTarget) : m.workTargets.Nodup := by
  have hperm : m.workTargets.Perm (installTarget :: m.targets) := by
    rw [workTargets, workOrder_eq hrules hfirst hm hinstall, targets, hrules, ← hinstall,
      ← List.map_cons]
    refine List.Perm.map Rule.target ?_
    rw [List.append_assoc]
    exact List.perm_append_comm
  rw [hperm.nodup_iff]
  exact List.nodup_cons.2 ⟨hm.install, hm.nodup⟩

/-- A name that waits for another one is the target of a rule. -/
theorem Waits.mem_workTargets (h : m.Waits a b) : a ∈ m.workTargets := by
  obtain ⟨rule, hrule, rfl, -⟩ := h
  exact List.mem_map_of_mem (mem_workOrder.2 hrule)

/-- Following steps that are not misplaced leads to rules further in front. -/
theorem precedes_of_transGen (hgrounded : Grounded (· ∈ files) m.workOrder)
    (hnodup : m.workTargets.Nodup)
    (h : TransGen (fun a b => m.Waits a b ∧ ¬ m.Misplaced files a b) a b)
    (hb : b ∈ m.workTargets) : m.Precedes b a := by
  have hstep : ∀ {a b}, m.Waits a b → ¬ m.Misplaced files a b → b ∈ m.workTargets →
      m.Precedes b a := by
    intro a b hwaits hplaced hb
    obtain ⟨rule, hrule, rfl, hname⟩ := hwaits
    rcases hgrounded.idxOf_lt hnodup (mem_workOrder.2 hrule) hname with hfile | hlt
    · by_contra hlate
      exact hplaced ⟨hfile, hb, hlate⟩
    · exact hlt
  induction h with
  | single hab => exact hstep hab.1 hab.2 hb
  | tail _ hbc ih => exact Nat.lt_trans (hstep hbc.1 hbc.2 hb) (ih hbc.1.mem_workTargets)

/-- If every rule waits for some files and for targets of rules in front of it, no cycle leads
through steps that are not misplaced only. -/
theorem acyclic_of_grounded (hgrounded : Grounded (· ∈ files) m.workOrder)
    (hnodup : m.workTargets.Nodup) (t : String) :
    ¬ TransGen (fun a b => m.Waits a b ∧ ¬ m.Misplaced files a b) t t := by
  intro hcycle
  obtain ⟨b, hstep, -⟩ := TransGen.head'_iff.1 hcycle
  have hlt := precedes_of_transGen hgrounded hnodup hcycle hstep.1.mem_workTargets
  exact Nat.lt_irrefl _ hlt

end Makefile

end Makewright
