import Makewright.Makefile
import Makewright.Proofs.Outcome
import Mathlib.Data.List.Nodup

/-!
# Adding rules

The targets of the rules of a Makefile stay distinct, and none of them is the target of the install
rule. Adding rules either appends them all or fails with an error that names the first target that
cannot have a rule of its own (`addRules_ends`).
-/

set_option autoImplicit false

namespace Makewright.Makefile

/-- The targets of the rules in order, without that of the install rule. -/
def targets (m : Makefile) : List String :=
  m.rules.map Rule.target

/-- Rules with these targets can stand in one Makefile. -/
structure Admissible (targets : List String) : Prop where
  nodup : targets.Nodup
  install : installTarget ∉ targets

/-- The target is the first one that cannot have a rule of its own: it has one already or is that of
the install rule. -/
def FirstRepeated (targets : List String) (t : String) : Prop :=
  ∃ front back, targets = front ++ t :: back ∧ Admissible front ∧
    (t ∈ front ∨ t = installTarget)

/-- The error says that a rule for the first repeated target was asked for. -/
def Repeats (targets : List String) (e : BuildError) : Prop :=
  ∃ t, e = .plain (.repeatedRule t) ∧ FirstRepeated targets t

theorem admissible_nil : Admissible [] :=
  ⟨.nil, List.not_mem_nil⟩

theorem admissible_append_singleton {ts : List String} {t : String} :
    Admissible (ts ++ [t]) ↔ Admissible ts ∧ t ∉ ts ∧ t ≠ installTarget := by
  constructor
  · rintro ⟨hnodup, hinstall⟩
    rw [← List.concat_eq_append, List.nodup_concat] at hnodup
    rw [List.mem_append, List.mem_singleton] at hinstall
    refine ⟨⟨hnodup.2, fun h => hinstall (Or.inl h)⟩, hnodup.1, ?_⟩
    exact fun h => hinstall (Or.inr h.symm)
  · rintro ⟨⟨hnodup, hinstall⟩, ht, hne⟩
    refine ⟨nodup_append_singleton hnodup ht, ?_⟩
    rw [List.mem_append, List.mem_singleton]
    rintro (h | h)
    · exact hinstall h
    · exact hne h.symm

theorem Admissible.of_append {front back : List String} (h : Admissible (front ++ back)) :
    Admissible front :=
  ⟨(List.nodup_append.1 h.nodup).1, fun hi => h.install (List.mem_append_left back hi)⟩

/-- Targets among which one is repeated are not admissible. -/
theorem FirstRepeated.not_admissible {ts : List String} {t : String} (h : FirstRepeated ts t) :
    ¬ Admissible ts := by
  obtain ⟨front, back, rfl, -, ht⟩ := h
  intro hadmissible
  rw [List.append_cons] at hadmissible
  obtain ⟨-, hfresh, hne⟩ := admissible_append_singleton.1 hadmissible.of_append
  rcases ht with ht | ht
  · exact hfresh ht
  · exact hne ht

theorem hasRule_iff {m : Makefile} {t : String} : m.hasRule t = true ↔ t ∈ m.targets := by
  simp [hasRule, targets]

/-- The second Makefile has some more rules at the end and the same install rule. -/
structure Extends (m : Makefile) (rules : List Rule) (m' : Makefile) : Prop where
  rules : m'.rules = m.rules ++ rules
  install : m'.install = m.install
  admissible : Admissible m'.targets

theorem Extends.targets {m m' : Makefile} {rules : List Rule} (h : Extends m rules m') :
    m'.targets = m.targets ++ rules.map Rule.target := by
  rw [Makefile.targets, h.rules, List.map_append]
  rfl

@[simp]
theorem addPhony_rules (m : Makefile) (name : String) : (m.addPhony name).rules = m.rules := rfl

@[simp]
theorem addPhony_install (m : Makefile) (name : String) :
    (m.addPhony name).install = m.install := rfl

@[simp]
theorem addPhony_targets (m : Makefile) (name : String) :
    (m.addPhony name).targets = m.targets := rfl

/-- Declaring names phony leaves the rules alone. -/
theorem foldl_addPhony (names : List String) (m : Makefile) :
    (names.foldl addPhony m).rules = m.rules ∧ (names.foldl addPhony m).install = m.install := by
  induction names generalizing m with
  | nil => exact ⟨rfl, rfl⟩
  | cons name rest ih => exact ih (m.addPhony name)

/-- One more rule, unless its target cannot have a rule of its own. -/
theorem addRule_ends {m : Makefile} (hm : Admissible m.targets) (rule : Rule)
    (more : List String) :
    Ends (Extends m [rule]) (Repeats (m.targets ++ rule.target :: more)) (m.addRule rule) := by
  unfold addRule
  by_cases hrule : rule.target ∈ m.targets ∨ rule.target = installTarget
  · have hrefused : (m.hasRule rule.target || rule.target == installTarget) = true := by
      simpa [hasRule_iff] using hrule
    rw [if_pos hrefused]
    exact ⟨rule.target, rfl, m.targets, more, rfl, hm, hrule⟩
  · have haccepted : ¬ (m.hasRule rule.target || rule.target == installTarget) = true := by
      simpa [hasRule_iff] using hrule
    obtain ⟨hfresh, hne⟩ := not_or.1 hrule
    rw [if_neg haccepted]
    refine ⟨rfl, rfl, ?_⟩
    rw [targets, List.map_append]
    exact admissible_append_singleton.2 ⟨hm, hfresh, hne⟩

/-- Several rules, unless one of their targets cannot have a rule of its own. -/
theorem addRules_ends {m : Makefile} (hm : Admissible m.targets) (rules : List Rule)
    (more : List String) :
    Ends (Extends m rules) (Repeats (m.targets ++ rules.map Rule.target ++ more))
      (m.addRules rules) := by
  induction rules generalizing m with
  | nil => exact ⟨(List.append_nil _).symm, rfl, hm⟩
  | cons rule rest ih =>
    unfold addRules at *
    rw [List.foldlM_cons]
    -- the targets that are still to come stand behind the first one
    refine Ends.bind ((addRule_ends hm rule (rest.map Rule.target ++ more)).mono ?_ ?_)
    · intro m' hfirst
      refine (ih hfirst.admissible).mono ?_ ?_
      · intro m'' hrest
        refine ⟨?_, hrest.install.trans hfirst.install, hrest.admissible⟩
        rw [hrest.rules, hfirst.rules, List.append_assoc, List.singleton_append]
      · intro e he
        rw [hfirst.targets] at he
        simpa using he
    · intro e he
      simpa using he

/-- A change of rules that keeps their targets keeps those of the Makefile. -/
theorem modifyRule_targets (m : Makefile) (t : String) {change : Rule → Rule}
    (h : ∀ rule, (change rule).target = rule.target) :
    (m.modifyRule t change).targets = m.targets := by
  unfold modifyRule targets
  split
  · rfl
  · rw [List.map_map]
    refine List.map_congr_left fun rule _ => ?_
    by_cases ht : rule.target = t
    · simp [ht, h]
    · simp [ht]

/-- Changing the rule in front leaves the others alone. -/
theorem modifyRule_front {m : Makefile} {rule : Rule} {rest : List Rule}
    (hrules : m.rules = rule :: rest) (hm : Admissible m.targets) (change : Rule → Rule) :
    m.modifyRule rule.target change = { m with rules := change rule :: rest } := by
  have htargets : m.targets = rule.target :: rest.map Rule.target := by
    rw [targets, hrules, List.map_cons]
  have hne : rule.target ≠ installTarget := by
    intro h
    exact hm.install (by rw [htargets, ← h]; exact List.mem_cons_self)
  have hnodup := hm.nodup
  rw [htargets] at hnodup
  have hother : ∀ other ∈ rest, other.target ≠ rule.target := by
    intro other hother h
    exact (List.nodup_cons.1 hnodup).1 (h ▸ List.mem_map_of_mem hother)
  have hrest : rest.map (fun other => if other.target = rule.target then change other else other) =
      rest := by
    have hid : ∀ other ∈ rest,
        (if other.target = rule.target then change other else other) = id other :=
      fun other hmem => if_neg (hother other hmem)
    rw [List.map_congr_left hid, List.map_id]
  unfold modifyRule
  simp [hne, hrules, hrest]

/-! ## Prerequisites that nothing provides -/

/-- Nothing dangles if every prerequisite is a source or the target of a rule. -/
theorem dangling_eq_nil {m : Makefile} {sources : List String}
    (h : ∀ rule ∈ m.allRules, ∀ name ∈ rule.prerequisites, name ∈ sources ∨ name ∈ m.targets) :
    m.dangling sources = [] := by
  rw [dangling, List.flatMap_eq_nil_iff]
  intro rule hrule
  rw [List.map_eq_nil_iff, List.filter_eq_nil_iff]
  intro name hname
  have hprovided : m.provides sources name = true := by
    unfold provides
    rcases h rule hrule name hname with hsource | htarget
    · simp [hsource]
    · simp [hasRule_iff.2 htarget]
  simp [hprovided]

end Makewright.Makefile
