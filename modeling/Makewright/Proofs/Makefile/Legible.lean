import Makewright.Proofs.Makefile.Reading
import Makewright.Proofs.Path
import Mathlib.Data.List.Nodup

/-!
# Makefiles that read back

The text of a Makefile is its blocks of lines with an empty line between them (`serialize_eq`). Make
reads it as the values that its head lines define and the rules that it was written from, each with
its prerequisites and its recipe, as long as every line is one and the rules name files by words
(`read_serialize`).
-/

set_option autoImplicit false

namespace Makewright

open Make

/-- The rule can be read back: it names its files by words, and every command is a line. -/
structure Rule.Legible (rule : Rule) : Prop where
  target : IsWord rule.target
  prerequisites : ∀ name ∈ rule.prerequisites, IsWord name
  commands : ∀ command ∈ rule.commands, IsLine command.toList

/-- The lines of a rule. -/
def Rule.lines (rule : Rule) : List (List Char) :=
  rule.headLine.toList :: rule.commands.map ('\t' :: ·.toList)

/-- What is read of a rule. -/
def Make.Entry.ofRule (rule : Rule) : Entry :=
  ⟨[rule.target], rule.prerequisites, rule.commands.map String.toList⟩

namespace Makefile

/-- A header line as a comment. -/
def comment (line : String) : List Char :=
  if line.isEmpty then ['#'] else '#' :: ' ' :: line.toList

/-- The target that the phony names are the prerequisites of. -/
def phonyTarget : String := ".PHONY"

/-- The blocks of lines of a Makefile. -/
def blocks (m : Makefile) : List (List (List Char)) :=
  (match m.header with
    | some text => if text.isEmpty then [] else [(Text.lines text).map comment]
    | none => [])
  ++ (m.heads.filter fun head => !head.2.isEmpty).map (fun head => head.2.map String.toList)
  ++ m.allRules.map Rule.lines
  ++ [[phonyTarget.toList ++ ':' :: ' ' :: [' '].intercalate (m.phony.map String.toList)]]

/-- What is read of a Makefile: the rules, the latest one in front, beside values of variables. -/
def reading (m : Makefile) (values : Values) : Reading :=
  ⟨values, ⟨[phonyTarget], m.phony, []⟩ :: (m.allRules.map Entry.ofRule).reverse⟩

/-- The Makefile can be read back. -/
structure Legible (m : Makefile) : Prop where
  header : ∀ text, m.header = some text → ∀ line ∈ Text.lines text, IsLine line.toList
  heads : ∀ head ∈ m.heads, ∀ line ∈ head.2, IsLine line.toList
  rules : ∀ rule ∈ m.allRules, rule.Legible
  phony : ∀ name ∈ m.phony, IsWord name

variable {m : Makefile}

/-! ## The text as lines -/

theorem unlines_intercalate (lines : List String) (hne : lines ≠ []) :
    ("\n".intercalate lines ++ "\n").toList = unlines (lines.map String.toList) := by
  rw [String.toList_append, String.toList_intercalate]
  induction lines with
  | nil => exact absurd rfl hne
  | cons first rest ih =>
    cases rest with
    | nil => simp [unlines]
    | cons second more =>
      have hmore := ih (List.cons_ne_nil second more)
      simp only [List.map_cons] at hmore ⊢
      rw [List.intercalate_cons_cons, List.append_assoc, hmore]
      simp [unlines]

theorem intercalate_unlines (blocks : List (List (List Char))) :
    ['\n'].intercalate (blocks.map unlines) = unlines ([[]].intercalate blocks) := by
  induction blocks with
  | nil => rfl
  | cons first rest ih =>
    cases rest with
    | nil => simp
    | cons second more =>
      simp only [List.map_cons] at ih ⊢
      rw [List.intercalate_cons_cons, List.intercalate_cons_cons, ih]
      simp [unlines]

/-- Nothing between texts. -/
theorem nil_intercalate (texts : List (List Char)) :
    ([] : List Char).intercalate texts = texts.flatten := by
  induction texts with
  | nil => rfl
  | cons first rest ih =>
    cases rest with
    | nil => simp
    | cons second more => simpa [List.intercalate_cons_cons] using ih

theorem toList_headerChunk (m : Makefile) : m.headerChunk.map String.toList =
    (match m.header with
      | some text => if text.isEmpty then [] else [(Text.lines text).map comment]
      | none => []).map unlines := by
  have hline : ∀ line, (commentLine line).toList = comment line ++ ['\n'] := by
    intro line
    unfold commentLine comment
    split <;> simp
  unfold headerChunk
  cases m.header with
  | none => rfl
  | some text =>
    by_cases hempty : text.isEmpty
    · simp [hempty]
    · simp [hempty, unlines, hline, String.toList_intercalate, nil_intercalate, List.flatMap_def,
        Function.comp_def]

theorem toList_render (rule : Rule) : rule.render.toList = unlines rule.lines := by
  rw [Rule.render, unlines_intercalate _ (List.cons_ne_nil _ _)]
  simp [Rule.lines, Function.comp_def]

theorem toList_headChunks (m : Makefile) : m.headChunks.map String.toList =
    ((m.heads.filter fun head => !head.2.isEmpty).map fun head => head.2.map String.toList).map
      unlines := by
  rw [headChunks, List.map_map, List.map_map]
  refine List.map_congr_left fun head hhead => unlines_intercalate head.2 ?_
  simpa using (List.mem_filter.1 hhead).2

/-- The text of a Makefile is its blocks with an empty line between them. -/
theorem serialize_eq (m : Makefile) : m.serialize.toList = unlines ([[]].intercalate m.blocks) := by
  rw [serialize, String.toList_intercalate, ← intercalate_unlines]
  congr 1
  simp [blocks, toList_headerChunk, toList_headChunks, toList_render, Function.comp_def, phonyLine,
    phonyTarget, unlines, String.toList_intercalate]

/-- Blocks without lines add none. -/
theorem flatten_headBlocks (heads : List (String × List String)) :
    ((heads.filter fun head => !head.2.isEmpty).map
      fun head => head.2.map String.toList).flatten =
        (heads.flatMap Prod.snd).map String.toList := by
  induction heads with
  | nil => rfl
  | cons head rest ih =>
    by_cases hempty : head.2 = []
    · simpa [hempty] using ih
    · simpa [List.filter_cons, hempty] using ih

/-! ## The reading -/

theorem foldlM_intercalate (blocks : List (List (List Char))) (r : Reading) :
    ([[]].intercalate blocks).foldlM Reading.line r = blocks.flatten.foldlM Reading.line r := by
  induction blocks generalizing r with
  | nil => rfl
  | cons first rest ih =>
    cases rest with
    | nil => simp
    | cons second more =>
      rw [List.intercalate_cons_cons, List.append_assoc, List.flatten_cons, List.foldlM_append,
        List.foldlM_append]
      refine bind_congr fun r' => ?_
      rw [List.singleton_append, List.foldlM_cons, Reading.line_nil]
      exact ih r'

theorem foldlM_comments (lines : List String) (r : Reading) :
    (lines.map comment).foldlM Reading.line r = some r := by
  induction lines with
  | nil => rfl
  | cons first rest ih =>
    have hfirst : r.line (comment first) = some r := by
      unfold comment
      split <;> rfl
    rw [List.map_cons, List.foldlM_cons, hfirst]
    exact ih

/-- A rule is read as it was written. -/
theorem foldlM_rule {rule : Rule} (h : rule.Legible) (r : Reading) :
    rule.lines.foldlM Reading.line r =
      some { r with entries := Entry.ofRule rule :: r.entries } := by
  have hhead : r.line rule.headLine.toList = some { r with
      entries := ⟨[rule.target], rule.prerequisites, []⟩ :: r.entries } := by
    unfold Rule.headLine
    by_cases hempty : rule.prerequisites = []
    · have hread := r.line_rule h.target [] (by simp) (by simp) (by simp)
      simpa [hempty, wordsFrom] using hread
    · simpa [hempty, String.toList_intercalate] using r.line_rule_names h.target h.prerequisites
  rw [Rule.lines, List.foldlM_cons, hhead]
  have hrecipe := Reading.foldlM_recipe r.values ⟨[rule.target], rule.prerequisites, []⟩ r.entries
    (rule.commands.map String.toList)
  rw [List.map_map] at hrecipe
  exact hrecipe

theorem foldlM_rules {rules : List Rule} (h : ∀ rule ∈ rules, rule.Legible) (r : Reading) :
    (rules.map Rule.lines).flatten.foldlM Reading.line r =
      some { r with entries := (rules.map Entry.ofRule).reverse ++ r.entries } := by
  induction rules generalizing r with
  | nil => rfl
  | cons rule rest ih =>
    rw [List.map_cons, List.flatten_cons, List.foldlM_append,
      foldlM_rule (h rule List.mem_cons_self)]
    have hrest := ih (fun other hother => h other (List.mem_cons_of_mem rule hother))
      { r with entries := Entry.ofRule rule :: r.entries }
    simpa using hrest

theorem isWord_phonyTarget : IsWord phonyTarget :=
  ⟨by decide, by decide⟩

/-- A character in front of a line makes a longer line. -/
theorem isLine_cons {c : Char} (hc : c ≠ '\n' ∧ c ≠ '\\') {text : List Char} (h : IsLine text) :
    IsLine (c :: text) :=
  IsLine.append (s := [c]) (.of_forall (by simpa using hc)) h

theorem isLine_names {names : List String} (h : ∀ name ∈ names, IsWord name) :
    IsLine ([' '].intercalate (names.map String.toList)) := by
  refine .intercalate (.of_forall (by decide)) fun text htext => ?_
  obtain ⟨name, hname, rfl⟩ := List.mem_map.1 htext
  exact (h name hname).isLine

theorem Legible.isLine_comment (h : m.Legible) {text : String} (htext : m.header = some text) :
    ∀ line ∈ (Text.lines text).map comment, IsLine line := by
  intro line hline
  obtain ⟨content, hcontent, rfl⟩ := List.mem_map.1 hline
  unfold comment
  split
  · exact .of_forall (by decide)
  · exact isLine_cons (by decide) (isLine_cons (by decide) (h.header text htext content hcontent))

theorem isLine_of_rule {rule : Rule} (h : rule.Legible) : ∀ line ∈ rule.lines, IsLine line := by
  intro line hline
  rcases List.mem_cons.1 hline with rfl | hline
  · unfold Rule.headLine
    split
    · simpa using h.target.isLine.append (.of_forall (s := [':']) (by decide))
    · have hnames := isLine_cons (c := ' ') (by decide) (isLine_names h.prerequisites)
      simpa [String.toList_intercalate] using
        h.target.isLine.append (isLine_cons (c := ':') (by decide) hnames)
  · obtain ⟨command, hcommand, rfl⟩ := List.mem_map.1 hline
    exact isLine_cons (by decide) (h.commands command hcommand)

/-- The lines of the blocks are lines. -/
theorem Legible.isLine (h : m.Legible) : ∀ line ∈ m.blocks.flatten, IsLine line := by
  intro line hline
  obtain ⟨block, hblock, hline⟩ := List.mem_flatten.1 hline
  rcases List.mem_append.1 hblock with hblock | hblock
  · rcases List.mem_append.1 hblock with hblock | hblock
    · rcases List.mem_append.1 hblock with hblock | hblock
      · cases hheader : m.header with
        | none => simp [hheader] at hblock
        | some text =>
          by_cases hempty : text.isEmpty
          · simp [hheader, hempty] at hblock
          · simp only [hheader, hempty, Bool.false_eq_true, if_false, List.mem_singleton] at hblock
            exact h.isLine_comment hheader line (hblock ▸ hline)
      · obtain ⟨head, hhead, rfl⟩ := List.mem_map.1 hblock
        obtain ⟨text, htext, rfl⟩ := List.mem_map.1 hline
        exact h.heads head (List.mem_filter.1 hhead).1 text htext
    · obtain ⟨rule, hrule, rfl⟩ := List.mem_map.1 hblock
      exact isLine_of_rule (h.rules rule hrule) line hline
  · rw [List.mem_singleton.1 hblock, List.mem_singleton] at hline
    rw [hline]
    exact isWord_phonyTarget.isLine.append
      (isLine_cons (by decide) (isLine_cons (by decide) (isLine_names h.phony)))

/-- What make reads of the text of a Makefile: the values that the head lines define, and the
rules. -/
theorem read_serialize (h : m.Legible) {given values : Values}
    (hheads : ((m.heads.flatMap Prod.snd).map String.toList).foldlM Reading.line ⟨given, []⟩ =
      some ⟨values, []⟩) :
    read given m.serialize.toList = some (m.reading values) := by
  have hlines : ∀ line ∈ [[]].intercalate m.blocks, IsLine line := by
    intro line hline
    rcases Text.mem_of_mem_intercalate hline with hempty | hline
    · exact List.mem_singleton.1 hempty ▸ .nil
    · exact h.isLine line hline
  have hheader : (match m.header with
      | some text => if text.isEmpty then [] else [(Text.lines text).map comment]
      | none => []).flatten.foldlM Reading.line ⟨given, []⟩ = some ⟨given, []⟩ := by
    cases m.header with
    | none => rfl
    | some text =>
      by_cases hempty : text.isEmpty
      · simp [hempty]
      · simpa [hempty] using foldlM_comments (Text.lines text) ⟨given, []⟩
  rw [serialize_eq, Reading.read_unlines hlines, foldlM_intercalate, blocks, List.flatten_append,
    List.flatten_append, List.flatten_append, List.foldlM_append, List.foldlM_append,
    List.foldlM_append, hheader, flatten_headBlocks]
  simp only [Option.bind_eq_bind, Option.bind_some, hheads, foldlM_rules h.rules]
  have hphony := Reading.line_rule_names ⟨values, (m.allRules.map Entry.ofRule).reverse ++ []⟩
    isWord_phonyTarget h.phony
  simpa [reading] using hphony

/-- The recipe that is read for the target of a rule has the commands of the rule. -/
theorem recipe_reading (hnodup : (m.allRules.map Rule.target).Nodup) {rule : Rule}
    (hrule : rule ∈ m.allRules) (values : Values) :
    (m.reading values).recipe rule.target = rule.commands.map String.toList := by
  have hentry : ∀ entry ∈ (m.reading values).entries, rule.target ∈ entry.targets →
      entry.recipe ≠ [] → entry = Entry.ofRule rule := by
    intro entry hentry htarget hrecipe
    rcases List.mem_cons.1 hentry with rfl | hentry
    · exact absurd rfl hrecipe
    · rw [List.mem_reverse] at hentry
      obtain ⟨other, hother, rfl⟩ := List.mem_map.1 hentry
      have hsame : rule.target = other.target := List.mem_singleton.1 htarget
      rw [List.inj_on_of_nodup_map hnodup hrule hother hsame]
  unfold Reading.recipe
  split
  · next entry hfind =>
    have hfound := List.find?_some hfind
    simp only [decide_eq_true_eq] at hfound
    rw [hentry entry (List.mem_of_find?_eq_some hfind) hfound.1 hfound.2]
    rfl
  · next hfind =>
    -- no rule for the target has a recipe, so neither does this one
    have hmem : Entry.ofRule rule ∈ (m.reading values).entries :=
      List.mem_cons_of_mem _ (List.mem_reverse.2 (List.mem_map_of_mem hrule))
    have hnone := List.find?_eq_none.1 hfind _ hmem
    simp only [decide_eq_true_eq, not_and, not_not] at hnone
    exact (hnone List.mem_cons_self).symm

end Makefile

end Makewright
