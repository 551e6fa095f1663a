import Makewright.Proofs.Makefile.Assignments
import Makewright.Proofs.Makefile.History

/-!
# One Makefile for each text

The text of a Makefile loses nothing: of the Makefiles with one header and one sequence of head
blocks, no two have the same text, as long as no name can be taken for two, no target ends before
its colon and every command is one line (`serialize_injective`). The text is cut at the ends of
lines, the lines at the empty ones into blocks, the first line of a block at its first colon into
target and prerequisites, and these at the blanks.
-/

set_option autoImplicit false

namespace Makewright

open Make

/-- A text that ends neither a name nor a line. -/
def IsName (name : String) : Prop :=
  ' ' ∉ name.toList ∧ '\n' ∉ name.toList

instance (name : String) : Decidable (IsName name) :=
  inferInstanceAs (Decidable (_ ∧ _))

/-- The lines of a rule can be told apart, and so can the names in them. -/
structure Rule.Separable (rule : Rule) : Prop where
  target : IsName rule.target ∧ ':' ∉ rule.target.toList
  prerequisites : ∀ name ∈ rule.prerequisites, IsName name
  commands : ∀ command ∈ rule.commands, '\n' ∉ command.toList

instance (rule : Rule) : Decidable rule.Separable :=
  decidable_of_iff ((IsName rule.target ∧ ':' ∉ rule.target.toList) ∧
      (∀ name ∈ rule.prerequisites, IsName name) ∧
      ∀ command ∈ rule.commands, '\n' ∉ command.toList)
    ⟨fun ⟨ht, hp, hc⟩ => ⟨ht, hp, hc⟩, fun ⟨ht, hp, hc⟩ => ⟨ht, hp, hc⟩⟩

/-- The rules and names of a Makefile can be told apart. -/
structure Makefile.Separable (m : Makefile) : Prop where
  rules : ∀ rule ∈ m.allRules, rule.Separable
  phony : ∀ name ∈ m.phony, IsName name

instance (m : Makefile) : Decidable m.Separable :=
  decidable_of_iff ((∀ rule ∈ m.allRules, rule.Separable) ∧ ∀ name ∈ m.phony, IsName name)
    ⟨fun ⟨hr, hp⟩ => ⟨hr, hp⟩, fun ⟨hr, hp⟩ => ⟨hr, hp⟩⟩

/-! ## Lines and names -/

theorem unlines_injective {lines lines' : List (List Char)} (h : ∀ line ∈ lines, '\n' ∉ line)
    (h' : ∀ line ∈ lines', '\n' ∉ line) (htext : unlines lines = unlines lines') :
    lines = lines' := by
  have hcut : ∀ lines : List (List Char), unlines lines = ['\n'].intercalate (lines ++ [[]]) := by
    intro lines
    induction lines with
    | nil => rfl
    | cons first rest ih =>
      rw [List.cons_append, List.intercalate_cons_of_ne_nil (by simp), ← ih]
      simp [unlines]
  have hsplit : ∀ lines : List (List Char), (∀ line ∈ lines, '\n' ∉ line) →
      (unlines lines).splitOn '\n' = lines ++ [[]] := by
    intro lines h
    rw [hcut]
    exact List.splitOn_intercalate '\n' (by simpa [or_imp, forall_and] using h) (by simp)
  have hsame := congrArg (List.splitOn '\n') htext
  rw [hsplit lines h, hsplit lines' h'] at hsame
  exact List.append_cancel_right hsame

theorem names_injective {names names' : List String} (h : ∀ name ∈ names, IsName name)
    (h' : ∀ name ∈ names', IsName name) (hne : names ≠ []) (hne' : names' ≠ [])
    (htext : [' '].intercalate (names.map String.toList) =
      [' '].intercalate (names'.map String.toList)) : names = names' := by
  have hsplit : ∀ names : List String, (∀ name ∈ names, IsName name) → names ≠ [] →
      ([' '].intercalate (names.map String.toList)).splitOn ' ' = names.map String.toList := by
    intro names h hne
    refine List.splitOn_intercalate ' ' ?_ (by simpa using hne)
    intro text htext
    obtain ⟨name, hname, rfl⟩ := List.mem_map.1 htext
    exact (h name hname).1
  have hsame := congrArg (List.splitOn ' ') htext
  rw [hsplit names h hne, hsplit names' h' hne'] at hsame
  exact List.map_injective_iff.2 (fun _ _ => String.toList_injective) hsame

theorem newline_not_mem_names {names : List String} (h : ∀ name ∈ names, IsName name) :
    '\n' ∉ [' '].intercalate (names.map String.toList) := by
  intro hmem
  rcases Text.mem_of_mem_intercalate hmem with hsep | hmem
  · simp at hsep
  · obtain ⟨text, htext, hmem⟩ := List.mem_flatten.1 hmem
    obtain ⟨name, hname, rfl⟩ := List.mem_map.1 htext
    exact (h name hname).2 hmem

/-! ## Rules -/

namespace Rule

variable {rule rule' : Rule}

theorem toList_headLine (rule : Rule) : rule.headLine.toList = rule.target.toList ++ ':' ::
    (if rule.prerequisites.isEmpty then []
      else ' ' :: [' '].intercalate (rule.prerequisites.map String.toList)) := by
  unfold headLine
  split <;> simp [String.toList_intercalate]

/-- The first colon of a head line stands behind the target. -/
theorem headLine_injective (h : rule.Separable) (h' : rule'.Separable)
    (hline : rule.headLine.toList = rule'.headLine.toList) :
    rule.target = rule'.target ∧ rule.prerequisites = rule'.prerequisites := by
  rw [toList_headLine, toList_headLine] at hline
  have hcut := congrArg (Text.cutFirst? ':') hline
  rw [Text.cutFirst?_append h.target.2, Text.cutFirst?_append h'.target.2, Option.some.injEq,
    Prod.mk.injEq] at hcut
  obtain ⟨htarget, hnames⟩ := hcut
  refine ⟨String.toList_injective htarget, ?_⟩
  by_cases hempty : rule.prerequisites = []
  · by_cases hempty' : rule'.prerequisites = []
    · rw [hempty, hempty']
    · simp [hempty, hempty'] at hnames
  · by_cases hempty' : rule'.prerequisites = []
    · simp [hempty, hempty'] at hnames
    · refine names_injective h.prerequisites h'.prerequisites hempty hempty' ?_
      simpa [hempty, hempty'] using hnames

theorem lines_injective (h : rule.Separable) (h' : rule'.Separable)
    (hlines : rule.lines = rule'.lines) : rule = rule' := by
  simp only [lines, List.cons.injEq] at hlines
  obtain ⟨hhead, hcommands⟩ := hlines
  obtain ⟨htarget, hprerequisites⟩ := headLine_injective h h' hhead
  have hinjective : Function.Injective fun command : String => '\t' :: command.toList :=
    fun _ _ hsame => String.toList_injective (List.cons_injective hsame)
  have hsame := List.map_injective_iff.2 hinjective hcommands
  cases rule
  cases rule'
  simp_all

theorem newline_not_mem_lines (h : rule.Separable) : ∀ line ∈ rule.lines, '\n' ∉ line := by
  intro line hline
  rcases List.mem_cons.1 hline with rfl | hline
  · rw [toList_headLine]
    have hnames := newline_not_mem_names h.prerequisites
    split <;> simp [h.target.1.2, hnames]
  · obtain ⟨command, hcommand, rfl⟩ := List.mem_map.1 hline
    simpa using h.commands command hcommand

/-- No line of a rule is empty. -/
theorem nil_not_mem_lines (rule : Rule) : [] ∉ rule.lines := by
  simp [lines, toList_headLine]

theorem map_lines_injective {rules rules' : List Rule} (h : ∀ rule ∈ rules, rule.Separable)
    (h' : ∀ rule ∈ rules', rule.Separable) (hlines : rules.map lines = rules'.map lines) :
    rules = rules' := by
  induction rules generalizing rules' with
  | nil => exact (List.map_eq_nil_iff.1 hlines.symm).symm
  | cons rule rest ih =>
    cases rules' with
    | nil => cases hlines
    | cons rule' rest' =>
      simp only [List.map_cons, List.cons.injEq] at hlines
      obtain ⟨hfirst, hrest⟩ := hlines
      simp only [List.forall_mem_cons] at h h'
      rw [lines_injective h.1 h'.1 hfirst, ih h.2 h'.2 hrest]

end Rule

/-! ## Blocks -/

namespace Makefile

variable {m m' : Makefile}

/-- The blocks of the rules and of the phony names. -/
def backBlocks (m : Makefile) : List (List (List Char)) :=
  m.allRules.map Rule.lines
  ++ [[phonyTarget.toList ++ ':' :: ' ' :: [' '].intercalate (m.phony.map String.toList)]]

theorem blocks_eq (m : Makefile) : m.blocks = m.frontBlocks ++ m.backBlocks :=
  List.append_assoc _ _ _

theorem backBlocks_ne_nil (m : Makefile) : m.backBlocks ≠ [] := by
  simp [backBlocks]

theorem frontBlocks_congr (hheader : m.header = m'.header)
    (hheads : m.heads.map Prod.snd = m'.heads.map Prod.snd) : m.frontBlocks = m'.frontBlocks := by
  have hlines : ∀ heads : List (String × List String),
      (heads.filter fun head => !head.2.isEmpty).map (fun head => head.2.map String.toList) =
        ((heads.map Prod.snd).filter (!·.isEmpty)).map (·.map String.toList) := by
    intro heads
    simp [List.filter_map, Function.comp_def]
  rw [frontBlocks, frontBlocks, hheader, hlines, hlines, hheads]

/-- What stands behind the head blocks. -/
theorem unlines_backBlocks (hfront : m.frontBlocks = m'.frontBlocks)
    (htext : m.serialize = m'.serialize) :
    unlines ([[]].intercalate m.backBlocks) = unlines ([[]].intercalate m'.backBlocks) := by
  have htext := congrArg String.toList htext
  rw [serialize_eq, serialize_eq, blocks_eq, blocks_eq, ← hfront] at htext
  by_cases hempty : m.frontBlocks = []
  · rwa [hempty, List.nil_append, List.nil_append] at htext
  · rw [Text.intercalate_append [[]] hempty m.backBlocks_ne_nil,
      Text.intercalate_append [[]] hempty m'.backBlocks_ne_nil] at htext
    simpa [unlines] using htext

/-- No line of a rule or of the phony names is empty or goes on. -/
theorem Separable.line (h : m.Separable) :
    ∀ block ∈ m.backBlocks, [] ∉ block ∧ ∀ line ∈ block, '\n' ∉ line := by
  intro block hblock
  rcases List.mem_append.1 hblock with hblock | hblock
  · obtain ⟨rule, hrule, rfl⟩ := List.mem_map.1 hblock
    exact ⟨rule.nil_not_mem_lines, Rule.newline_not_mem_lines (h.rules rule hrule)⟩
  · rw [List.mem_singleton.1 hblock]
    have hnames := newline_not_mem_names h.phony
    have hphony : '\n' ∉ phonyTarget.toList := by decide
    simp [hnames, hphony]

theorem backBlocks_injective (h : m.Separable) (h' : m'.Separable)
    (htext : unlines ([[]].intercalate m.backBlocks) = unlines ([[]].intercalate m'.backBlocks)) :
    m.backBlocks = m'.backBlocks := by
  have hline : ∀ {m : Makefile}, m.Separable →
      ∀ line ∈ [[]].intercalate m.backBlocks, '\n' ∉ line := by
    intro m h line hmem
    rcases Text.mem_of_mem_intercalate hmem with hempty | hmem
    · rw [List.mem_singleton.1 hempty]
      exact List.not_mem_nil
    · obtain ⟨block, hblock, hmem⟩ := List.mem_flatten.1 hmem
      exact (h.line block hblock).2 line hmem
  have hsame := congrArg (List.splitOn []) (unlines_injective (hline h) (hline h') htext)
  rwa [List.splitOn_intercalate [] (fun block hblock => (h.line block hblock).1)
      m.backBlocks_ne_nil,
    List.splitOn_intercalate [] (fun block hblock => (h'.line block hblock).1)
      m'.backBlocks_ne_nil] at hsame

/-! ## Makefiles -/

theorem install_mem_phony (header : Option String) (ops : List Operation) :
    installTarget ∈ ((new header).runAll ops).phony :=
  (grows_runAll (new header) ops).phony.subset (List.mem_singleton.2 rfl)

/-- Two Makefiles with one header and the same head blocks have different texts, unless they have
the same rules in the same order, the same install rule and the same phony names. -/
theorem serialize_injective {header : Option String} {ops ops' : List Operation}
    (hheads : ((new header).runAll ops).heads.map Prod.snd =
      ((new header).runAll ops').heads.map Prod.snd)
    (h : ((new header).runAll ops).Separable) (h' : ((new header).runAll ops').Separable)
    (htext : ((new header).runAll ops).serialize = ((new header).runAll ops').serialize) :
    ((new header).runAll ops).rules = ((new header).runAll ops').rules ∧
      ((new header).runAll ops).install = ((new header).runAll ops').install ∧
      ((new header).runAll ops).phony = ((new header).runAll ops').phony := by
  have hheader : ((new header).runAll ops).header = ((new header).runAll ops').header :=
    (grows_runAll _ ops).header.trans (grows_runAll _ ops').header.symm
  have hphony := List.ne_nil_of_mem (install_mem_phony header ops)
  have hphony' := List.ne_nil_of_mem (install_mem_phony header ops')
  generalize (new header).runAll ops = m at *
  generalize (new header).runAll ops' = m' at *
  have hfront := frontBlocks_congr hheader hheads
  have hback := backBlocks_injective h h' (unlines_backBlocks hfront htext)
  obtain ⟨hrules, hnames⟩ := List.append_inj' hback rfl
  have hall := Rule.map_lines_injective h.rules h'.rules hrules
  obtain ⟨hrules, hinstall⟩ := List.append_inj' hall rfl
  simp only [List.cons.injEq, List.append_cancel_left_eq, true_and, and_true] at hinstall hnames
  exact ⟨hrules, hinstall, names_injective h.phony h'.phony hphony hphony' hnames⟩

/-- Two histories with one text: in one of them the rule is there at once, in the other it is filled
up, asked for again in between. -/
theorem serialize_injective_sample :
    let m := (new none).runAll [.head "k" ⟨["CC = cc"], none⟩, .start "a" ["b", "c"],
      .line "a" "touch a", .require "install" ["a"]]
    let m' := (new none).runAll [.start "a" ["b"], .head "k" ⟨["CC = cc"], none⟩, .start "a" [],
      .require "a" ["b", "c"], .require "install" ["a"], .line "a" "touch a"]
    m.heads.map Prod.snd = m'.heads.map Prod.snd ∧ m.Separable ∧ m'.Separable ∧
      m.serialize = m'.serialize ∧
      (m.rules = m'.rules ∧ m.install = m'.install ∧ m.phony = m'.phony) := by
  intro m m'
  have h : m.Separable := by decide +kernel
  have h' : m'.Separable := by decide +kernel
  have htext : m.serialize = m'.serialize := rfl
  exact ⟨rfl, h, h', htext, serialize_injective rfl h h' htext⟩

end Makefile

end Makewright
