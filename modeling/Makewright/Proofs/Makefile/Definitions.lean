import Makewright.Proofs.Makefile.Legible

/-!
# Lines that define variables

A head line is a comment or defines one variable. `Defines line change` says what such a line does
to the values of variables, whichever they are: a text without marks of make's own is the value as
it stands (`Defines.outright`), and so are flags that are quoted for the shell (`Defines.flags`). A
shell reads the value of such a variable as the words or the flags that were meant
(`IsCommand.reads`).
-/

set_option autoImplicit false

namespace Makewright.Make

/-- A flag that make hands on as it is in the line of a recipe. -/
structure IsLiteral (flag : String) : Prop where
  reference : '$' ∉ flag.toList
  unbroken : '\n' ∉ flag.toList

instance (flag : String) : Decidable (IsLiteral flag) :=
  decidable_of_iff ('$' ∉ flag.toList ∧ '\n' ∉ flag.toList)
    ⟨fun h => ⟨h.1, h.2⟩, fun h => ⟨h.1, h.2⟩⟩

/-- A text that make takes as it is for the value of a variable. -/
structure IsValue (text : List Char) : Prop where
  reference : '$' ∉ text
  comment : '#' ∉ text
  isLine : IsLine text

instance (text : List Char) : Decidable (IsValue text) :=
  decidable_of_iff ('$' ∉ text ∧ '#' ∉ text ∧ IsLine text)
    ⟨fun h => ⟨h.1, h.2.1, h.2.2⟩, fun h => ⟨h.1, h.2, h.3⟩⟩

/-- A command that starts with the name of a program: words with blanks between them, of which the
first one is not read as anything else. -/
structure IsCommand (text : String) (words : List String) : Prop where
  text_eq : text = " ".intercalate words
  inert : ∀ word ∈ words, word ≠ "" ∧ ∀ c ∈ word.toList, isInert c = true
  name : ∃ name rest, words = name :: rest ∧ '=' ∉ name.toList ∧
    ∀ c ∈ ['@', '-', '+'], name.toList.head? ≠ some c

/-! ## Values -/

namespace IsFileName

theorem isValue {name : String} (h : IsFileName name) : IsValue name.toList :=
  ⟨h.isWord.not_mem (by decide), h.isWord.not_mem (by decide), h.isWord.isLine⟩

end IsFileName

namespace IsValue

variable {s t : List Char}

theorem append (hs : IsValue s) (ht : IsValue t) : IsValue (s ++ t) :=
  ⟨by simp [hs.reference, ht.reference], by simp [hs.comment, ht.comment],
    hs.isLine.append ht.isLine⟩

theorem intercalate {sep : List Char} (hsep : IsValue sep) {texts : List (List Char)}
    (h : ∀ text ∈ texts, IsValue text) : IsValue (sep.intercalate texts) := by
  have hmem : ∀ c, c ∉ sep → (∀ text ∈ texts, c ∉ text) → c ∉ sep.intercalate texts := by
    intro c hc htexts hmem
    rcases Text.mem_of_mem_intercalate hmem with hmem | hmem
    · exact hc hmem
    · obtain ⟨text, htext, hmem⟩ := List.mem_flatten.1 hmem
      exact htexts text htext hmem
  exact ⟨hmem '$' hsep.reference fun text htext => (h text htext).reference,
    hmem '#' hsep.comment fun text htext => (h text htext).comment,
    .intercalate hsep.isLine fun text htext => (h text htext).isLine⟩

end IsValue

/-- A quoted flag is taken as it is. -/
theorem isLine_quote {flag : String} (h : '\n' ∉ flag.toList) :
    IsLine (Shell.quote flag).toList := by
  rw [Shell.quote, String.toList_ofList]
  refine ⟨?_, ?_⟩
  · intro hmem
    rcases Shell.mem_quoteList hmem with hmem | hmem | hmem
    · exact h hmem
    · cases hmem
    · cases hmem
  · obtain ⟨-, front, c, heq, hc⟩ := Shell.quoteList_ends flag.toList
    rw [heq, List.getLast?_append_of_ne_nil _ (by simp), List.getLast?_singleton]
    rintro ⟨⟩
    rcases hc with hc | hc
    · cases hc
    · cases hc

theorem not_mem_quote {flag : String} {c : Char} (h : c ∉ flag.toList) (hc : c ≠ '\'' ∧ c ≠ '"') :
    c ∉ (Shell.quote flag).toList := by
  rw [Shell.quote, String.toList_ofList]
  intro hmem
  rcases Shell.mem_quoteList hmem with hmem | hmem | hmem
  · exact h hmem
  · exact hc.1 hmem
  · exact hc.2 hmem

theorem isValue_quote {flag : String} (h : IsLiteral flag) (hcomment : '#' ∉ flag.toList) :
    IsValue (Shell.quote flag).toList :=
  ⟨not_mem_quote h.reference (by decide), not_mem_quote hcomment (by decide),
    isLine_quote h.unbroken⟩

theorem isValue_commandLine {flags : List String}
    (h : ∀ flag ∈ flags, IsLiteral flag ∧ '#' ∉ flag.toList) :
    IsValue (Shell.commandLine flags).toList := by
  rw [Shell.commandLine, String.toList_intercalate]
  apply IsValue.intercalate
  · exact ⟨by decide, by decide, .of_forall (by decide)⟩
  · intro text htext
    simp only [List.mem_map] at htext
    obtain ⟨_, ⟨flag, hflag, rfl⟩, rfl⟩ := htext
    exact isValue_quote (h flag hflag).1 (h flag hflag).2

theorem not_isBlank_of_isSafe {c : Char} (h : Shell.isSafe c = true ∨ c = '\'') :
    Text.isBlank c = false ∧ isBlank c = false := by
  have hranges : ∀ range ∈ Text.blankRanges, range.2 ≤ 32 ∨ 133 ≤ range.1 := by decide
  have hmarks : ∀ c ∈ ['_', '@', '%', '+', '=', ':', ',', '.', '/', '-'],
      32 < c.toNat ∧ c.toNat < 133 := by decide
  have hblanks : ∀ c ∈ blanks, Shell.isSafe c = false ∧ c ≠ '\'' := by decide
  -- every safe character lies strictly between the two groups of blank ranges
  have hbetween : 32 < c.toNat ∧ c.toNat < 133 := by
    rcases h with h | rfl
    · simp only [Shell.isSafe, Bool.or_eq_true, decide_eq_true_eq] at h
      rcases h with h | h
      · have hval : c.toNat = c.val.toNat := rfl
        have hspans : c.isAlphanum =
            (decide (65 ≤ c.val ∧ c.val ≤ 90) || (97 ≤ c.val && c.val ≤ 122) ||
              (48 ≤ c.val && c.val ≤ 57)) := rfl
        simp only [hspans, Bool.or_eq_true, Bool.and_eq_true, decide_eq_true_eq,
          UInt32.le_iff_toNat_le] at h
        simp at h
        omega
      · exact hmarks c h
    · decide
  refine ⟨?_, ?_⟩
  · rw [Text.isBlank, List.any_eq_false]
    intro range hrange
    have hrange := hranges range hrange
    simp
    omega
  · rw [isBlank, decide_eq_false_iff_not]
    intro hc
    rcases h with h | h
    · exact absurd h (by simp [(hblanks c hc).1])
    · exact (hblanks c hc).2 h

/-- Flags with blanks between them start and end with something else than a blank. -/
theorem commandLine_ends {flags : List String} (h : flags ≠ []) :
    (∃ c rest, (Shell.commandLine flags).toList = c :: rest ∧ isBlank c = false) ∧
      ∃ front c, (Shell.commandLine flags).toList = front ++ [c] ∧ Text.isBlank c = false := by
  have hquote : ∀ flag, (Shell.quote flag).toList = Shell.quoteList flag.toList := by
    intro flag
    rw [Shell.quote, String.toList_ofList]
  rw [Shell.commandLine, String.toList_intercalate, List.map_map]
  induction flags with
  | nil => exact absurd rfl h
  | cons flag rest ih =>
    obtain ⟨⟨c, more, hfirst, hc⟩, front, d, hlast, hd⟩ := Shell.quoteList_ends flag.toList
    cases rest with
    | nil =>
      refine ⟨⟨c, more, ?_, (not_isBlank_of_isSafe hc).2⟩, front, d, ?_,
        (not_isBlank_of_isSafe hd).1⟩
      · simp [hquote, hfirst]
      · simp [hquote, hlast]
    -- the first character is that of the first flag, the last one that of the others
    | cons second others =>
      obtain ⟨-, front', d', hlast', hd'⟩ := ih (List.cons_ne_nil second others)
      rw [List.map_cons, List.map_cons, List.intercalate_cons_cons]
      rw [List.map_cons] at hlast'
      rw [hlast', Function.comp_apply, hquote, ← List.append_assoc]
      refine ⟨⟨c, more ++ " ".toList ++ front' ++ [d'], ?_, (not_isBlank_of_isSafe hc).2⟩,
        _, d', rfl, hd'⟩
      simp [hfirst]

/-- Nothing is left behind the operator if there are no flags. -/
theorem trimRight_noFlags (name : String) :
    (Text.trimRight (name ++ " := " ++ Shell.commandLine [])).toList =
      name.toList ++ ' ' :: ':' :: '=' :: [] := by
  have hline : (name ++ " := " ++ Shell.commandLine []).toList =
      name.toList ++ ' ' :: ':' :: '=' :: ' ' :: [] := by
    simp [Shell.commandLine]
  rw [Text.trimRight, String.toList_ofList, hline]
  simp [Text.dropRight, Text.isBlank, Text.blankRanges]

/-- Flags end with something else than a blank. -/
theorem trimRight_flags (name : String) {flags : List String} (h : flags ≠ []) :
    (Text.trimRight (name ++ " := " ++ Shell.commandLine flags)).toList =
      name.toList ++ ' ' :: ':' :: '=' :: ' ' :: (Shell.commandLine flags).toList := by
  obtain ⟨-, front, d, hlast, hd⟩ := commandLine_ends h
  have hline : (name ++ " := " ++ Shell.commandLine flags).toList =
      name.toList ++ ' ' :: ':' :: '=' :: ' ' :: (Shell.commandLine flags).toList := by
    simp
  rw [Text.trimRight, String.toList_ofList, hline, hlast]
  simp [Text.dropRight, hd]

namespace IsCommand

variable {text : String} {words : List String}

theorem reads (h : IsCommand text words) : Shell.Reads text.toList (words.map .word) := by
  have hwords : List.Forall₂ Shell.Reads (words.map String.toList)
      (words.map fun word => [Shell.Token.word word]) := by
    rw [List.forall₂_map_left_iff, List.forall₂_map_right_iff, List.forall₂_same]
    intro word hword
    obtain ⟨hne, hinert⟩ := h.inert word hword
    exact .bare hne fun c hc => isBare_of_isInert (hinert c hc)
  have hline := Shell.Reads.intercalate hwords
  rw [← List.flatMap_def, ← List.map_eq_flatMap] at hline
  rw [h.text_eq, String.toList_intercalate]
  exact hline

theorem isValue (h : IsCommand text words) : IsValue text.toList := by
  rw [h.text_eq, String.toList_intercalate]
  apply IsValue.intercalate
  · exact ⟨by decide, by decide, .of_forall (by decide)⟩
  · intro text htext
    obtain ⟨word, hword, rfl⟩ := List.mem_map.1 htext
    have hne : ∀ d, isInert d = false → ∀ c ∈ word.toList, c ≠ d := by
      intro d hd c hc
      exact ne_of_isInert ((h.inert word hword).2 c hc) hd
    refine ⟨fun hmem => hne '$' (by decide) _ hmem rfl, fun hmem => hne '#' (by decide) _ hmem rfl,
      .of_forall fun c hc => ⟨hne '\n' (by decide) c hc, hne '\\' (by decide) c hc⟩⟩

/-- The text starts with the first character of the name. -/
theorem exists_cons (h : IsCommand text words) : ∃ c rest, text.toList = c :: rest ∧
    isInert c = true ∧ c ∉ ['@', '-', '+'] := by
  obtain ⟨name, others, rfl, -, hmarks⟩ := h.name
  obtain ⟨hne, hinert⟩ := h.inert name List.mem_cons_self
  obtain ⟨c, more, hname⟩ := List.exists_cons_of_ne_nil
    (fun hnil => hne (String.toList_eq_nil_iff.1 hnil))
  refine ⟨c, ?_⟩
  have hc : c ∉ ['@', '-', '+'] := by
    intro hc
    exact hmarks c hc (by rw [hname]; rfl)
  rw [h.text_eq, String.toList_intercalate]
  cases others with
  | nil => exact ⟨more, by simp [hname], hinert c (by simp [hname]), hc⟩
  | cons second others =>
    have hline : " ".toList.intercalate ((name :: second :: others).map String.toList) =
        c :: (more ++ " ".toList ++
          " ".toList.intercalate ((second :: others).map String.toList)) := by
      simp only [List.map_cons, List.intercalate_cons_cons, hname, List.cons_append]
    exact ⟨_, hline, hinert c (by simp [hname]), hc⟩

end IsCommand

/-! ## Definitions -/

/-- The line leaves the values of variables as `change` does, where no rule has been read. -/
structure Defines (line : List Char) (change : Values → Values) : Prop where
  isLine : IsLine line
  line_eq : ∀ values, Reading.line ⟨values, []⟩ line = some ⟨change values, []⟩

/-- The values of a variable with one more word. -/
def Values.behind (values : Values) (name word : String) : Values :=
  match values.lookup name with
  | some (c :: old) => (name, c :: old ++ ' ' :: word.toList) :: values
  | _ => (name, word.toList) :: values

theorem operator?_append {op : List Char} {manner : Manner} {behind : List Char}
    (h : operator? op = some (manner, behind)) {name : String}
    (hname : ∀ c ∈ name.toList, isVerbatim c = true) :
    definitionFrom [] (name.toList ++ ' ' :: op) = some (name, manner, behind) := by
  have hdrop : op.dropWhile isBlank = op := by
    unfold operator? at h
    split at h
    · rfl
    · rfl
    · rfl
    · rfl
    · cases h
  rw [definitionFrom_append hname (by simp), definitionFrom]
  have hnone : operator? (' ' :: op) = none := rfl
  rw [hnone]
  simp [hdrop, h, isBlank, blanks]

namespace Defines

variable (name : String)

/-- A comment. -/
theorem comment {text : List Char} (h : IsLine text) : Defines ('#' :: text) id :=
  ⟨Makefile.isLine_cons (by decide) h, fun _ => rfl⟩

/-- A line with the name of a variable, an operator and what stands behind it. -/
theorem of_operator {op behind : List Char} {manner : Manner} {change : Values → Values}
    (hname : ∀ c ∈ name.toList, isVerbatim c = true) (hop : operator? op = some (manner, behind))
    (hcomment : '#' ∉ op) (hline : IsLine op)
    (hchange : ∀ values : Values, values.define name manner behind = some (change values)) :
    Defines (name.toList ++ ' ' :: op) change := by
  have hmem : ∀ c, isVerbatim c = false → c ∉ name.toList := by
    intro c hc hmem
    exact ne_of_isVerbatim (hname c hmem) hc rfl
  refine ⟨?_, ?_⟩
  · exact (isLine_of_isVerbatim hname).append (Makefile.isLine_cons (by decide) hline)
  · intro values
    rw [Reading.line_definition rfl ?_ (operator?_append hop hname), hchange]
    · rfl
    · simp [hmem '#' (by decide), hcomment]

/-- A variable whose value is computed from those of others. -/
theorem computed (hname : ∀ c ∈ name.toList, isVerbatim c = true) {text : List Char}
    (hcomment : '#' ∉ text) (hline : IsLine text) {value : Values → List Char}
    (hvalue : ∀ values : Values, expand values.get (text.dropWhile isBlank) = some (value values)) :
    Defines (name.toList ++ ' ' :: ':' :: '=' :: ' ' :: text)
      fun values => (name, value values) :: values := by
  apply of_operator name hname rfl
  · simpa using hcomment
  · exact Makefile.isLine_cons (by decide) (Makefile.isLine_cons (by decide)
      (Makefile.isLine_cons (by decide) hline))
  · intro values
    rw [Values.define, List.dropWhile_cons_of_pos (by decide), hvalue]
    rfl

/-- A variable that is defined outright. -/
theorem outright (hname : ∀ c ∈ name.toList, isVerbatim c = true) {text : List Char}
    (h : IsValue text) : Defines (name.toList ++ ' ' :: ':' :: '=' :: ' ' :: text)
      fun values => (name, text.dropWhile isBlank) :: values := by
  apply computed name hname h.comment h.isLine
  intro values
  have hvalue : '$' ∉ text.dropWhile isBlank :=
    fun hmem => h.reference ((List.dropWhile_sublist isBlank).subset hmem)
  exact (Expands.plain hvalue).expand_eq

/-- A variable that is empty unless it has a value. -/
theorem fallback (hname : ∀ c ∈ name.toList, isVerbatim c = true) :
    Defines (name.toList ++ ' ' :: '?' :: '=' :: [])
      fun values => if (values.lookup name).isSome then values else (name, []) :: values := by
  apply of_operator name hname rfl (by decide) (.of_forall (by decide))
  intro values
  have hnone : expand values.get ([].dropWhile isBlank) = some [] := rfl
  rw [Values.define, hnone, Option.map_some]
  cases values.lookup name <;> rfl

/-- A variable that gets one more word. -/
theorem behind (hname : ∀ c ∈ name.toList, isVerbatim c = true) {word : String}
    (h : IsValue word.toList) (hstart : word.toList.dropWhile isBlank = word.toList) :
    Defines (name.toList ++ ' ' :: '+' :: '=' :: ' ' :: word.toList)
      fun values => values.behind name word := by
  apply of_operator name hname rfl
  · simpa using h.comment
  · exact Makefile.isLine_cons (by decide) (Makefile.isLine_cons (by decide)
      (Makefile.isLine_cons (by decide) h.isLine))
  · intro values
    have hdrop : (' ' :: word.toList).dropWhile isBlank = word.toList := by
      rw [List.dropWhile_cons_of_pos (by decide), hstart]
    rw [Values.define, hdrop, (Expands.plain h.reference).expand_eq, Option.map_some]
    unfold Values.behind
    cases values.lookup name with
    | none => rfl
    | some old =>
      cases old with
      | nil => rfl
      | cons c rest => rfl

/-- Flags that a variable is defined as. -/
theorem flags (hname : ∀ c ∈ name.toList, isVerbatim c = true) {flags : List String}
    (h : ∀ flag ∈ flags, IsLiteral flag ∧ '#' ∉ flag.toList) :
    Defines (Text.trimRight (name ++ " := " ++ Shell.commandLine flags)).toList
      fun values => (name, (Shell.commandLine flags).toList) :: values := by
  by_cases hflags : flags = []
  · subst hflags
    rw [trimRight_noFlags]
    exact of_operator name hname rfl (by decide) (.of_forall (by decide)) fun _ => rfl
  · obtain ⟨⟨c, rest, hfirst, hc⟩, -⟩ := commandLine_ends hflags
    have hdefines := outright name hname (isValue_commandLine h)
    rw [hfirst, List.dropWhile_cons_of_neg (by simp [hc]), ← hfirst] at hdefines
    rw [trimRight_flags name hflags]
    exact hdefines

end Defines

/-- Lines are read one after the other. -/
theorem foldlM_defines {lines : List (List Char)} {changes : List (Values → Values)}
    (h : List.Forall₂ Defines lines changes) (values : Values) :
    lines.foldlM Reading.line ⟨values, []⟩ =
      some ⟨changes.foldl (fun values change => change values) values, []⟩ := by
  induction h generalizing values with
  | nil => rfl
  | cons hfirst _ ih =>
    rw [List.foldlM_cons, hfirst.line_eq]
    exact ih _

namespace Values

variable {values : Values} {name other : String}

@[simp]
theorem get_cons (values : Values) (name other : String) (value : List Char) :
    Values.get ((name, value) :: values) other =
      if other = name then value else values.get other := by
  unfold Values.get
  by_cases h : other = name
  · simp [h]
  · have hne : (other == name) = false := by simpa using h
    simp [List.lookup_cons, hne, h]

theorem get_behind_of_ne (h : other ≠ name) (word : String) :
    (values.behind name word).get other = values.get other := by
  unfold Values.behind
  split <;> rw [get_cons, if_neg h]

/-- A shell reads one more word. -/
theorem reads_behind {tokens : List Shell.Token} (h : Shell.Reads (values.get name) tokens)
    {w : String} (hne : w ≠ "") (hword : ∀ c ∈ w.toList, Shell.isBare c = true) :
    Shell.Reads ((values.behind name w).get name) (tokens ++ [.word w]) := by
  have hbare := Shell.Reads.bare hne hword
  unfold Values.behind
  cases hlookup : values.lookup name with
  | none =>
    simp only [Values.get, hlookup] at h
    rw [Shell.eq_nil_of_reads_nil h]
    simpa using hbare
  | some old =>
    simp only [Values.get, hlookup, Option.getD_some] at h
    cases old with
    | nil =>
      rw [Shell.eq_nil_of_reads_nil h]
      simpa using hbare
    | cons c rest => simpa using h.append hbare

end Values

end Makewright.Make
