import Makewright.Proofs.Makefile.Definitions

/-!
# Definitions in order

What a line in front of the rules defines, whatever value it names: `definition?` gives the variable,
the manner and the text. Reading such lines is carrying out their definitions one after the other
(`Reading.foldlM_line`), so the value of a variable is what the last definition of it leaves
(`Values.get_of_defineAll`). In a list of definitions that is `Scoped`, every one stands behind
those that it needs.
-/

set_option autoImplicit false

namespace Makewright.Make

/-- What a line does to a variable. -/
structure Definition where
  name : String
  manner : Manner
  text : List Char

/-- The definition in a line, without its comment. -/
def definition? (line : List Char) : Option Definition :=
  (definitionFrom [] (uncommented 0 line)).map fun (name, manner, text) => ⟨name, manner, text⟩

/-- The names of the references in brackets that a text starts with, behind a part of one. -/
def referencesFrom : Option (List Char) → List Char → List String
  | none, '$' :: '(' :: rest => referencesFrom (some []) rest
  | none, _ => []
  | some _, [] => []
  | some name, c :: rest =>
    if c = ')' then String.ofList name :: referencesFrom none rest
    else referencesFrom (some (name ++ [c])) rest

/-- The variables that a text starts with. -/
def references (text : List Char) : List String :=
  referencesFrom none text

theorem references_cons {c : Char} (hc : c ≠ '$') (rest : List Char) : references (c :: rest) = [] := by
  rw [references, referencesFrom]
  rintro more ⟨⟩
  exact hc rfl

namespace Definition

/-- Behind these definitions there is everything that one more needs: it is the first one of its
variable if it defines it outright, it adds to a variable that has been defined outright, and the
variables that `uses` says are there. -/
structure Fits (uses : Definition → List String) (front : List Definition) (d : Definition) :
    Prop where
  first : d.manner = .outright → ∀ e ∈ front, e.name ≠ d.name
  behind : d.manner = .behind → ∃ e ∈ front, e.name = d.name ∧ e.manner = .outright
  known : ∀ name ∈ uses d, ∃ e ∈ front, e.name = name

/-- Going through definitions in order, behind some others, every one fits. -/
def Scoped (uses : Definition → List String) : List Definition → List Definition → Prop
  | _, [] => True
  | front, d :: rest => d.Fits uses front ∧ Scoped uses (front ++ [d]) rest

variable {uses : Definition → List String} {front xs ys : List Definition}

theorem scoped_append :
    Scoped uses front (xs ++ ys) ↔ Scoped uses front xs ∧ Scoped uses (front ++ xs) ys := by
  induction xs generalizing front with
  | nil => simp [Scoped]
  | cons d rest ih => simp [Scoped, ih, and_assoc]

/-- Definitions in order fit if they are the first ones of different variables, none adds to a
value, and what they use is defined in front of all of them. -/
theorem scoped_of_new (hnew : ∀ d ∈ xs, ∀ e ∈ front, e.name ≠ d.name)
    (hnodup : (xs.map name).Nodup) (hmanner : ∀ d ∈ xs, d.manner ≠ .behind)
    (hknown : ∀ d ∈ xs, ∀ v ∈ uses d, ∃ e ∈ front, e.name = v) : Scoped uses front xs := by
  induction xs generalizing front with
  | nil => trivial
  | cons d rest ih =>
    rw [List.forall_mem_cons] at hnew hmanner hknown
    rw [List.map_cons, List.nodup_cons] at hnodup
    refine ⟨⟨fun _ => hnew.1, fun h => absurd h hmanner.1, hknown.1⟩, ?_⟩
    -- the first definition joins those in front, and no later one has its name
    refine ih ?_ hnodup.2 hmanner.2 ?_
    · intro e he f hf
      rcases List.mem_append.1 hf with hf | hf
      · exact hnew.2 e he f hf
      · rw [List.mem_singleton.1 hf]
        exact fun h => hnodup.1 (h ▸ List.mem_map_of_mem he)
    · intro e he v hv
      obtain ⟨f, hf, hname⟩ := hknown.2 e he v hv
      exact ⟨f, List.mem_append_left _ hf, hname⟩

/-- Additions to variables that are defined outright in front of all of them fit. -/
theorem scoped_of_behind
    (hbehind : ∀ d ∈ xs, d.manner = .behind ∧ ∃ e ∈ front, e.name = d.name ∧ e.manner = .outright)
    (hknown : ∀ d ∈ xs, ∀ v ∈ uses d, ∃ e ∈ front, e.name = v) : Scoped uses front xs := by
  induction xs generalizing front with
  | nil => trivial
  | cons d rest ih =>
    rw [List.forall_mem_cons] at hbehind hknown
    obtain ⟨⟨hmanner, hd⟩, hrest⟩ := hbehind
    refine ⟨⟨fun h => by simp [hmanner] at h, fun _ => hd, hknown.1⟩, ih ?_ ?_⟩
    · intro e he
      obtain ⟨hmanner, f, hf, hname⟩ := hrest e he
      exact ⟨hmanner, f, List.mem_append_left _ hf, hname⟩
    · intro e he v hv
      obtain ⟨f, hf, hname⟩ := hknown.2 e he v hv
      exact ⟨f, List.mem_append_left _ hf, hname⟩

end Definition

/-! ## What lines define -/

theorem uncommented_append {s : List Char} (h : ∀ c ∈ s, c ≠ '#' ∧ c ≠ '\\') (rest : List Char) :
    uncommented 0 (s ++ rest) = s ++ uncommented 0 rest := by
  induction s with
  | nil => rfl
  | cons c more ih =>
    rw [List.forall_mem_cons] at h
    rw [List.cons_append, uncommented, if_neg h.1.2, if_neg h.1.1, ih h.2]
    rfl

/-- A variable that is defined outright. -/
theorem definition?_setting {name : String} (hname : ∀ c ∈ name.toList, isVerbatim c = true)
    (text : List Char) : definition? (name.toList ++ ' ' :: ':' :: '=' :: ' ' :: text) =
      some ⟨name, .outright, ' ' :: uncommented 0 text⟩ := by
  have hfront : ∀ c ∈ name.toList ++ [' ', ':', '=', ' '], c ≠ '#' ∧ c ≠ '\\' := by
    simp only [List.forall_mem_append]
    refine ⟨fun c hc => ?_, by decide⟩
    exact ⟨ne_of_isVerbatim (hname c hc) (by decide), ne_of_isVerbatim (hname c hc) (by decide)⟩
  -- a comment can start in the text only
  have huncommented : uncommented 0 (name.toList ++ ' ' :: ':' :: '=' :: ' ' :: text) =
      name.toList ++ ' ' :: ':' :: '=' :: ' ' :: uncommented 0 text := by
    simpa using uncommented_append hfront text
  rw [definition?, huncommented, operator?_append rfl hname]
  rfl

theorem isLine_setting {name : String} (hname : ∀ c ∈ name.toList, isVerbatim c = true)
    {text : List Char} (h : IsLine text) :
    IsLine (name.toList ++ ' ' :: ':' :: '=' :: ' ' :: text) :=
  (isLine_of_isVerbatim hname).append
    (IsLine.append (s := [' ', ':', '=', ' ']) (.of_forall (by decide)) h)

/-- What stands behind the operator in a line with flags. -/
def flagsText (flags : List String) : List Char :=
  if flags = [] then [] else ' ' :: uncommented 0 (Shell.commandLine flags).toList

/-- A variable that holds flags. -/
theorem definition?_flags {name : String} (hname : ∀ c ∈ name.toList, isVerbatim c = true)
    (flags : List String) :
    definition? (Text.trimRight (name ++ " := " ++ Shell.commandLine flags)).toList =
      some ⟨name, .outright, flagsText flags⟩ := by
  unfold flagsText
  split
  · next hnone =>
    -- without flags the blank behind the operator is trimmed
    have hfront : ∀ c ∈ name.toList ++ [' ', ':', '='], c ≠ '#' ∧ c ≠ '\\' := by
      simp only [List.forall_mem_append]
      refine ⟨fun c hc => ?_, by decide⟩
      exact ⟨ne_of_isVerbatim (hname c hc) (by decide), ne_of_isVerbatim (hname c hc) (by decide)⟩
    have huncommented : uncommented 0 (name.toList ++ [' ', ':', '=']) =
        name.toList ++ [' ', ':', '='] := by
      simpa [uncommented] using uncommented_append hfront []
    rw [hnone, trimRight_noFlags, definition?, huncommented, operator?_append rfl hname]
    rfl
  · next hsome => rw [trimRight_flags name hsome, definition?_setting hname]

theorem isLine_flags {name : String} (hname : ∀ c ∈ name.toList, isVerbatim c = true)
    {flags : List String} (h : ∀ flag ∈ flags, '\n' ∉ flag.toList) :
    IsLine (Text.trimRight (name ++ " := " ++ Shell.commandLine flags)).toList := by
  by_cases hnone : flags = []
  · rw [hnone, trimRight_noFlags]
    exact (isLine_of_isVerbatim hname).append (.of_forall (s := [' ', ':', '=']) (by decide))
  · rw [trimRight_flags name hnone]
    refine isLine_setting hname ?_
    rw [Shell.commandLine, String.toList_intercalate]
    refine .intercalate (.of_forall (by decide)) fun text htext => ?_
    simp only [List.mem_map] at htext
    obtain ⟨_, ⟨flag, hflag, rfl⟩, rfl⟩ := htext
    exact isLine_quote (h flag hflag)

/-! ## Reading definitions -/

/-- Carry out definitions one after the other. -/
def Values.defineAll (values : Values) (ds : List Definition) : Option Values :=
  ds.foldlM (fun values d => values.define d.name d.manner d.text) values

/-- The line is a comment or a definition. -/
def IsFront (line : List Char) : Prop :=
  line.head? = some '#' ∨ (definition? line).isSome

theorem definition?_comment {line : List Char} (h : line.head? = some '#') :
    definition? line = none := by
  cases line with
  | nil => cases h
  | cons c rest =>
    cases h
    rfl

namespace Reading

theorem line_of_definition? {text : List Char} {d : Definition} (h : definition? text = some d)
    (values : Values) : Reading.line ⟨values, []⟩ text =
      (values.define d.name d.manner d.text).map (⟨·, []⟩) := by
  obtain ⟨found, hfound, rfl⟩ := Option.map_eq_some_iff.1 h
  unfold line
  split
  · next hentries => cases hentries
  · simp only [not_blank_of_definitionFrom hfound, Bool.false_eq_true, if_false, statement, hfound]

/-- Reading lines in front of the rules is carrying out their definitions. -/
theorem foldlM_line {lines : List (List Char)} (h : ∀ line ∈ lines, line = [] ∨ IsFront line)
    (values : Values) : lines.foldlM Reading.line ⟨values, []⟩ =
      (values.defineAll (lines.filterMap definition?)).map (⟨·, []⟩) := by
  induction lines generalizing values with
  | nil => rfl
  | cons first rest ih =>
    rw [List.forall_mem_cons] at h
    rw [List.foldlM_cons]
    rcases h.1 with rfl | hcomment | hdefines
    · exact ih h.2 values
    · have hline : Reading.line ⟨values, []⟩ first = some ⟨values, []⟩ := by
        cases first with
        | nil => cases hcomment
        | cons c text =>
          cases hcomment
          exact line_comment _ text
      rw [hline, List.filterMap_cons_none (definition?_comment hcomment)]
      exact ih h.2 values
    · obtain ⟨d, hd⟩ := Option.isSome_iff_exists.1 hdefines
      rw [line_of_definition? hd, List.filterMap_cons_some hd, Values.defineAll, List.foldlM_cons]
      cases values.define d.name d.manner d.text with
      | none => rfl
      | some changed => exact ih h.2 changed

end Reading

namespace Values

variable {values changed : Values} {ds : List Definition}

/-- A definition changes the value of its variable only. -/
theorem get_of_define {name other : String} {manner : Manner} {text : List Char}
    (h : values.define name manner text = some changed) (hne : other ≠ name) :
    changed.get other = values.get other := by
  obtain ⟨value, -, rfl⟩ := Option.map_eq_some_iff.1 h
  split
  · rfl
  · rw [get_cons, if_neg hne]
  · rw [get_cons, if_neg hne]

/-- Definitions of other variables leave a value alone. -/
theorem get_of_defineAll {name : String} (h : values.defineAll ds = some changed)
    (hds : ∀ d ∈ ds, d.name ≠ name) : changed.get name = values.get name := by
  induction ds generalizing values with
  | nil =>
    cases h
    rfl
  | cons d rest ih =>
    rw [List.forall_mem_cons] at hds
    rw [defineAll, List.foldlM_cons] at h
    obtain ⟨next, hnext, hrest⟩ := Option.bind_eq_some_iff.1 h
    rw [ih hrest hds.2, get_of_define hnext hds.1.symm]

/-- A word that is added stands at the end of the value, behind a blank or alone. -/
theorem get_of_define_behind {name : String} {text : List Char} (hreference : '$' ∉ text)
    (h : values.define name .behind text = some changed) :
    ∃ front, changed.get name = front ++ text.dropWhile isBlank ∧
      (front = [] ∨ front.getLast? = some ' ') := by
  have hexpand : expand values.get (text.dropWhile isBlank) = some (text.dropWhile isBlank) :=
    Expands.expand_eq
      (.plain fun hmem => hreference ((List.dropWhile_sublist isBlank).subset hmem))
  rw [define, hexpand, Option.map_some, Option.some.injEq] at h
  subst h
  -- the blank comes in between only if there is a value already
  cases hlookup : values.lookup name with
  | none => exact ⟨[], by simp, Or.inl rfl⟩
  | some old =>
    cases old with
    | nil => exact ⟨[], by simp, Or.inl rfl⟩
    | cons c more => exact ⟨c :: more ++ [' '], by simp, Or.inr List.getLast?_concat⟩

/-- A word that is added by the last definition of a variable stands at the end of its value. -/
theorem get_of_last_behind {name : String} {text : List Char} {front back : List Definition}
    (h : values.defineAll (front ++ ⟨name, .behind, text⟩ :: back) = some changed)
    (hback : ∀ d ∈ back, d.name ≠ name) (hreference : '$' ∉ text) :
    ∃ start, changed.get name = start ++ text.dropWhile isBlank ∧
      (start = [] ∨ start.getLast? = some ' ') := by
  rw [defineAll, List.foldlM_append] at h
  obtain ⟨before, -, h⟩ := Option.bind_eq_some_iff.1 h
  rw [List.foldlM_cons] at h
  obtain ⟨added, hadded, hrest⟩ := Option.bind_eq_some_iff.1 h
  rw [get_of_defineAll hrest hback]
  exact get_of_define_behind hreference hadded

/-- Definitions are carried out if every text among them can be expanded. -/
theorem exists_defineAll
    (h : ∀ d ∈ ds, ∀ value, ∃ expanded, expand value (d.text.dropWhile isBlank) = some expanded)
    (values : Values) : ∃ changed, values.defineAll ds = some changed := by
  induction ds generalizing values with
  | nil => exact ⟨values, rfl⟩
  | cons d rest ih =>
    rw [List.forall_mem_cons] at h
    obtain ⟨expanded, hexpanded⟩ := h.1 values.get
    obtain ⟨next, hnext⟩ : ∃ next, values.define d.name d.manner d.text = some next := by
      rw [define, hexpanded]
      exact ⟨_, rfl⟩
    obtain ⟨changed, hchanged⟩ := ih h.2 next
    refine ⟨changed, ?_⟩
    rw [defineAll, List.foldlM_cons, hnext]
    exact hchanged

end Values

end Makewright.Make

namespace Makewright.Makefile

open Make

variable {m : Makefile}

/-! ## The lines in front of the rules -/

/-- The definitions in the head lines, in order. -/
def definitions (m : Makefile) : List Definition :=
  (m.heads.flatMap Prod.snd).filterMap fun line => definition? line.toList

/-- The text behind the head blocks: the rules and the phony names. -/
def rulesText (m : Makefile) : String :=
  "\n".intercalate (m.allRules.map Rule.render ++ [m.phonyLine])

/-- The blocks of lines in front of the rules. -/
def frontBlocks (m : Makefile) : List (List (List Char)) :=
  (match m.header with
    | some text => if text.isEmpty then [] else [(Text.lines text).map comment]
    | none => [])
  ++ (m.heads.filter fun head => !head.2.isEmpty).map fun head => head.2.map String.toList

/-- The text starts with the lines of the blocks in front of the rules. -/
theorem serialize_front (hfront : m.frontBlocks ≠ []) : m.serialize.toList =
    unlines ([[]].intercalate m.frontBlocks ++ [[]]) ++ m.rulesText.toList := by
  have hchunks : (m.headerChunk ++ m.headChunks).map String.toList =
      m.frontBlocks.map unlines := by
    rw [List.map_append, toList_headerChunk, toList_headChunks, ← List.map_append]
    rfl
  have hne : m.frontBlocks.map unlines ≠ [] := by simpa using hfront
  rw [serialize, rulesText, List.append_assoc, String.toList_intercalate,
    String.toList_intercalate, List.map_append, hchunks]
  have hnewline : "\n".toList = ['\n'] := rfl
  rw [hnewline, Text.intercalate_append ['\n'] hne (by simp), intercalate_unlines]
  simp [unlines]

/-- The empty lines between blocks define nothing. -/
theorem filterMap_intercalate (blocks : List (List (List Char))) :
    ([[]].intercalate blocks).filterMap definition? = blocks.flatten.filterMap definition? := by
  have hempty : [[]].filterMap definition? = [] := rfl
  induction blocks with
  | nil => rfl
  | cons first rest ih =>
    by_cases hrest : rest = []
    · simp [hrest]
    · rw [List.intercalate_cons_of_ne_nil hrest, List.flatten_cons, List.filterMap_append,
        List.filterMap_append, List.filterMap_append, ih, hempty, List.append_nil]

theorem head?_comment (line : String) : (comment line).head? = some '#' := by
  unfold comment
  split <;> rfl

/-- The text of the Makefile starts with these lines: empty ones, comments and the definitions of the
head lines. Its rules stand behind them. -/
structure OpensWith (m : Makefile) (front : List (List Char)) : Prop where
  linesFrom_eq : linesFrom [] false m.serialize.toList =
    front ++ linesFrom [] false m.rulesText.toList
  isFront : ∀ line ∈ front, line = [] ∨ IsFront line
  definitions_eq : front.filterMap definition? = m.definitions

theorem exists_opensWith {header : String} (hheader : m.header = some header)
    (hne : header.isEmpty = false) (hcomments : ∀ line ∈ Text.lines header, IsLine (comment line))
    (hheads : ∀ head ∈ m.heads, ∀ line ∈ head.2, IsLine line.toList ∧ IsFront line.toList) :
    ∃ front, m.OpensWith front := by
  have hblocks : m.frontBlocks.flatten =
      (Text.lines header).map comment ++ (m.heads.flatMap Prod.snd).map String.toList := by
    rw [frontBlocks, hheader]
    simp only [hne, Bool.false_eq_true, if_false]
    rw [List.flatten_append, flatten_headBlocks, List.flatten_singleton]
  have hlines : ∀ line ∈ m.frontBlocks.flatten, IsLine line ∧ IsFront line := by
    intro line hline
    rw [hblocks, List.mem_append] at hline
    rcases hline with hline | hline
    · obtain ⟨text, htext, rfl⟩ := List.mem_map.1 hline
      exact ⟨hcomments text htext, Or.inl (head?_comment text)⟩
    · obtain ⟨text, htext, rfl⟩ := List.mem_map.1 hline
      obtain ⟨head, hhead, htext⟩ := List.mem_flatMap.1 htext
      exact hheads head hhead text htext
  -- between the blocks and behind the last one there are empty lines
  have hfront : ∀ line ∈ [[]].intercalate m.frontBlocks ++ [[]],
      line = [] ∨ IsLine line ∧ IsFront line := by
    intro line hline
    rcases List.mem_append.1 hline with hline | hline
    · rcases Text.mem_of_mem_intercalate hline with hempty | hline
      · exact Or.inl (List.mem_singleton.1 hempty)
      · exact Or.inr (hlines line hline)
    · exact Or.inl (List.mem_singleton.1 hline)
  refine ⟨[[]].intercalate m.frontBlocks ++ [[]], ?_, ?_, ?_⟩
  · rw [serialize_front, linesFrom_unlines_append]
    · intro line hline
      rcases hfront line hline with rfl | ⟨hline, -⟩
      · exact .nil
      · exact hline
    · rw [frontBlocks, hheader]
      simp [hne]
  · exact fun line hline => (hfront line hline).imp_right And.right
  · have hnone : (Text.lines header).filterMap (fun line => definition? (comment line)) = [] := by
      rw [List.filterMap_eq_nil_iff]
      exact fun line _ => definition?_comment (head?_comment line)
    rw [List.filterMap_append, filterMap_intercalate, hblocks, List.filterMap_append,
      List.filterMap_map, List.filterMap_map, definitions]
    simp only [Function.comp_def, hnone, List.nil_append]
    exact List.append_nil _

/-- Reading what stands in front of the rules is carrying out the definitions in the head lines. -/
theorem OpensWith.foldlM_line {front : List (List Char)} (h : m.OpensWith front) (given : Values) :
    front.foldlM Reading.line ⟨given, []⟩ = (given.defineAll m.definitions).map (⟨·, []⟩) := by
  rw [Reading.foldlM_line h.isFront, h.definitions_eq]

/-- Reading the head lines is carrying out their definitions. -/
theorem foldlM_heads (h : ∀ head ∈ m.heads, ∀ line ∈ head.2, IsFront line.toList)
    (given : Values) : ((m.heads.flatMap Prod.snd).map String.toList).foldlM Reading.line ⟨given, []⟩ =
      (given.defineAll m.definitions).map (⟨·, []⟩) := by
  rw [Reading.foldlM_line, List.filterMap_map]
  · rfl
  · intro line hline
    obtain ⟨text, htext, rfl⟩ := List.mem_map.1 hline
    obtain ⟨head, hhead, htext⟩ := List.mem_flatMap.1 htext
    exact Or.inr (h head hhead text htext)

end Makewright.Makefile
