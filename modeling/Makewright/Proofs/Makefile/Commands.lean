import Makewright.Node.Rules
import Makewright.Proofs.Makefile.Definitions

/-!
# What the words of a command mean

Make replaces the references in a line of a recipe, and a shell reads the result. `Means value w
tokens` says that the two of them make these tokens of a word, and `Conveys` says so of several
words one after the other. A flag means itself, whatever stands around it (`Means.flag`). The
argument vectors of a line are those that its tokens make (`lineVectors_eq`).
-/

set_option autoImplicit false

namespace Makewright.Make

open Shell

variable {value : String → List Char} {w : Word} {words more : List Word}
  {tokens tokens' : List Token}

/-- Make expands the word to a text that a shell reads as the tokens. -/
def Means (value : String → List Char) (w : Word) (tokens : List Token) : Prop :=
  ∃ text, Expands value w.text.toList text ∧ Reads text tokens

/-- The words mean the tokens, one after the other. -/
def Conveys (value : String → List Char) (words : List Word) (tokens : List Token) : Prop :=
  ∃ parts, List.Forall₂ (Means value) words parts ∧ parts.flatten = tokens

/-- The text starts with a character that stands for itself and is no mark of make's own. -/
def Begins (text : List Char) : Prop :=
  ∃ c rest, text = c :: rest ∧ isInert c = true ∧ c ∉ ['@', '-', '+']

/-- The word stands first in a line: it means the tokens, and the line begins with what it expands
to. -/
def Opens (value : String → List Char) (w : Word) (tokens : List Token) : Prop :=
  ∃ text, Begins text ∧ Expands value w.text.toList text ∧ Reads text tokens

/-! ## Words -/

theorem not_mem_of_isInert {text : List Char} (h : ∀ c ∈ text, isInert c = true) {d : Char}
    (hd : isInert d = false) : d ∉ text :=
  fun hmem => ne_of_isInert (h d hmem) hd rfl

namespace Means

/-- What expands to a text of inert characters is one word. -/
theorem word {text : String} (h : Expands value w.text.toList text.toList) (hne : text ≠ "")
    (hinert : ∀ c ∈ text.toList, isInert c = true) : Means value w [.word text] :=
  ⟨text.toList, h, .bare hne fun c hc => isBare_of_isInert (hinert c hc)⟩

/-- A text of inert characters stands for itself. -/
theorem inert {text : String} (htext : w.text = text) (hne : text ≠ "")
    (h : ∀ c ∈ text.toList, isInert c = true) : Means value w [.word text] := by
  refine word ?_ hne h
  rw [htext]
  exact .plain (not_mem_of_isInert h (by decide))

theorem name {path : String} (h : IsFileName path) : Means value (.plain path) [.word path] :=
  inert rfl h.ne_empty fun c hc => isInert_of_isPlain (h.all c hc)

theorem file {r : Resource} (h : IsFileName r.fullPath) (option : String)
    (hoption : ∀ c ∈ option.toList, isInert c = true) :
    Means value (.file r option) [.word (option ++ r.fullPath)] := by
  refine inert rfl ?_ ?_
  · simp [h.ne_empty]
  · intro c hc
    rw [String.toList_append] at hc
    rcases List.mem_append.1 hc with hc | hc
    · exact hoption c hc
    · exact isInert_of_isPlain (h.all c hc)

/-- Whatever its characters are, make and the shell hand on a flag as it is. -/
theorem flag {flag : String} (h : IsLiteral flag) : Means value (.flag flag) [.word flag] :=
  ⟨_, .plain (not_mem_quote h.reference (by decide)), .quote flag⟩

/-- A reference means what the value means. -/
theorem reference {name text : String} (htext : text = "$(" ++ name ++ ")")
    (hname : ')' ∉ name.toList) (h : Reads (value name) tokens) :
    Means value (.plain text) tokens :=
  ⟨value name, htext ▸ .reference value hname, h⟩

/-- The target of the rule. -/
theorem target {made : String} (hvalue : value "@" = made.toList) (h : IsFileName made) :
    Means value (.plain "$@") [.word made] :=
  word (hvalue ▸ .target value) h.ne_empty fun c hc => isInert_of_isPlain (h.all c hc)

theorem next : Means value (.plain "&&") [.next] :=
  ⟨_, .plain (by decide), .next⟩

theorem assign {name setting : String} (hname : isName name.toList = true)
    (h : IsLiteral setting) :
    Means value (.plain (name ++ "=" ++ quote setting)) [.assign name setting] := by
  refine ⟨_, .plain ?_, .assign hname setting⟩
  have hfront : '$' ∉ name.toList := not_mem_name hname rfl
  have hquoted : '$' ∉ (quote setting).toList := not_mem_quote h.reference (by decide)
  simp only [Word.text, String.toList_append, List.mem_append, not_or]
  exact ⟨⟨hfront, by decide⟩, hquoted⟩

end Means

/-! ## Several words -/

namespace Conveys

theorem nil : Conveys value [] [] :=
  ⟨[], .nil, rfl⟩

theorem cons (h : Means value w tokens) (hmore : Conveys value more tokens') :
    Conveys value (w :: more) (tokens ++ tokens') := by
  obtain ⟨parts, hparts, rfl⟩ := hmore
  exact ⟨tokens :: parts, .cons h hparts, rfl⟩

theorem append (h : Conveys value words tokens) (hmore : Conveys value more tokens') :
    Conveys value (words ++ more) (tokens ++ tokens') := by
  obtain ⟨parts, hparts, rfl⟩ := h
  obtain ⟨parts', hparts', rfl⟩ := hmore
  exact ⟨parts ++ parts', List.rel_append hparts hparts', List.flatten_append⟩

theorem single (h : Means value w tokens) : Conveys value [w] tokens := by
  simpa using cons h nil

/-- Each of several words means one token. -/
theorem map {α : Type} {items : List α} {toWord : α → Word} (meaning : α → Token)
    (h : ∀ item ∈ items, Means value (toWord item) [meaning item]) :
    Conveys value (items.map toWord) (items.map meaning) := by
  induction items with
  | nil => exact nil
  | cons item rest ih =>
    have hrest := ih fun other hother => h other (List.mem_cons_of_mem item hother)
    exact cons (h item List.mem_cons_self) hrest

end Conveys

/-! ## Arguments -/

/-- The words hand on these arguments, one after the other. -/
def Hands (value : String → List Char) (words : List Word) (args : List String) : Prop :=
  Conveys value words (args.map .word)

namespace Hands

variable {args args' : List String}

theorem nil : Hands value [] [] :=
  Conveys.nil

theorem append (h : Hands value words args) (hmore : Hands value more args') :
    Hands value (words ++ more) (args ++ args') := by
  rw [Hands, List.map_append]
  exact Conveys.append h hmore

/-- A reference hands on the words of the value. -/
theorem reference {name text : String} (htext : text = "$(" ++ name ++ ")")
    (hname : ')' ∉ name.toList) (h : Reads (value name) (args.map .word)) :
    Hands value [.plain text] args :=
  .single (.reference htext hname h)

/-- Each of several words hands on one argument. -/
theorem map {α : Type} {items : List α} {toWord : α → Word} (argument : α → String)
    (h : ∀ item ∈ items, Means value (toWord item) [.word (argument item)]) :
    Hands value (items.map toWord) (items.map argument) := by
  rw [Hands, List.map_map]
  exact .map (.word ∘ argument) h

theorem flags {flags : List String} (h : ∀ flag ∈ flags, IsLiteral flag) :
    Hands value (flags.map .flag) flags := by
  simpa using map id fun flag hflag => Means.flag (h flag hflag)

theorem files {files : List Resource} (h : ∀ r ∈ files, IsFileName r.fullPath) (option : String)
    (hoption : ∀ c ∈ option.toList, isInert c = true) :
    Hands value (files.map (.file · option)) (files.map (option ++ ·.fullPath)) :=
  map (option ++ ·.fullPath) fun r hr => .file (h r hr) option hoption

theorem file {r : Resource} (h : IsFileName r.fullPath) :
    Hands value [.file r] [r.fullPath] := by
  have hoption : ∀ c ∈ "".toList, isInert c = true := by decide
  simpa using files (List.forall_mem_singleton.2 h) "" hoption

/-- Words that stand for themselves. -/
theorem plains (texts : List String)
    (h : ∀ text ∈ texts, text ≠ "" ∧ ∀ c ∈ text.toList, isInert c = true) :
    Hands value (texts.map .plain) texts := by
  have hword : ∀ text ∈ texts, Means value (.plain text) [.word (id text)] := by
    intro text htext
    obtain ⟨hne, hinert⟩ := h text htext
    exact .inert rfl hne hinert
  simpa using map id hword

theorem name {path : String} (h : IsFileName path) : Hands value [.plain path] [path] :=
  .single (.name h)

theorem target {made : String} (hvalue : value "@" = made.toList) (h : IsFileName made) :
    Hands value [.plain "$@"] [made] :=
  .single (.target hvalue h)

end Hands

/-! ## The target of the rule -/

/-- The directory of a file. -/
def parentOf (path : String) : String :=
  String.ofList (directoryOf path.toList)

/-- The directory of a file with a plain name has a plain name. -/
theorem isFileName_parentOf {path : String} (h : IsFileName path) : IsFileName (parentOf path) := by
  have hdirectory : directoryOf path.toList ≠ [] ∧
      ∀ c ∈ directoryOf path.toList, isPlain c = true := by
    unfold directoryOf
    split
    · exact ⟨by decide, by decide⟩
    · exact ⟨by decide, by decide⟩
    · next before after hne hcut =>
      refine ⟨?_, fun c hc => h.all c ?_⟩
      · rintro rfl
        exact hne rfl
      · rw [Text.cutLast?_eq_some hcut]
        exact List.mem_append_left _ hc
  refine ⟨?_, ?_⟩
  · rw [parentOf, ne_eq, ← String.toList_eq_nil_iff, String.toList_ofList]
    exact hdirectory.1
  · rw [parentOf, String.toList_ofList]
    exact hdirectory.2

theorem making_of_ne {name : String} (hname : name ≠ "@" ∧ name ≠ "@D") (values : Values)
    (made : String) : values.making made name = values.get name := by
  rw [Values.making, if_neg hname.1, if_neg hname.2]

/-- The command that makes a directory. -/
theorem isCommand_makeDirectory {directory : String} (h : IsFileName directory) :
    IsCommand (" ".intercalate ["mkdir", "-p", directory]) ["mkdir", "-p", directory] := by
  have hname : '=' ∉ "mkdir".toList ∧ ∀ c ∈ ['@', '-', '+'], "mkdir".toList.head? ≠ some c := by
    decide
  refine ⟨rfl, ?_, ⟨_, _, rfl, hname⟩⟩
  simp only [List.forall_mem_cons]
  exact ⟨⟨by decide, by decide⟩, ⟨by decide, by decide⟩,
    ⟨h.ne_empty, fun c hc => isInert_of_isPlain (h.all c hc)⟩, by simp⟩

/-- The line that makes the directory of the target does so. -/
theorem opens_makeDirectory (values : Values) {made : String} (h : IsFileName made) :
    Opens (values.making made) (.plain "mkdir -p $(@D)")
      (["mkdir", "-p", parentOf made].map .word) := by
  have hcommand := isCommand_makeDirectory (isFileName_parentOf h)
  refine ⟨_, hcommand.exists_cons, ?_, hcommand.reads⟩
  have hvalue : values.making made "@D" = (parentOf made).toList := by
    rw [parentOf, String.toList_ofList]
    rfl
  have hname : ')' ∉ "@D".toList := by decide
  have hfront : '$' ∉ "mkdir -p ".toList := by decide
  have hexpands := (Expands.plain hfront).append (.reference (values.making made) hname)
  rw [← String.toList_append, hvalue, ← String.toList_append] at hexpands
  have hword : "mkdir -p $(@D)" = "mkdir -p " ++ ("$(" ++ "@D" ++ ")") := by decide
  have hline : " ".intercalate ["mkdir", "-p", parentOf made] = "mkdir -p " ++ parentOf made := by
    simp [← String.toList_inj]
  rw [Word.text, hword, hline]
  exact hexpands

/-! ## Lines -/

namespace Opens

/-- The name of a program. -/
theorem name {text : String}
    (hfirst : text.toList.head?.any (fun c => isInert c && c ∉ ['@', '-', '+']) = true)
    (h : ∀ c ∈ text.toList, isInert c = true) : Opens value (.plain text) [.word text] := by
  obtain ⟨c, hc, hmark⟩ := Option.any_eq_true _ _ |>.1 hfirst
  obtain ⟨rest, htext⟩ := List.head?_eq_some_iff.1 hc
  simp only [Bool.and_eq_true, decide_eq_true_eq] at hmark
  refine ⟨text.toList, ⟨c, rest, htext, hmark⟩, .plain (not_mem_of_isInert h (by decide)), ?_⟩
  refine .bare ?_ fun c hc => isBare_of_isInert (h c hc)
  rw [ne_eq, ← String.toList_eq_nil_iff, htext]
  exact List.cons_ne_nil c rest

/-- A reference to the command that a program is run with. -/
theorem command {name text command : String} {args : List String}
    (htext : text = "$(" ++ name ++ ")") (hname : ')' ∉ name.toList)
    (hvalue : value name = command.toList) (h : IsCommand command args) :
    Opens value (.plain text) (args.map .word) :=
  ⟨command.toList, h.exists_cons, hvalue ▸ htext ▸ .reference value hname, h.reads⟩

end Opens

variable {values : Values} {made : String}

/-- The marks in front of a line do not reach the shell. -/
theorem lineVectors_at (m : Machine) (values : Values) (made : String) (line : List Char) :
    lineVectors m values made ('@' :: line) = lineVectors m values made line := by
  have hmark : Expands (values.making made) ['@'] ['@'] := .plain (by decide)
  have hexpand := hmark line
  simp only [List.singleton_append] at hexpand
  unfold lineVectors expand
  rw [hexpand, Option.bind_map]
  rfl

/-- The argument vectors of a line are those that its tokens make. -/
theorem lineVectors_eq (hfirst : Opens (values.making made) w tokens)
    (hmore : Conveys (values.making made) more tokens')
    (hproper : Token.Proper false (tokens ++ tokens')) (m : Machine) :
    lineVectors m values made (Word.line (w :: more)).toList =
      some (Token.vectorsFrom [] (tokens ++ tokens')) := by
  obtain ⟨text, ⟨c, rest, rfl, hinert, hmark⟩, hexpands, hreads⟩ := hfirst
  obtain ⟨parts, hparts, rfl⟩ := hmore
  -- the texts that the further words expand to, chosen word by word
  obtain ⟨texts, hexpanded, hread⟩ : ∃ texts,
      List.Forall₂ (Expands (values.making made)) (more.map (·.text.toList)) texts ∧
        List.Forall₂ Reads texts parts := by
    clear hproper
    induction hparts with
    | nil => exact ⟨[], .nil, .nil⟩
    | cons hmeans _ ih =>
      obtain ⟨text, hexpands, hreads⟩ := hmeans
      obtain ⟨texts, hexpanded, hread⟩ := ih
      exact ⟨text :: texts, .cons hexpands hexpanded, .cons hreads hread⟩
  have hline : (Word.line (w :: more)).toList =
      [' '].intercalate (w.text.toList :: more.map (·.text.toList)) := by
    rw [Word.line, String.toList_intercalate, List.map_map]
    rfl
  have hblank : '$' ∉ [' '] := by decide
  have hwhole := (Expands.intercalate hblank (.cons hexpands hexpanded)).expand_eq
  have hscript : scriptOf ([' '].intercalate ((c :: rest) :: texts)) =
      [' '].intercalate ((c :: rest) :: texts) := by
    -- the first word begins with no mark for the line, so that nothing is taken off the script
    have hkept : isBlank c = false ∧ ¬c = '@' ∧ ¬c = '-' ∧ ¬c = '+' :=
      ⟨not_isBlank_of_isInert hinert, by simpa using hmark⟩
    cases texts with
    | nil => simp [scriptOf, hkept]
    | cons second rest => simp [scriptOf, List.intercalate_cons_cons, hkept]
  have hreadAll := Reads.intercalate (.cons hreads hread)
  rw [lineVectors, hline, hwhole, Option.bind_some, hscript]
  exact vectors_of_reads hreadAll hproper m

/-- A mark in front of the first word of a line stands in front of the line. -/
theorem line_at (text : String) {marked : String} (h : marked = "@" ++ text) (more : List Word) :
    (Word.line (.plain marked :: more)).toList =
      '@' :: (Word.line (.plain text :: more)).toList := by
  subst h
  cases more <;> simp [Word.line, Word.text]

/-- A line that runs one program hands it its arguments. -/
theorem lineVectors_eq_single {name : String} {front args : List String}
    (hfirst : Opens (values.making made) w ((name :: front).map .word)) (hname : '=' ∉ name.toList)
    (hmore : Hands (values.making made) more args) (m : Machine) :
    lineVectors m values made (Word.line (w :: more)).toList = some [name :: front ++ args] := by
  have hproper : Token.Proper false ((name :: front).map .word ++ args.map .word) := by
    rw [List.map_cons, List.cons_append]
    exact ⟨.inr hname, (Token.proper_words _ _).2 (Token.proper_words_nil args)⟩
  rw [lineVectors_eq hfirst hmore hproper, ← List.map_append, Token.vectorsFrom_words_nil]
  rfl

/-- A line that runs the command of a variable. -/
theorem lineVectors_eq_command {name text command : String} {words args : List String}
    (htext : text = "$(" ++ name ++ ")") (hname : ')' ∉ name.toList)
    (hvalue : values.making made name = command.toList) (hcommand : IsCommand command words)
    (hmore : Hands (values.making made) more args) (m : Machine) :
    lineVectors m values made (Word.line (.plain text :: more)).toList =
      some [words ++ args] := by
  obtain ⟨program, front, rfl, hequals, -⟩ := hcommand.name
  exact lineVectors_eq_single (.command htext hname hvalue hcommand) hequals hmore m

/-- The line that makes the directory of the target. -/
theorem lineVectors_makeOwnDir (h : IsFileName made) (m : Machine) :
    lineVectors m values made (Word.line makeOwnDir).toList =
      some [["mkdir", "-p", parentOf made]] := by
  have hname : '=' ∉ "mkdir".toList := by decide
  rw [makeOwnDir, line_at "mkdir -p $(@D)" (by decide), lineVectors_at]
  exact lineVectors_eq_single (opens_makeDirectory values h) hname .nil m

end Makewright.Make
