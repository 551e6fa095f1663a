import Makewright.Makefile
import Makewright.Proofs.Makefile.Expansion
import Makewright.Proofs.Shell.Words
import Mathlib.Data.List.TakeWhile

/-!
# How make reads a Makefile

Make reads a text line by line: a line that starts with a tab belongs to the recipe of the rule
before it, a `#` starts a comment in any other line, and what is left defines a variable or starts a
rule. `read` does so, and `Reading.vectors` are the argument vectors of the commands that make hands
to a shell for a target: the lines of the recipe with their references replaced.

The text of a Makefile whose lines are `IsLine`s and whose rules name files by words is read as the
rules that it was written from (`read_serialize`).
-/

set_option autoImplicit false

namespace Makewright.Make

/-- The characters that stand between words. -/
def blanks : List Char := [' ', '\t', '\x0b', '\x0c', '\r']

/-- A character stands between words. -/
def isBlank (c : Char) : Bool :=
  c ∈ blanks

/-- A character that stands for itself in a word of a command. -/
def isInert (c : Char) : Bool :=
  Shell.isBare c && !isBlank c

/-- A character that stands for itself in the name of a file as well, wherever a rule names it. -/
def isPlain (c : Char) : Bool :=
  isInert c && c ∉ [':', '=', '%']

/-- The characters that mean something to make where a rule names files. -/
def marks : List Char :=
  ['\n', ':', ';', '=', '#', '$', '%', '\\', '|', '&', '*', '?', '[', '(', ')', '~']

/-- A character that stands for itself where a rule names files. -/
def isVerbatim (c : Char) : Bool :=
  c ∉ marks && !isBlank c

/-- The text is made of characters that `p` accepts, of one at least. -/
structure IsMadeOf (p : Char → Bool) (text : String) : Prop where
  ne_empty : text ≠ ""
  all : ∀ c ∈ text.toList, p c = true

instance (p : Char → Bool) (text : String) : Decidable (IsMadeOf p text) :=
  decidable_of_iff (text ≠ "" ∧ ∀ c ∈ text.toList, p c = true)
    ⟨fun h => ⟨h.1, h.2⟩, fun h => ⟨h.1, h.2⟩⟩

/-- The text is a single word where a rule names files. -/
abbrev IsWord (text : String) : Prop :=
  IsMadeOf isVerbatim text

/-- The text can stand for a file in a rule and in a command. -/
abbrev IsFileName (text : String) : Prop :=
  IsMadeOf isPlain text

/-- The text fills a line: there is no line break in it, and none behind it is escaped. -/
structure IsLine (text : List Char) : Prop where
  unbroken : '\n' ∉ text
  closed : text.getLast? ≠ some '\\'

instance (text : List Char) : Decidable (IsLine text) :=
  decidable_of_iff ('\n' ∉ text ∧ text.getLast? ≠ some '\\')
    ⟨fun h => ⟨h.1, h.2⟩, fun h => ⟨h.1, h.2⟩⟩

/-! ## The reading -/

/-- The lines of a text, behind the line that has begun. A line break behind a backslash does not
end a line; `escaped` says that there is one. -/
def linesFrom (line : List Char) (escaped : Bool) : List Char → List (List Char)
  | [] => [line]
  | c :: rest =>
    if c = '\n' && !escaped then line :: linesFrom [] false rest
    else linesFrom (line ++ [c]) (c == '\\' && !escaped) rest

/-- A line without its comment. Half of the backslashes in front of a `#` are dropped, and an odd
number of them keeps it from starting a comment; `slashes` of them have been read. -/
def uncommented (slashes : Nat) : List Char → List Char
  | [] => List.replicate slashes '\\'
  | c :: rest =>
    if c = '\\' then uncommented (slashes + 1) rest
    else if c = '#' then
      List.replicate (slashes / 2) '\\' ++
        if slashes % 2 = 1 then c :: uncommented 0 rest else []
    else List.replicate slashes '\\' ++ c :: uncommented 0 rest

/-- The words of a text, behind the one that has begun. -/
def wordsFrom (word : List Char) : List Char → List String
  | [] => if word.isEmpty then [] else [String.ofList word]
  | c :: rest =>
    if isBlank c then (if word.isEmpty then [] else [String.ofList word]) ++ wordsFrom [] rest
    else wordsFrom (word ++ [c]) rest

/-- How a line defines a variable: outright, behind the value that it has, or unless it has one. -/
inductive Manner where
  | outright
  | behind
  | fallback

/-- The manner of a definition and the text behind its operator. -/
def operator? : List Char → Option (Manner × List Char)
  | ':' :: '=' :: rest => some (.outright, rest)
  | '=' :: rest => some (.outright, rest)
  | '+' :: '=' :: rest => some (.behind, rest)
  | '?' :: '=' :: rest => some (.fallback, rest)
  | _ => none

/-- The name, the manner and the text of a definition, behind a part of the name. -/
def definitionFrom (name : List Char) : List Char → Option (String × Manner × List Char)
  | [] => none
  | c :: rest =>
    match operator? (c :: rest) with
    | some (manner, text) => some (String.ofList name, manner, text)
    | none =>
      if isBlank c then (operator? (rest.dropWhile isBlank)).map (String.ofList name, ·)
      else if c = ':' then none
      else definitionFrom (name ++ [c]) rest

/-- The values of variables, the latest ones in front. -/
abbrev Values := List (String × List Char)

/-- The value of a variable; an unknown one is empty. -/
def Values.get (values : Values) (name : String) : List Char :=
  (values.lookup name).getD []

/-- Define a variable. The text is expanded at once. -/
def Values.define (values : Values) (name : String) (manner : Manner) (text : List Char) :
    Option Values :=
  (expand values.get (text.dropWhile isBlank)).map fun value =>
    match manner, values.lookup name with
    | .fallback, some _ => values
    | .behind, some (c :: old) => (name, c :: old ++ ' ' :: value) :: values
    | _, _ => (name, value) :: values

/-- A rule as it is read: targets, what has to be there first, and the lines of the recipe. -/
structure Entry where
  targets : List String
  prerequisites : List String
  recipe : List (List Char)
  deriving DecidableEq

/-- What has been read: values of variables, and rules, the latest one in front. -/
structure Reading where
  values : Values
  entries : List Entry
  deriving DecidableEq

namespace Reading

/-- Read a line outside of a recipe that is not empty. -/
def statement (r : Reading) (line : List Char) : Option Reading :=
  match definitionFrom [] line with
  | some (name, manner, text) =>
    (r.values.define name manner text).map fun values => { r with values }
  | none => do
    let (targets, prerequisites) ← Text.cutFirst? ':' (← expand r.values.get line)
    some { r with entries := ⟨wordsFrom [] targets, wordsFrom [] prerequisites, []⟩ :: r.entries }

/-- Read a line. -/
def line (r : Reading) (text : List Char) : Option Reading :=
  match text, r.entries with
  | '\t' :: command, entry :: earlier =>
    some { r with entries := { entry with recipe := entry.recipe ++ [command] } :: earlier }
  | _, _ =>
    let text := uncommented 0 text
    if text.all isBlank then some r else r.statement text

end Reading

/-- Read a text, with values of variables to begin with. -/
def read (given : Values) (text : List Char) : Option Reading :=
  (linesFrom [] false text).foldlM Reading.line ⟨given, []⟩

/-- The directory of a target. -/
def directoryOf (target : List Char) : List Char :=
  match Text.cutLast? '/' target with
  | none => ['.']
  | some ([], _) => ['/']
  | some (before, _) => before

/-- The values of variables while a target is made. -/
def Values.making (values : Values) (target name : String) : List Char :=
  if name = "@" then target.toList
  else if name = "@D" then directoryOf target.toList
  else values.get name

/-- The script that a line of a recipe hands to a shell: without the marks in front that say how
make runs it. -/
def scriptOf (line : List Char) : List Char :=
  line.dropWhile fun c => isBlank c || c ∈ ['@', '-', '+']

/-- The argument vectors of the commands of a line of a recipe. -/
def lineVectors (m : Shell.Machine) (values : Values) (target : String) (line : List Char) :
    Option (List (List String)) :=
  (expand (values.making target) line).bind fun text => Shell.vectors m (scriptOf text)

/-- The recipe for a target: the lines of the last rule for it that has any. -/
def Reading.recipe (r : Reading) (target : String) : List (List Char) :=
  match r.entries.find? fun entry => target ∈ entry.targets ∧ entry.recipe ≠ [] with
  | some entry => entry.recipe
  | none => []

/-- The argument vectors of the commands that make a target, line by line. -/
def Reading.vectors (m : Shell.Machine) (r : Reading) (target : String) :
    Option (List (List (List String))) :=
  (r.recipe target).mapM (lineVectors m r.values target)

/-! ## Lines -/

/-- Lines, each with its end. -/
def unlines (lines : List (List Char)) : List Char :=
  lines.flatMap (· ++ ['\n'])

namespace IsLine

variable {s t : List Char}

theorem nil : IsLine [] :=
  ⟨List.not_mem_nil, by simp⟩

theorem append (hs : IsLine s) (ht : IsLine t) : IsLine (s ++ t) := by
  refine ⟨?_, ?_⟩
  · simp [hs.unbroken, ht.unbroken]
  · intro hlast
    rw [List.getLast?_append, Option.or_eq_some_iff] at hlast
    rcases hlast with hlast | ⟨-, hlast⟩
    · exact ht.closed hlast
    · exact hs.closed hlast

/-- A text in which nothing can end a line or escape its end. -/
theorem of_forall (h : ∀ c ∈ s, c ≠ '\n' ∧ c ≠ '\\') : IsLine s := by
  refine ⟨fun hmem => (h _ hmem).1 rfl, ?_⟩
  intro hlast
  exact (h _ (List.mem_of_getLast? hlast)).2 rfl

theorem intercalate {sep : List Char} (hsep : IsLine sep) {texts : List (List Char)}
    (h : ∀ text ∈ texts, IsLine text) : IsLine (sep.intercalate texts) := by
  induction texts with
  | nil => exact nil
  | cons first rest ih =>
    have hfirst := h first List.mem_cons_self
    have hrest := ih fun text htext => h text (List.mem_cons_of_mem first htext)
    cases rest with
    | nil => simpa using hfirst
    | cons second more =>
      rw [List.intercalate_cons_cons]
      exact (hfirst.append hsep).append hrest

end IsLine

theorem linesFrom_append {s : List Char} (h : IsLine s) (hne : s ≠ []) (line rest : List Char)
    (escaped : Bool) :
    linesFrom line escaped (s ++ '\n' :: rest) = (line ++ s) :: linesFrom [] false rest := by
  obtain ⟨hunbroken, hclosed⟩ := h
  induction s generalizing line escaped with
  | nil => exact absurd rfl hne
  | cons c more ih =>
    simp only [List.mem_cons, not_or] at hunbroken
    rw [List.cons_append, linesFrom, if_neg (by simp [Ne.symm hunbroken.1])]
    cases more with
    | nil =>
      have hc : c ≠ '\\' := by simpa using hclosed
      simp [linesFrom, hc]
    | cons d others =>
      rw [ih (List.cons_ne_nil d others) (line ++ [c]) _ hunbroken.2 (by simpa using hclosed)]
      simp

/-- The lines that a text starts with, each with its end, are its first ones. -/
theorem linesFrom_unlines_append {lines : List (List Char)} (h : ∀ line ∈ lines, IsLine line)
    (rest : List Char) :
    linesFrom [] false (unlines lines ++ rest) = lines ++ linesFrom [] false rest := by
  induction lines with
  | nil => rfl
  | cons first others ih =>
    have hothers := ih fun line hline => h line (List.mem_cons_of_mem first hline)
    have htext : unlines (first :: others) ++ rest =
        first ++ '\n' :: (unlines others ++ rest) := by
      simp [unlines]
    rw [htext]
    by_cases hfirst : first = []
    · rw [hfirst, List.nil_append, linesFrom, if_pos (by decide)]
      exact congrArg (List.cons []) hothers
    · rw [linesFrom_append (h first List.mem_cons_self) hfirst]
      exact congrArg (List.cons first) hothers

/-- The lines of a text are the ones that it was made of, and an empty one behind the last end. -/
theorem linesFrom_unlines {lines : List (List Char)} (h : ∀ line ∈ lines, IsLine line) :
    linesFrom [] false (unlines lines) = lines ++ [[]] := by
  have hlines := linesFrom_unlines_append h []
  rwa [List.append_nil] at hlines

namespace Reading

theorem line_nil (r : Reading) : r.line [] = some r := rfl

/-- A text of whole lines is read line by line. -/
theorem read_unlines {lines : List (List Char)} (h : ∀ line ∈ lines, IsLine line) (given : Values) :
    read given (unlines lines) = lines.foldlM line ⟨given, []⟩ := by
  rw [read, linesFrom_unlines h, List.foldlM_append]
  simp [line_nil]

theorem uncommented_eq {s : List Char} (h : '#' ∉ s) (slashes : Nat) :
    uncommented slashes s = List.replicate slashes '\\' ++ s := by
  induction s generalizing slashes with
  | nil => simp [uncommented]
  | cons c rest ih =>
    simp only [List.mem_cons, not_or] at h
    by_cases hc : c = '\\'
    · rw [uncommented, if_pos hc, ih h.2, List.replicate_succ', hc, List.append_assoc]
      rfl
    · rw [uncommented, if_neg hc, if_neg (Ne.symm h.1), ih h.2]
      rfl

theorem line_comment (r : Reading) (text : List Char) : r.line ('#' :: text) = some r := rfl

/-- A line behind a tab goes to the recipe of the rule before it. -/
theorem line_recipe (values : Values) (entry : Entry) (earlier : List Entry)
    (command : List Char) : line ⟨values, entry :: earlier⟩ ('\t' :: command) =
      some ⟨values, { entry with recipe := entry.recipe ++ [command] } :: earlier⟩ := rfl

theorem foldlM_recipe (values : Values) (entry : Entry) (earlier : List Entry)
    (commands : List (List Char)) :
    (commands.map ('\t' :: ·)).foldlM line ⟨values, entry :: earlier⟩ =
      some ⟨values, { entry with recipe := entry.recipe ++ commands } :: earlier⟩ := by
  induction commands generalizing entry with
  | nil => simp
  | cons command rest ih =>
    rw [List.map_cons, List.foldlM_cons, line_recipe]
    simp [ih]

end Reading

/-! ## Definitions -/

theorem isInert_of_isPlain {c : Char} (h : isPlain c = true) : isInert c = true :=
  (Bool.and_eq_true_iff.1 h).1

theorem isBare_of_isInert {c : Char} (h : isInert c = true) : Shell.isBare c = true :=
  (Bool.and_eq_true_iff.1 h).1

theorem not_isBlank_of_isInert {c : Char} (h : isInert c = true) : isBlank c = false := by
  simpa using (Bool.and_eq_true_iff.1 h).2

theorem not_isBlank_of_isPlain {c : Char} (h : isPlain c = true) : isBlank c = false :=
  not_isBlank_of_isInert (isInert_of_isPlain h)

theorem ne_of_isInert {c d : Char} (h : isInert c = true) (hd : isInert d = false) : c ≠ d := by
  rintro rfl
  rw [h] at hd
  cases hd

/-- A character that stands for itself is none of those that mean something. -/
theorem ne_of_isVerbatim {c d : Char} (h : isVerbatim c = true) (hd : isVerbatim d = false) :
    c ≠ d := by
  rintro rfl
  rw [h] at hd
  cases hd

theorem not_isBlank_of_isVerbatim {c : Char} (h : isVerbatim c = true) : isBlank c = false := by
  simpa using (Bool.and_eq_true_iff.1 h).2

/-- What means nothing to make or to a shell means nothing to make. -/
theorem isVerbatim_of_isPlain {c : Char} (h : isPlain c = true) : isVerbatim c = true := by
  have hmarks : ∀ d ∈ marks, isPlain d = false := by decide
  have hmem : c ∉ marks := by
    intro hmem
    rw [hmarks c hmem] at h
    cases h
  simp [isVerbatim, hmem, not_isBlank_of_isPlain h]

theorem isLine_of_isVerbatim {text : List Char} (h : ∀ c ∈ text, isVerbatim c = true) :
    IsLine text :=
  .of_forall fun c hc =>
    ⟨ne_of_isVerbatim (h c hc) (by decide), ne_of_isVerbatim (h c hc) (by decide)⟩

theorem operator?_eq_none {c : Char} (h : isVerbatim c = true) {rest : List Char}
    (hrest : rest.head? ≠ some '=') : operator? (c :: rest) = none := by
  have hcolon : c ≠ ':' := ne_of_isVerbatim h (by decide)
  have hequals : c ≠ '=' := ne_of_isVerbatim h (by decide)
  unfold operator?
  split
  · next heq => exact absurd (List.cons.inj heq).1 hcolon
  · next heq => exact absurd (List.cons.inj heq).1 hequals
  · next heq => simp [(List.cons.inj heq).2] at hrest
  · next heq => simp [(List.cons.inj heq).2] at hrest
  · rfl

/-- Characters that stand for themselves belong to the name. -/
theorem definitionFrom_append {s : List Char} (h : ∀ c ∈ s, isVerbatim c = true) {rest : List Char}
    (hrest : rest.head? ≠ some '=') (name : List Char) :
    definitionFrom name (s ++ rest) = definitionFrom (name ++ s) rest := by
  induction s generalizing name with
  | nil => simp
  | cons c more ih =>
    have hc := h c List.mem_cons_self
    have hmore : ∀ d ∈ more, isVerbatim d = true := fun d hd => h d (List.mem_cons_of_mem c hd)
    have hnext : (more ++ rest).head? ≠ some '=' := by
      cases more with
      | nil => exact hrest
      | cons d others =>
        have hd : d ≠ '=' := ne_of_isVerbatim (hmore d List.mem_cons_self) (by decide)
        simpa using hd
    rw [List.cons_append, definitionFrom, operator?_eq_none hc hnext]
    simp only [not_isBlank_of_isVerbatim hc, Bool.false_eq_true, if_false]
    rw [if_neg (ne_of_isVerbatim hc (by decide)), ih hmore]
    simp

namespace Reading

/-- A line that is neither empty nor a comment, outside of recipes. -/
theorem line_statement {r : Reading} {text : List Char} (hcomment : '#' ∉ text)
    (hblank : text.all isBlank = false) (htab : text.head? ≠ some '\t' ∨ r.entries = []) :
    r.line text = r.statement text := by
  have huncommented : uncommented 0 text = text := uncommented_eq hcomment 0
  unfold line
  split
  · next heq hentries =>
    rcases htab with htab | htab
    · exact absurd rfl htab
    · rw [htab] at hentries
      cases hentries
  · simp only [huncommented, hblank]
    rfl

theorem not_blank_of_definitionFrom {text name : List Char} {found : String × Manner × List Char}
    (h : definitionFrom name text = some found) : text.all isBlank = false := by
  rw [Bool.eq_false_iff]
  intro hblank
  cases text with
  | nil => cases h
  | cons c rest =>
    rw [List.all_cons, Bool.and_eq_true] at hblank
    have hdrop : rest.dropWhile isBlank = [] :=
      List.dropWhile_eq_nil_iff.2 (by simpa using hblank.2)
    have hnone : ∀ c ∈ blanks, operator? (c :: rest) = none := by
      simp [blanks, operator?]
    rw [definitionFrom, hnone c (by simpa [isBlank] using hblank.1)] at h
    simp [hblank.1, hdrop, operator?] at h

/-- A line that defines a variable. -/
theorem line_definition {r : Reading} {text : List Char} {name : String} {manner : Manner}
    {behind : List Char} (hentries : r.entries = []) (hcomment : '#' ∉ text)
    (h : definitionFrom [] text = some (name, manner, behind)) :
    r.line text = (r.values.define name manner behind).map fun values => { r with values } := by
  rw [line_statement hcomment (not_blank_of_definitionFrom h) (Or.inr hentries), statement, h]

end Reading

/-! ## Rules -/

theorem wordsFrom_append {s : List Char} (h : ∀ c ∈ s, isBlank c = false) (word rest : List Char) :
    wordsFrom word (s ++ rest) = wordsFrom (word ++ s) rest := by
  induction s generalizing word with
  | nil => simp
  | cons c more ih =>
    rw [List.cons_append, wordsFrom, if_neg (by simp [h c List.mem_cons_self]),
      ih fun d hd => h d (List.mem_cons_of_mem c hd)]
    simp

theorem IsMadeOf.ne_nil {p : Char → Bool} {name : String} (h : IsMadeOf p name) :
    name.toList ≠ [] := by
  simpa [String.toList_eq_nil_iff] using h.ne_empty

theorem IsFileName.isWord {name : String} (h : IsFileName name) : IsWord name :=
  ⟨h.ne_empty, fun c hc => isVerbatim_of_isPlain (h.all c hc)⟩

namespace IsWord

variable {name : String} {names : List String}

theorem not_isBlank (h : IsWord name) : ∀ c ∈ name.toList, isBlank c = false :=
  fun c hc => not_isBlank_of_isVerbatim (h.all c hc)

/-- A character that means something does not stand in the name. -/
theorem not_mem (h : IsWord name) {c : Char} (hc : isVerbatim c = false) : c ∉ name.toList :=
  fun hmem => ne_of_isVerbatim (h.all c hmem) hc rfl

theorem isLine (h : IsWord name) : IsLine name.toList :=
  isLine_of_isVerbatim h.all

theorem wordsFrom (h : IsWord name) : wordsFrom [] name.toList = [name] := by
  have happend := wordsFrom_append h.not_isBlank [] []
  rw [List.append_nil, List.nil_append] at happend
  simp [happend, Make.wordsFrom, h.ne_empty]

/-- Names with blanks between them are read one by one. -/
theorem wordsFrom_intercalate (h : ∀ name ∈ names, IsWord name) :
    Make.wordsFrom [] ([' '].intercalate (names.map String.toList)) = names := by
  induction names with
  | nil => rfl
  | cons first rest ih =>
    have hfirst := h first List.mem_cons_self
    have hrest := ih fun name hname => h name (List.mem_cons_of_mem first hname)
    cases rest with
    | nil => simpa using hfirst.wordsFrom
    | cons second more =>
      rw [List.map_cons, List.map_cons, List.intercalate_cons_cons, List.append_assoc,
        wordsFrom_append hfirst.not_isBlank, List.nil_append, List.singleton_append,
        Make.wordsFrom, if_pos (by decide), if_neg (by simp [hfirst.ne_empty])]
      rw [List.map_cons] at hrest
      simp [hrest]

theorem not_mem_intercalate (h : ∀ name ∈ names, IsWord name) {c : Char}
    (hc : isVerbatim c = false) (hblank : c ≠ ' ') :
    c ∉ [' '].intercalate (names.map String.toList) := by
  induction names with
  | nil => exact List.not_mem_nil
  | cons first rest ih =>
    have hfirst := (h first List.mem_cons_self).not_mem hc
    have hrest := ih fun name hname => h name (List.mem_cons_of_mem first hname)
    cases rest with
    | nil => simpa using hfirst
    | cons second more =>
      rw [List.map_cons] at hrest
      simpa [List.intercalate_cons_cons, hfirst, hblank] using hrest

end IsWord

namespace Reading

/-- A line that starts a rule. -/
theorem line_rule (r : Reading) {target : String} (htarget : IsWord target)
    (behind : List Char) (hcomment : '#' ∉ behind) (hreference : '$' ∉ behind)
    (hequals : behind.head? ≠ some '=') :
    r.line (target.toList ++ ':' :: behind) =
      some { r with entries := ⟨[target], wordsFrom [] behind, []⟩ :: r.entries } := by
  obtain ⟨c, more, hcons⟩ := List.exists_cons_of_ne_nil htarget.ne_nil
  have hc : isVerbatim c = true := htarget.all c (by simp [hcons])
  have hdefinition : definitionFrom [] (target.toList ++ ':' :: behind) = none := by
    rw [definitionFrom_append htarget.all (by simp), definitionFrom]
    have hoperator : operator? (':' :: behind) = none := by
      unfold operator?
      split <;> simp_all
    rw [hoperator]
    rfl
  have hdollar : '$' ∉ target.toList ++ ':' :: behind := by
    simp [htarget.not_mem (c := '$') (by decide), hreference]
  rw [line_statement, statement, hdefinition]
  · have hcolon : ':' ∉ target.toList := htarget.not_mem (by decide)
    simp [(Expands.plain hdollar).expand_eq, Text.cutFirst?_append hcolon, htarget.wordsFrom]
  · simp [htarget.not_mem (c := '#') (by decide), hcomment]
  · simp [hcons, not_isBlank_of_isVerbatim hc]
  · refine Or.inl ?_
    have htab : c ≠ '\t' := ne_of_isVerbatim hc (by decide)
    simpa [hcons] using htab

/-- A line that starts a rule with prerequisites. -/
theorem line_rule_names (r : Reading) {target : String} (htarget : IsWord target)
    {names : List String} (hnames : ∀ name ∈ names, IsWord name) :
    r.line (target.toList ++ ':' :: ' ' :: [' '].intercalate (names.map String.toList)) =
      some { r with entries := ⟨[target], names, []⟩ :: r.entries } := by
  have hcomment := IsWord.not_mem_intercalate hnames (c := '#') (by decide) (by decide)
  have hreference := IsWord.not_mem_intercalate hnames (c := '$') (by decide) (by decide)
  rw [line_rule r htarget _ (by simpa using hcomment) (by simpa using hreference) (by simp),
    wordsFrom, if_pos (by decide), IsWord.wordsFrom_intercalate hnames]
  rfl

end Reading

end Makewright.Make
