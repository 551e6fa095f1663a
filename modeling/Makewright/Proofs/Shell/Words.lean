import Makewright.Shell.Quote
import Makewright.Shell.Script
import Mathlib.Data.List.Forall2
import Mathlib.Data.List.TakeDrop

/-!
# How a shell reads a line

A line is read as tokens: words that stand for themselves, assignments in front of a command, and
the joint between two commands that run one after the other. `Reads text tokens` says so wherever
the text stands, as long as nothing sticks to its ends; so the texts of a line can be read one by
one (`Reads.intercalate`), and the argument vectors of the commands follow from the tokens
(`vectors_of_reads`). A quoted word is read as the one word that it was, whatever characters it has
(`Reads.quote`).
-/

set_option autoImplicit false

namespace Makewright

/-- What is said of all characters of a text is decided along the text. Batteries decides it too,
but by a search over every character there is. -/
instance Text.decidableForallMem (p : Char → Prop) [DecidablePred p] (text : List Char) :
    Decidable (∀ c ∈ text, p c) :=
  text.decidableBAll p

namespace Shell

/-- The characters that a shell may read as more than themselves. -/
def specials : List Char :=
  [' ', '\t', '\n', ';', '&', '|', '<', '>', '(', ')', '$', '\x60', '\\', '"', '\'', '*', '?', '[',
   ']', '#', '~', '!', '\x7b', '\x7d']

/-- A character that stands for itself in a word. -/
def isBare (c : Char) : Bool :=
  c ∉ specials

/-- The characters that keep their meaning between double quotes. -/
def doubleSpecials : List Char := ['"', '$', '\x60', '\\']

/-- A name that a variable can have. -/
def isName (name : List Char) : Bool :=
  !name.isEmpty && name.all (fun c => c.isAlphanum || c == '_') && !name.head?.any Char.isDigit

/-- The argument vector of a simple command: the fields of its words behind the assignments. -/
def Machine.vector (m : Machine) (s : Simple) : List String :=
  let (words, m) := takeAssignments m s.words
  words.flatMap m.fields

/-- The argument vectors of the commands of a script, if all quotes are closed. -/
def vectors (m : Machine) (script : List Char) : Option (List (List String)) :=
  (lexemes (script.length + 1) [] script).map fun found =>
    (commandsOf ⟨.always, [], []⟩ found).map m.vector

theorem isBare_of_isSafe {c : Char} (h : isSafe c = true) : isBare c = true := by
  have hsafe : ∀ c ∈ specials, isSafe c = false := by decide
  unfold isBare
  by_contra hc
  rw [hsafe c (by simpa using hc)] at h
  cases h

theorem not_mem_name {name : List Char} (h : isName name = true) {c : Char}
    (hc : (c.isAlphanum || c == '_') = false) : c ∉ name := by
  simp only [isName, Bool.and_eq_true, List.all_eq_true] at h
  intro hmem
  rw [h.1.2 c hmem] at hc
  cases hc

theorem isBare_of_mem_name {name : List Char} (h : isName name = true) {c : Char} (hc : c ∈ name) :
    isBare c = true := by
  have hspecial : ∀ c ∈ specials, (c.isAlphanum || c == '_') = false := by decide
  unfold isBare
  by_contra hbare
  exact not_mem_name h (hspecial c (by simpa using hbare)) hc

theorem ne_nil_of_isName {name : List Char} (h : isName name = true) : name ≠ [] := by
  rintro rfl
  cases h

/-! ## Lexemes -/

/-- The text is read as these parts, behind the pieces of a word that has begun. -/
def Lexes (word : List Piece) (s : List Char) (found : List Lexeme) : Prop :=
  ∀ fuel, s.length < fuel → lexemes fuel word s = some found

/-- Whatever word has begun ends in front of the text, which is read as these parts. -/
def Closes (s : List Char) (found : List Lexeme) : Prop :=
  ∀ word, Lexes word s (finishWord word ++ found)

namespace Lexes

variable {word : List Piece} {rest : List Char} {found : List Lexeme} {c : Char}

theorem nil (word : List Piece) : Lexes word [] (finishWord word) := by
  rintro (_ | fuel) h
  · exact absurd h (Nat.not_lt_zero _)
  · rfl

/-- One step of the reading: what it finds stands in front of what it leaves to be read. -/
theorem of_step {s : List Char} (hs : s.length ≤ rest.length) (front : List Lexeme)
    {word' : List Piece} (h : Lexes word' s found)
    (hstep : ∀ fuel, lexemes (fuel + 1) word (c :: rest) =
      (lexemes fuel word' s).map (front ++ ·)) : Lexes word (c :: rest) (front ++ found) := by
  rintro (_ | fuel) hfuel
  · exact absurd hfuel (Nat.not_lt_zero _)
  · rw [List.length_cons] at hfuel
    rw [hstep, h fuel (by omega)]
    rfl

theorem bare (hc : isBare c = true) (h : Lexes (word ++ [.text [c] false]) rest found) :
    Lexes word (c :: rest) found := by
  refine of_step (Nat.le_refl _) [] h fun fuel => ?_
  simp only [isBare, specials, List.mem_cons, List.not_mem_nil, or_false, not_or,
    decide_eq_true_eq] at hc
  simp [lexemes, hc]

theorem blank (h : Lexes [] rest found) : Lexes word (' ' :: rest) (finishWord word ++ found) := by
  refine of_step (Nat.le_refl _) _ h fun fuel => ?_
  simp [lexemes]

theorem tab (h : Lexes [] rest found) : Lexes word ('\t' :: rest) (finishWord word ++ found) := by
  refine of_step (Nat.le_refl _) _ h fun fuel => ?_
  simp [lexemes]

theorem joint (h : Lexes [] rest found) :
    Lexes word ('&' :: '&' :: rest) (finishWord word ++ [.joint .onSuccess] ++ found) := by
  refine of_step (by simp) _ h fun fuel => ?_
  simp [lexemes]

theorem quoted {inside : List Char} (hinside : '\'' ∉ inside)
    (h : Lexes (word ++ [.text inside true]) rest found) :
    Lexes word ('\'' :: (inside ++ '\'' :: rest)) found := by
  refine of_step (by simp; omega) [] h fun fuel => ?_
  have hmarks : ∀ c ∈ inside, (c != '\'') = true := by
    intro c hc
    simpa using fun h : c = '\'' => hinside (h ▸ hc)
  have htake : (inside ++ '\'' :: rest).takeWhile (· != '\'') = inside := by
    simp [List.takeWhile_append_of_pos hmarks]
  have hdrop : (inside ++ '\'' :: rest).dropWhile (· != '\'') = '\'' :: rest := by
    simp [List.dropWhile_append_of_pos hmarks]
  simp [lexemes, htake, hdrop]

theorem quotedPieces_append {inside : List Char} (hinside : ∀ c ∈ inside, c ∉ doubleSpecials)
    {fuel : Nat} (hfuel : inside.length < fuel) (seen : List Piece) (rest : List Char) :
    quotedPieces fuel seen (inside ++ '"' :: rest) =
      some (seen ++ inside.map fun c => .text [c] true, rest) := by
  induction inside generalizing fuel seen with
  | nil =>
    obtain ⟨fuel, rfl⟩ := Nat.exists_eq_succ_of_ne_zero (Nat.ne_of_gt hfuel)
    simp [quotedPieces]
  | cons c more ih =>
    obtain ⟨hc, hmore⟩ := List.forall_mem_cons.1 hinside
    obtain ⟨fuel, rfl⟩ := Nat.exists_eq_succ_of_ne_zero (Nat.ne_zero_of_lt hfuel)
    simp only [doubleSpecials, List.mem_cons, List.not_mem_nil, or_false, not_or] at hc
    have hgo := ih hmore (Nat.lt_of_succ_lt_succ hfuel) (seen ++ [.text [c] true])
    simpa [quotedPieces, hc] using hgo

/-- Between double quotes all but a few characters stand for themselves. -/
theorem doubleQuoted {inside : List Char} (hinside : ∀ c ∈ inside, c ∉ doubleSpecials)
    (h : Lexes (word ++ (.text [] true :: inside.map fun c => .text [c] true)) rest found) :
    Lexes word ('"' :: (inside ++ '"' :: rest)) found := by
  refine of_step (by simp; omega) [] h fun fuel => ?_
  have hpieces : quotedPieces (inside.length + (rest.length + 1) + 1) [] (inside ++ '"' :: rest) =
      some (inside.map fun c => .text [c] true, rest) :=
    quotedPieces_append hinside (by omega) [] rest
  simp [lexemes, hpieces]

/-- A single quote between double quotes. -/
theorem mark (h : Lexes (word ++ [.text [] true, .text ['\''] true]) rest found) :
    Lexes word ('"' :: '\'' :: '"' :: rest) found := by
  have hinside : ∀ c ∈ ['\''], c ∉ doubleSpecials := by decide
  exact doubleQuoted hinside h

end Lexes

namespace Closes

theorem nil : Closes [] [] := by
  intro word
  rw [List.append_nil]
  exact .nil word

theorem blank {rest : List Char} {found : List Lexeme} (h : Lexes [] rest found) :
    Closes (' ' :: rest) found :=
  fun _ => .blank h

/-- Where no word has begun, the text is read as it is. -/
theorem lexes {rest : List Char} {found : List Lexeme} (h : Closes rest found) :
    Lexes [] rest found :=
  h []

end Closes

/-! ## Pieces of a word -/

/-- The pieces stand for this text, whatever the shell holds. -/
inductive Literal : List Piece → List Char → Prop
  | nil : Literal [] []
  | text {pieces : List Piece} {s : List Char} (part : List Char) (quoted : Bool)
      (h : Literal pieces s) : Literal (.text part quoted :: pieces) (part ++ s)

/-- In whatever word it stands, the text is read as these pieces of it. -/
def Spells (text : List Char) (pieces : List Piece) : Prop :=
  ∀ word rest found, Lexes (word ++ pieces) rest found → Lexes word (text ++ rest) found

namespace Literal

variable {pieces more : List Piece} {s t : List Char}

theorem append (h : Literal pieces s) (hmore : Literal more t) :
    Literal (pieces ++ more) (s ++ t) := by
  induction h with
  | nil => exact hmore
  | text part quoted _ ih =>
    rw [List.append_assoc]
    exact .text part quoted ih

theorem flatMap_meaning (h : Literal pieces s) (m : Machine) : pieces.flatMap m.meaning = s := by
  induction h with
  | nil => rfl
  | text part quoted _ ih => rw [List.flatMap_cons, ih, Machine.meaning]

theorem whole (h : Literal pieces s) (m : Machine) : m.whole pieces = String.ofList s := by
  rw [Machine.whole, h.flatMap_meaning m]

theorem fieldsFrom (h : Literal pieces s) (m : Machine) (begun : List Char) :
    m.fieldsFrom (some begun) pieces = [begun ++ s] := by
  induction h generalizing begun with
  | nil => simp [Machine.fieldsFrom]
  | text part quoted _ ih => simp [Machine.fieldsFrom, Machine.meaning, ih]

/-- A word is one field. -/
theorem fields (h : Literal pieces s) (hne : pieces ≠ []) (m : Machine) :
    m.fields pieces = [String.ofList s] := by
  cases h with
  | nil => exact absurd rfl hne
  | text part quoted h => simp [Machine.fields, Machine.fieldsFrom, Machine.meaning, h.fieldsFrom m]

end Literal

namespace Spells

variable {s t : List Char} {pieces more : List Piece}

theorem nil : Spells [] [] := by
  intro word rest found h
  rwa [List.append_nil] at h

theorem append (hs : Spells s pieces) (ht : Spells t more) : Spells (s ++ t) (pieces ++ more) := by
  intro word rest found h
  rw [← List.append_assoc] at h
  rw [List.append_assoc]
  exact hs _ _ _ (ht _ _ _ h)

theorem bare {text : List Char} (h : ∀ c ∈ text, isBare c = true) :
    Spells text (text.map fun c => .text [c] false) := by
  induction text with
  | nil => exact nil
  | cons c rest ih =>
    have hc : Spells [c] [.text [c] false] := fun _ _ _ => .bare (h c List.mem_cons_self)
    exact hc.append (ih fun x hx => h x (List.mem_cons_of_mem c hx))

theorem quoted {inside : List Char} (h : '\'' ∉ inside) :
    Spells ('\'' :: (inside ++ ['\''])) [.text inside true] := by
  intro word rest found hlexes
  rw [List.cons_append, List.append_assoc]
  exact .quoted h hlexes

/-- A single quote between double quotes. -/
theorem mark : Spells ['"', '\'', '"'] [.text [] true, .text ['\''] true] :=
  fun _ _ _ => .mark

end Spells

theorem literal_bare (text : List Char) :
    Literal (text.map fun c => .text [c] false) text := by
  induction text with
  | nil => exact .nil
  | cons c rest ih => exact .text [c] false ih

/-- Between the quotes the characters stand for themselves; a quote among them is written between
double quotes, between two quoted parts. -/
theorem exists_spells_quoted (word inside : List Char) (hinside : '\'' ∉ inside) :
    ∃ pieces, pieces ≠ [] ∧ Literal pieces (inside ++ word) ∧
      Spells ('\'' :: (inside ++ word.flatMap (fun c => if c = '\'' then quoteMark else [c])
        ++ ['\''])) pieces := by
  induction word generalizing inside with
  | nil =>
    refine ⟨[.text inside true], List.cons_ne_nil _ _, .text inside true .nil, ?_⟩
    simpa using Spells.quoted hinside
  | cons c rest ih =>
    by_cases hc : c = '\''
    · subst hc
      obtain ⟨pieces, hne, hliteral, hspells⟩ := ih [] List.not_mem_nil
      refine ⟨[.text inside true] ++ [.text [] true, .text ['\''] true] ++ pieces, by simp, ?_, ?_⟩
      · exact .text inside true (.text [] true (.text ['\''] true hliteral))
      · simpa [quoteMark] using ((Spells.quoted hinside).append .mark).append hspells
    · have hmore : '\'' ∉ inside ++ [c] := by
        simp [hinside, Ne.symm hc]
      obtain ⟨pieces, hne, hliteral, hspells⟩ := ih (inside ++ [c]) hmore
      exact ⟨pieces, hne, by simpa using hliteral, by simpa [hc] using hspells⟩

/-- A quoted word is spelled as the word that it was. -/
theorem exists_spells_quoteList (word : List Char) :
    ∃ pieces, pieces ≠ [] ∧ Literal pieces word ∧ Spells (quoteList word) pieces := by
  unfold quoteList
  split
  · next hsafe =>
    rw [Bool.and_eq_true, List.all_eq_true] at hsafe
    refine ⟨_, ?_, literal_bare word, .bare fun c hc => isBare_of_isSafe (hsafe.2 c hc)⟩
    simpa using hsafe.1
  · exact exists_spells_quoted word [] List.not_mem_nil

/-- Quoting brings in quotes only. -/
theorem mem_quoteList {word : List Char} {c : Char} (h : c ∈ quoteList word) :
    c ∈ word ∨ c = '\'' ∨ c = '"' := by
  have hmarks : ∀ c ∈ quoteMark, c = '\'' ∨ c = '"' := by decide
  unfold quoteList at h
  split at h
  · exact .inl h
  · simp only [List.mem_append, List.mem_singleton, List.mem_flatMap] at h
    rcases h with (rfl | ⟨d, hd, hc⟩) | rfl
    · exact .inr (.inl rfl)
    · split at hc
      · exact .inr (hmarks c hc)
      · exact .inl (List.mem_singleton.1 hc ▸ hd)
    · exact .inr (.inl rfl)

/-- Quoting leaves nothing out. -/
theorem subset_quoteList (word : List Char) : word ⊆ quoteList word := by
  have hmark : '\'' ∈ quoteMark := by decide
  intro c hc
  unfold quoteList
  split
  · exact hc
  · refine List.mem_append_left _ (List.mem_append_right _ (List.mem_flatMap.2 ⟨c, hc, ?_⟩))
    split
    · next hquote => exact hquote ▸ hmark
    · exact List.mem_singleton_self c

/-- What stands first and last in a quoted word is a safe character or a quote. -/
theorem quoteList_ends (word : List Char) :
    (∃ c rest, quoteList word = c :: rest ∧ (isSafe c = true ∨ c = '\'')) ∧
      ∃ front c, quoteList word = front ++ [c] ∧ (isSafe c = true ∨ c = '\'') := by
  unfold quoteList
  split
  · next h =>
    rw [Bool.and_eq_true, List.all_eq_true] at h
    have hne : word ≠ [] := by simpa using h.1
    obtain ⟨c, rest, rfl⟩ := List.exists_cons_of_ne_nil hne
    refine ⟨⟨c, rest, rfl, .inl (h.2 c List.mem_cons_self)⟩, ?_⟩
    refine ⟨_, _, (List.dropLast_append_getLast hne).symm, .inl (h.2 _ (List.getLast_mem hne))⟩
  · exact ⟨⟨_, _, rfl, .inr rfl⟩, ⟨_, _, rfl, .inr rfl⟩⟩

/-! ## Tokens -/

/-- What a part of a line is to the shell: a word, an assignment, or the joint in front of a command
that runs if the one before it succeeds. -/
inductive Token where
  | word (value : String)
  | assign (name value : String)
  | next
  deriving DecidableEq

namespace Token

/-- The part of a script shows as this token, whatever the shell holds. -/
inductive Shows : Token → Lexeme → Prop
  | word {value : String} {pieces : List Piece} (hne : pieces ≠ [])
      (h : Literal pieces value.toList) : Shows (.word value) (.word pieces)
  | assign {name value : String} {s : List Char} {rest : List Piece}
      (hname : isName name.toList = true)
      (h : Literal (.text s false :: rest) (name.toList ++ '=' :: value.toList)) :
    Shows (.assign name value) (.word (.text s false :: rest))
  | next : Shows .next (.joint .onSuccess)

/-- The argument vectors of the commands that the tokens make, behind one that has begun. -/
def vectorsFrom (vector : List String) : List Token → List (List String)
  | [] => [vector]
  | .word value :: rest => vectorsFrom (vector ++ [value]) rest
  | .assign _ _ :: rest => vectorsFrom vector rest
  | .next :: rest => vector :: vectorsFrom [] rest

/-- Assignments stand only in front of the name of a command, and that name is not read as one;
`named` says that the name is there. -/
def Proper : Bool → List Token → Prop
  | _, [] => True
  | named, .word value :: rest => (named = true ∨ '=' ∉ value.toList) ∧ Proper true rest
  | named, .assign _ _ :: rest => named = false ∧ Proper false rest
  | _, .next :: rest => Proper false rest

@[simp]
theorem vectorsFrom_words (vector values : List String) (rest : List Token) :
    vectorsFrom vector (values.map .word ++ rest) = vectorsFrom (vector ++ values) rest := by
  induction values generalizing vector with
  | nil => simp
  | cons value more ih => simp [vectorsFrom, ih]

@[simp]
theorem proper_words (values : List String) (rest : List Token) :
    Proper true (values.map .word ++ rest) ↔ Proper true rest := by
  induction values with
  | nil => rfl
  | cons value more ih => simp [Proper, ih]

@[simp]
theorem vectorsFrom_words_nil (vector values : List String) :
    vectorsFrom vector (values.map .word) = [vector ++ values] := by
  simpa [vectorsFrom] using vectorsFrom_words vector values []

@[simp]
theorem proper_words_nil (values : List String) : Proper true (values.map .word) := by
  simpa [Proper] using proper_words values []

@[simp]
theorem vectorsFrom_assigns (vector : List String) (settings : List (String × String))
    (rest : List Token) :
    vectorsFrom vector (settings.map (fun setting => .assign setting.1 setting.2) ++ rest) =
      vectorsFrom vector rest := by
  induction settings with
  | nil => rfl
  | cons setting more ih => exact ih

@[simp]
theorem proper_assigns (settings : List (String × String)) (rest : List Token) :
    Proper false (settings.map (fun setting => .assign setting.1 setting.2) ++ rest) ↔
      Proper false rest := by
  induction settings with
  | nil => rfl
  | cons setting more ih => simp [Proper, ih]

end Token

/-- The text is read as these tokens where no word has begun and one would end behind it. -/
def Reads (text : List Char) (tokens : List Token) : Prop :=
  ∃ parts, List.Forall₂ Token.Shows tokens parts ∧
    ∀ rest found, Closes rest found → Lexes [] (text ++ rest) (parts ++ found)

namespace Reads

variable {s t : List Char} {tokens more : List Token}

theorem nil : Reads [] [] :=
  ⟨[], .nil, fun _ _ => Closes.lexes⟩

/-- Texts with a blank between them are read one after the other. -/
theorem append (hs : Reads s tokens) (ht : Reads t more) :
    Reads (s ++ ' ' :: t) (tokens ++ more) := by
  obtain ⟨parts, hparts, hlexes⟩ := hs
  obtain ⟨parts', hparts', hlexes'⟩ := ht
  refine ⟨parts ++ parts', List.rel_append hparts hparts', ?_⟩
  intro rest found h
  rw [List.append_assoc, List.append_assoc, List.cons_append]
  exact hlexes _ _ (.blank (hlexes' _ _ h))

/-- The texts of a line are read one by one. -/
theorem intercalate {texts : List (List Char)} {tokens : List (List Token)}
    (h : List.Forall₂ Reads texts tokens) : Reads ([' '].intercalate texts) tokens.flatten := by
  induction h with
  | nil => exact nil
  | cons hfirst hrest ih =>
    cases hrest with
    | nil => simpa using hfirst
    | cons _ _ =>
      rw [List.intercalate_cons_cons, List.flatten_cons, List.append_assoc]
      exact hfirst.append ih

/-- A text that spells the pieces of a word. -/
theorem of_spells {pieces : List Piece} (hspells : Spells s pieces) (hne : pieces ≠ [])
    {token : Token} (h : token.Shows (.word pieces)) : Reads s [token] := by
  refine ⟨[.word pieces], .cons h .nil, ?_⟩
  intro rest found hcloses
  refine hspells _ _ _ ?_
  have hlexes := hcloses pieces
  rwa [finishWord, if_neg (by simpa using hne)] at hlexes

theorem bare {text : String} (hne : text ≠ "") (h : ∀ c ∈ text.toList, isBare c = true) :
    Reads text.toList [.word text] := by
  have hpieces : text.toList.map (fun c => Piece.text [c] false) ≠ [] := by
    simpa [String.toList_eq_nil_iff] using hne
  exact of_spells (.bare h) hpieces (.word hpieces (literal_bare text.toList))

theorem quote (value : String) : Reads (quote value).toList [.word value] := by
  obtain ⟨pieces, hne, hliteral, hspells⟩ := exists_spells_quoteList value.toList
  rw [Shell.quote, String.toList_ofList]
  exact of_spells hspells hne (.word hne hliteral)

/-- An assignment whose value is quoted. -/
theorem assign {name : String} (hname : isName name.toList = true) (value : String) :
    Reads (name ++ "=" ++ Shell.quote value).toList [.assign name value] := by
  obtain ⟨pieces, -, hliteral, hspells⟩ := exists_spells_quoteList value.toList
  obtain ⟨first, rest, hcons⟩ := List.exists_cons_of_ne_nil (ne_nil_of_isName hname)
  have hbare : ∀ c ∈ name.toList ++ ['='], isBare c = true := by
    intro c hc
    rcases List.mem_append.1 hc with hc | hc
    · exact isBare_of_mem_name hname hc
    · exact List.mem_singleton.1 hc ▸ rfl
  have hfront := (literal_bare (name.toList ++ ['='])).append hliteral
  have htext : (name ++ "=" ++ Shell.quote value).toList =
      name.toList ++ ['='] ++ quoteList value.toList := by
    simp [Shell.quote]
  rw [htext]
  refine of_spells ((Spells.bare hbare).append hspells) (by simp) ?_
  simp only [hcons, List.cons_append, List.map_cons] at hfront ⊢
  refine .assign hname ?_
  simpa [hcons] using hfront

theorem next : Reads ['&', '&'] [.next] :=
  ⟨[.joint .onSuccess], .cons .next .nil, fun _ _ h => .joint h.lexes⟩

/-- Flags with blanks between them are read as they were. -/
theorem commandLine (words : List String) :
    Reads (commandLine words).toList (words.map .word) := by
  have hwords : List.Forall₂ Reads (words.map fun word => (Shell.quote word).toList)
      (words.map fun word => [.word word]) := by
    rw [List.forall₂_map_left_iff, List.forall₂_map_right_iff, List.forall₂_same]
    exact fun word _ => quote word
  have hline := intercalate hwords
  rw [← List.flatMap_def, ← List.map_eq_flatMap] at hline
  rw [Shell.commandLine, String.toList_intercalate, List.map_map]
  exact hline

end Reads

/-- Nothing is read where there is nothing. -/
theorem eq_nil_of_reads_nil {tokens : List Token} (h : Reads [] tokens) : tokens = [] := by
  obtain ⟨parts, hparts, hlexes⟩ := h
  have hnone := hlexes [] [] .nil 1 Nat.one_pos
  rw [List.append_nil, List.append_nil, lexemes] at hnone
  rw [← Option.some.inj hnone] at hparts
  cases hparts
  rfl

/-! ## Argument vectors -/

/-- The words of a command so far: those behind the assignments make the vector, and there are some
once the command has its name. -/
def Begun (m : Machine) (named : Bool) (vector : List String) (words : List (List Piece)) : Prop :=
  ∃ kept m', takeAssignments m words = (kept, m') ∧ (kept = [] ↔ named = false) ∧
    kept.flatMap m'.fields = vector

theorem takeAssignments_append (m : Machine) (words more : List (List Piece)) :
    takeAssignments m (words ++ more) =
      match takeAssignments m words with
      | ([], m') => takeAssignments m' more
      | (word :: rest, m') => (word :: rest ++ more, m') := by
  induction words generalizing m with
  | nil => rfl
  | cons word rest ih =>
    rw [List.cons_append, takeAssignments, takeAssignments]
    cases assignment? m word with
    | none => rfl
    | some found => exact ih (m.assign found.1 found.2)

namespace Begun

variable {m : Machine} {named : Bool} {vector : List String} {words : List (List Piece)}
  {pieces : List Piece}

theorem nil (m : Machine) : Begun m false [] [] :=
  ⟨[], m, rfl, by simp, rfl⟩

theorem word (h : Begun m named vector words) {value : String} (hne : pieces ≠ [])
    (hliteral : Literal pieces value.toList) (hvalue : named = true ∨ '=' ∉ value.toList) :
    Begun m true (vector ++ [value]) (words ++ [pieces]) := by
  obtain ⟨kept, m', htake, hnamed, rfl⟩ := h
  have hfields : m'.fields pieces = [value] := by
    rw [hliteral.fields hne, String.ofList_toList]
  cases kept with
  | nil =>
    have hplain : '=' ∉ value.toList := hvalue.resolve_left (by simp [hnamed.1 rfl])
    have hnone : assignment? m' pieces = none := by
      rw [assignment?, hliteral.whole, String.ofList_toList, Text.cutFirst?_eq_none hplain]
    refine ⟨[pieces], m', ?_, by simp, by simp [hfields]⟩
    simp [takeAssignments_append, htake, takeAssignments, hnone]
  | cons first rest =>
    refine ⟨first :: rest ++ [pieces], m', ?_, by simp, by simp [hfields]⟩
    simp [takeAssignments_append, htake]

theorem assign (h : Begun m false vector words) {name value : String} {s : List Char}
    {rest : List Piece} (hname : isName name.toList = true)
    (hliteral : Literal (.text s false :: rest) (name.toList ++ '=' :: value.toList)) :
    Begun m false vector (words ++ [.text s false :: rest]) := by
  obtain ⟨kept, m', htake, hnamed, rfl⟩ := h
  obtain rfl : kept = [] := hnamed.2 rfl
  have hfree : '=' ∉ name.toList := not_mem_name hname rfl
  have hsome : assignment? m' (.text s false :: rest) = some (name, value) := by
    rw [assignment?, hliteral.whole, String.toList_ofList, Text.cutFirst?_append hfree]
    simp only [isName, Bool.and_eq_true] at hname
    simp [hname.1.1, hname.1.2]
  refine ⟨[], m'.assign name value, ?_, by simp, rfl⟩
  simp [takeAssignments_append, htake, takeAssignments, hsome]

theorem vector_eq {s : Simple} (h : Begun m named vector s.words) : m.vector s = vector := by
  obtain ⟨kept, m', htake, -, hfields⟩ := h
  rw [Machine.vector, htake]
  exact hfields

end Begun

/-- The commands of a line have the argument vectors that its tokens make. -/
theorem map_vector_commandsOf {tokens : List Token} {parts : List Lexeme}
    (h : List.Forall₂ Token.Shows tokens parts) (m : Machine) {named : Bool}
    (hproper : Token.Proper named tokens) {current : Simple} {vector : List String}
    (hbegun : Begun m named vector current.words) :
    (commandsOf current parts).map m.vector = Token.vectorsFrom vector tokens := by
  induction h generalizing named current vector with
  | nil => simp [commandsOf, Token.vectorsFrom, hbegun.vector_eq]
  | cons hshows hrest ih =>
    cases hshows with
    | word hne hliteral => exact ih hproper.2 (hbegun.word hne hliteral hproper.1)
    | assign hname hliteral =>
      obtain ⟨rfl, hproper⟩ := hproper
      exact ih hproper (hbegun.assign hname hliteral)
    | next =>
      have hrest : (commandsOf ⟨.onSuccess, [], []⟩ _).map m.vector = _ := ih hproper (.nil m)
      rw [commandsOf, List.map_cons, hbegun.vector_eq, Token.vectorsFrom, hrest]

/-- A script that is read as tokens has the argument vectors that they make, whatever the shell
holds. -/
theorem vectors_of_reads {script : List Char} {tokens : List Token} (h : Reads script tokens)
    (hproper : Token.Proper false tokens) (m : Machine) :
    vectors m script = some (Token.vectorsFrom [] tokens) := by
  obtain ⟨parts, hparts, hlexes⟩ := h
  have hscript := hlexes [] [] .nil (script.length + 1) (by simp)
  rw [List.append_nil, List.append_nil] at hscript
  rw [vectors, hscript, Option.map_some, map_vector_commandsOf hparts m hproper (.nil m)]

end Shell

end Makewright
