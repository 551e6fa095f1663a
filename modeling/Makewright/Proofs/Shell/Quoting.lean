import Makewright.Proofs.Makefile.Definitions
import Makewright.Registry

/-!
# Quoting loses nothing

A line is split into words by the rules of a shell for plain characters, single quotes and double
quotes. The splitter (`Splitter`) reads one character at a time and knows between which quotes it
stands. It is strict: it stops at every character that the shell would take for more than itself
where the character stands (`plain_of_splitWords`), so a line that it splits leaves nothing to the
shell but to put the words together.

Splitting a line that was written with quotes gives back the words that it was written from,
whatever characters they have (`commandLine_lossless`). The argument has two halves. A text that
quoting writes adds one word to what the splitter holds, wherever outside of quotes it starts
(`foldlM_quoteList`); this is an induction over the word, and the word may hold quotes. And what the
splitter accepts means the same to the shell that runs the scripts, for every line and not only for
the written ones (`reads_of_splitWords`); `Stands` says what that shell has taken in where the
splitter stands, and every step of the splitter keeps it (`Stands.step`).

A sign of equality and a percent sign are plain characters of a word. Whether a word in front of the
name of a command is an assignment is asked of the finished word, and behind that name no word is
one; the percent sign means something to single commands only.
-/

set_option autoImplicit false

namespace Makewright

namespace Shell

/-! ## The splitter -/

/-- Between which quotes a reader of a line stands. -/
inductive Quotes where
  | outside
  | single
  | double
  deriving DecidableEq, Repr

namespace Quotes

/-- Where a character of a word leads, and what it adds to the word; there is no answer if the shell
would take it for something else. -/
def read? : Quotes → Char → Option (Quotes × List Char)
  | .outside, c =>
    if c = '\'' then some (.single, [])
    else if c = '"' then some (.double, [])
    else if isBare c then some (.outside, [c])
    else none
  | .single, c => if c = '\'' then some (.outside, []) else some (.single, [c])
  | .double, c =>
    if c = '"' then some (.outside, [])
    else if c ∈ doubleSpecials then none
    else some (.double, [c])

/-- The characters of a text that no quotes protect from the shell, in a reader that stands here. -/
def exposed : Quotes → List Char → List Char
  | _, [] => []
  | .outside, c :: rest =>
    if c = '\'' then exposed .single rest
    else if c = '"' then exposed .double rest
    else c :: exposed .outside rest
  | .single, c :: rest => if c = '\'' then exposed .outside rest else exposed .single rest
  | .double, c :: rest =>
    if c = '"' then exposed .outside rest
    else if c ∈ doubleSpecials then c :: exposed .double rest
    else exposed .double rest

end Quotes

/-- What a reader of a line holds: where it stands, the words that are finished, and the word that
has begun, if one has. -/
structure Splitter where
  quotes : Quotes
  words : List (List Char)
  begun : Option (List Char)
  deriving DecidableEq, Repr

namespace Splitter

/-- In front of a line. -/
def start : Splitter := ⟨.outside, [], none⟩

/-- The word goes on, or begins, with this part. -/
def grow (s : Splitter) (quotes : Quotes) (part : List Char) : Splitter :=
  ⟨quotes, s.words, some (s.begun.getD [] ++ part)⟩

/-- The words so far. -/
def found (s : Splitter) : List (List Char) := s.words ++ s.begun.toList

/-- Outside of quotes a blank ends the word; any other character is read as a part of one. -/
def step (s : Splitter) (c : Char) : Option Splitter :=
  if s.quotes = .outside ∧ (c = ' ' ∨ c = '\t') then some ⟨.outside, s.found, none⟩
  else (s.quotes.read? c).map fun next => s.grow next.1 next.2

/-- The words of the line, if all quotes are closed. -/
def finish (s : Splitter) : Option (List (List Char)) :=
  if s.quotes = .outside then some s.found else none

end Splitter

/-- The words of a line by the rules for plain characters and quotes. There is no answer if a quote
is not closed or the shell would interpret some character that is not quoted. -/
def splitWords (line : String) : Option (List String) :=
  ((line.toList.foldlM Splitter.step .start).bind Splitter.finish).map (·.map String.ofList)

/-! ## What a step can do -/

theorem ne_of_isBare {c d : Char} (hc : isBare c = true) (hd : d ∈ specials) : c ≠ d := by
  rintro rfl
  have hfree : c ∉ specials := by simpa [isBare] using hc
  exact hfree hd

namespace Quotes

/-- A reader takes a character as a part of a word: where it stands, the character, where it stands
then, and what the word gets. -/
inductive Turn : Quotes → Char → Quotes → List Char → Prop
  | openSingle : Turn .outside '\'' .single []
  | openDouble : Turn .outside '"' .double []
  | bare {c : Char} (h : isBare c = true) : Turn .outside c .outside [c]
  | closeSingle : Turn .single '\'' .outside []
  | insideSingle {c : Char} (h : c ≠ '\'') : Turn .single c .single [c]
  | closeDouble : Turn .double '"' .outside []
  | insideDouble {c : Char} (h : c ∉ doubleSpecials) : Turn .double c .double [c]

variable {quotes next : Quotes} {c : Char} {part : List Char}

theorem turn_of_read? (h : quotes.read? c = some (next, part)) : Turn quotes c next part := by
  cases quotes with
  | outside =>
    simp only [read?] at h
    split_ifs at h with hsingle hdouble hbare <;> cases h
    · exact hsingle ▸ .openSingle
    · exact hdouble ▸ .openDouble
    · exact .bare hbare
  | single =>
    simp only [read?] at h
    split_ifs at h with hquote <;> cases h
    · exact hquote ▸ .closeSingle
    · exact .insideSingle hquote
  | double =>
    simp only [read?] at h
    split_ifs at h with hquote hspecial <;> cases h
    · exact hquote ▸ .closeDouble
    · exact .insideDouble hspecial

/-- A character of a word that no quotes protect is plain. -/
theorem Turn.exposed (h : Turn quotes c next part) (rest : List Char) :
    quotes.exposed (c :: rest) = next.exposed rest ∨
      isBare c = true ∧ quotes.exposed (c :: rest) = c :: next.exposed rest := by
  cases h with
  | openSingle => exact .inl (by simp [Quotes.exposed])
  | openDouble => exact .inl (by simp [Quotes.exposed])
  | bare hbare =>
    have hsingle := ne_of_isBare hbare (d := '\'') (by decide)
    have hdouble := ne_of_isBare hbare (d := '"') (by decide)
    exact .inr ⟨hbare, by simp [Quotes.exposed, hsingle, hdouble]⟩
  | closeSingle => exact .inl (by simp [Quotes.exposed])
  | insideSingle hquote => exact .inl (by simp [Quotes.exposed, hquote])
  | closeDouble => exact .inl (by simp [Quotes.exposed])
  | insideDouble hspecial =>
    have hquote : c ≠ '"' := fun hc => hspecial (hc ▸ List.mem_cons_self)
    exact .inl (by simp [Quotes.exposed, hquote, hspecial])

end Quotes

namespace Splitter

variable {s t : Splitter} {c : Char}

/-- A step ends the word at a blank outside of quotes, or takes the character as a part of one. -/
theorem step_cases (h : s.step c = some t) :
    (s.quotes = .outside ∧ (c = ' ' ∨ c = '\t') ∧ t = ⟨.outside, s.found, none⟩) ∨
      ∃ quotes part, Quotes.Turn s.quotes c quotes part ∧ t = s.grow quotes part := by
  unfold step at h
  split at h
  · next hblank => exact .inl ⟨hblank.1, hblank.2, (Option.some.inj h).symm⟩
  · obtain ⟨⟨quotes, part⟩, hread, rfl⟩ := Option.map_eq_some_iff.1 h
    exact .inr ⟨quotes, part, Quotes.turn_of_read? hread, rfl⟩

/-- What no quotes protect in a text that the splitter gets through is a blank or a plain
character. -/
theorem exposed_of_foldlM {text : List Char} (h : text.foldlM step s = some t) :
    ∀ c ∈ s.quotes.exposed text, c = ' ' ∨ c = '\t' ∨ isBare c = true := by
  induction text generalizing s with
  | nil => simp [Quotes.exposed]
  | cons c rest ih =>
    rw [List.foldlM_cons] at h
    obtain ⟨next, hstep, hrest⟩ := Option.bind_eq_some_iff.1 h
    have hmore := ih hrest
    obtain ⟨hs, hc, rfl⟩ | ⟨quotes, part, hturn, rfl⟩ := step_cases hstep
    · have hexposed : s.quotes.exposed (c :: rest) = c :: Quotes.exposed .outside rest := by
        rcases hc with rfl | rfl <;> simp [hs, Quotes.exposed]
      rw [hexposed, List.forall_mem_cons]
      exact ⟨hc.imp_right .inl, hmore⟩
    · rcases hturn.exposed rest with heq | ⟨hc, heq⟩
      · rwa [heq]
      · rw [heq, List.forall_mem_cons]
        exact ⟨.inr (.inr hc), hmore⟩

end Splitter

/-- No character of a line that is split is left to the shell to interpret. -/
theorem plain_of_splitWords {line : String} {words : List String}
    (h : splitWords line = some words) :
    ∀ c ∈ Quotes.exposed .outside line.toList, c = ' ' ∨ c = '\t' ∨ isBare c = true := by
  obtain ⟨found, hfound, -⟩ := Option.map_eq_some_iff.1 h
  obtain ⟨final, hrun, -⟩ := Option.bind_eq_some_iff.1 hfound
  exact Splitter.exposed_of_foldlM hrun

example : splitWords "a 'b  c'\"'\"d ''" = some ["a", "b  c'd", ""] ∧ splitWords "a $b" = none ∧
    splitWords "a \"$b\"" = none ∧ splitWords "a 'b" = none := by decide

/-! ## Splitting what was quoted -/

namespace Splitter

@[simp]
theorem grow_quotes (s : Splitter) (quotes : Quotes) (part : List Char) :
    (s.grow quotes part).quotes = quotes := rfl

@[simp]
theorem grow_grow (s : Splitter) (first second : Quotes) (part more : List Char) :
    (s.grow first part).grow second more = s.grow second (part ++ more) := by
  simp [grow]

@[simp]
theorem found_grow_between (words : List (List Char)) (part : List Char) :
    (grow ⟨.outside, words, none⟩ .outside part).found = words ++ [part] := by
  simp [grow, found]

theorem step_bare {s : Splitter} (hs : s.quotes = .outside) {c : Char} (hc : isBare c = true) :
    s.step c = some (s.grow .outside [c]) := by
  have hspecial : ∀ d ∈ specials, c ≠ d := fun d => ne_of_isBare hc
  simp only [specials, List.forall_mem_cons] at hspecial
  simp [step, Quotes.read?, hs, hspecial, hc]

theorem step_open {s : Splitter} (hs : s.quotes = .outside) :
    s.step '\'' = some (s.grow .single []) := by
  simp [step, Quotes.read?, hs]

theorem step_quoted {s : Splitter} (hs : s.quotes = .single) {c : Char} (hc : c ≠ '\'') :
    s.step c = some (s.grow .single [c]) := by
  simp [step, Quotes.read?, hs, hc]

theorem step_close {s : Splitter} (hs : s.quotes = .single) :
    s.step '\'' = some (s.grow .outside []) := by
  simp [step, Quotes.read?, hs]

theorem step_blank (words : List (List Char)) (begun : Option (List Char)) :
    step ⟨.outside, words, begun⟩ ' ' = some ⟨.outside, words ++ begun.toList, none⟩ := by
  simp [step, found]

/-- Plain characters go on with a word that has begun. -/
theorem foldlM_bare {text : List Char} (h : ∀ c ∈ text, isBare c = true) (s : Splitter)
    (front : List Char) :
    text.foldlM step (s.grow .outside front) = some (s.grow .outside (front ++ text)) := by
  induction text generalizing front with
  | nil => simp
  | cons c rest ih =>
    obtain ⟨hc, hrest⟩ := List.forall_mem_cons.1 h
    rw [List.foldlM_cons, step_bare rfl hc, grow_grow]
    simpa using ih hrest (front ++ [c])

/-- The quotes are closed and opened again around the mark, which adds one quote to the word. -/
theorem foldlM_quoteMark (s : Splitter) (front : List Char) :
    quoteMark.foldlM step (s.grow .single front) = some (s.grow .single (front ++ ['\''])) := by
  simp [quoteMark, step, Quotes.read?, doubleSpecials]

/-- From between single quotes, the rest of a word and the closing quote add that rest. -/
theorem foldlM_inside (word : List Char) (s : Splitter) (front : List Char) :
    (word.flatMap (fun c => if c = '\'' then quoteMark else [c]) ++ ['\'']).foldlM step
      (s.grow .single front) = some (s.grow .outside (front ++ word)) := by
  induction word generalizing front with
  | nil => simp [step_close (s := s.grow .single front) rfl]
  | cons c rest ih =>
    rw [List.flatMap_cons, List.append_assoc, List.foldlM_append]
    by_cases hc : c = '\''
    -- the mark leads out of the quotes and back, so the induction goes on from between them
    · subst hc
      rw [if_pos rfl, foldlM_quoteMark]
      simpa using ih (front ++ ['\''])
    · rw [if_neg hc, List.foldlM_cons, step_quoted rfl hc, grow_grow]
      simpa using ih (front ++ [c])

/-- A quoted word adds the word that it was. -/
theorem foldlM_quoteList (word : List Char) {s : Splitter} (hs : s.quotes = .outside) :
    (quoteList word).foldlM step s = some (s.grow .outside word) := by
  unfold quoteList
  split
  · next hsafe =>
    rw [Bool.and_eq_true, List.all_eq_true] at hsafe
    have hbare : ∀ c ∈ word, isBare c = true := fun c hc => isBare_of_isSafe (hsafe.2 c hc)
    obtain ⟨first, rest, rfl⟩ := List.exists_cons_of_ne_nil (l := word) (by simpa using hsafe.1)
    obtain ⟨hfirst, hrest⟩ := List.forall_mem_cons.1 hbare
    rw [List.foldlM_cons, step_bare hs hfirst]
    exact foldlM_bare hrest s [first]
  · rw [List.append_assoc, List.singleton_append, List.foldlM_cons, step_open hs]
    exact foldlM_inside word s []

/-- Quoted words with blanks between them are split into the words that they were. -/
theorem foldlM_intercalate (texts words : List (List Char)) :
    (([' '].intercalate (texts.map quoteList)).foldlM step ⟨.outside, words, none⟩).bind finish =
      some (words ++ texts) := by
  induction texts generalizing words with
  | nil => simp [finish, found]
  | cons text rest ih =>
    cases rest with
    | nil => simp [foldlM_quoteList, finish]
    | cons second others =>
      rw [List.map_cons, List.map_cons, List.intercalate_cons_cons, List.append_assoc,
        List.foldlM_append, foldlM_quoteList text rfl]
      simpa [grow, step_blank] using ih (words ++ [text])

end Splitter

theorem splitWords_commandLine (words : List String) :
    splitWords (commandLine words) = some words := by
  have hquote : String.toList ∘ quote = quoteList ∘ String.toList :=
    funext fun word => String.toList_ofList
  have hline : (commandLine words).toList =
      [' '].intercalate ((words.map String.toList).map quoteList) := by
    rw [commandLine, String.toList_intercalate, List.map_map, hquote, List.map_map]
    rfl
  rw [splitWords, hline, Splitter.start, Splitter.foldlM_intercalate]
  simp

/-- Blanks in front are not a part of any word. -/
theorem splitWords_blank (line : String) : splitWords (" " ++ line) = splitWords line := by
  simp [splitWords, Splitter.start, Splitter.step_blank]

/-! ## The splitter and the shell -/

theorem literal_quoted (text : List Char) :
    Literal (text.map fun c => .text [c] true) text := by
  induction text with
  | nil => exact .nil
  | cons c rest ih => exact .text [c] true ih

/-- Where the splitter stands, the shell has taken in the pieces of a word, and the text behind them
is still to be taken in: an opening quote and what stands behind it. -/
inductive Stands : Splitter → List Piece → List Char → Prop
  | between (words : List (List Char)) : Stands ⟨.outside, words, none⟩ [] []
  | word (words : List (List Char)) {pieces : List Piece} {s : List Char} (hne : pieces ≠ [])
      (h : Literal pieces s) : Stands ⟨.outside, words, some s⟩ pieces []
  | single (words : List (List Char)) {pieces : List Piece} {s inside : List Char}
      (h : Literal pieces s) (hinside : '\'' ∉ inside) :
    Stands ⟨.single, words, some (s ++ inside)⟩ pieces ('\'' :: inside)
  | double (words : List (List Char)) {pieces : List Piece} {s inside : List Char}
      (h : Literal pieces s) (hinside : ∀ c ∈ inside, c ∉ doubleSpecials) :
    Stands ⟨.double, words, some (s ++ inside)⟩ pieces ('"' :: inside)

/-- The parts of a script show as these words. -/
def Shown (words : List (List Char)) (parts : List Lexeme) : Prop :=
  List.Forall₂ Token.Shows (words.map fun word => .word (String.ofList word)) parts

namespace Stands

variable {s t : Splitter} {pieces : List Piece} {opened : List Char} {c : Char}

/-- Outside of quotes the shell has taken in everything; a word that has begun is the one that the
splitter holds. -/
theorem shown (h : Stands s pieces opened) (hs : s.quotes = .outside) :
    opened = [] ∧ Shown s.begun.toList (finishWord pieces) := by
  cases h with
  | between words => exact ⟨rfl, .nil⟩
  | word words hne hliteral =>
    refine ⟨rfl, ?_⟩
    rw [finishWord, if_neg (by simpa using hne)]
    exact .cons (.word hne (by simpa using hliteral)) .nil
  | single words hliteral hinside => cases hs
  | double words hliteral hinside => cases hs

/-- Outside of quotes the pieces stand for what has begun. -/
theorem literal (h : Stands s pieces opened) (hs : s.quotes = .outside) :
    Literal pieces (s.begun.getD []) := by
  cases h with
  | between words => exact .nil
  | word words hne hliteral => exact hliteral
  | single words hliteral hinside => cases hs
  | double words hliteral hinside => cases hs

/-- Outside of quotes, a quote is left to be taken in together with what stands behind it, and a
plain character is taken in at once. -/
theorem grow_outside (h : Stands s pieces opened) (hs : s.quotes = .outside) {quotes : Quotes}
    {part : List Char} (hturn : Quotes.Turn .outside c quotes part) :
    ∃ pieces' opened', Stands (s.grow quotes part) pieces' opened' ∧
      ∀ rest found, Lexes pieces' (opened' ++ rest) found →
        Lexes pieces (opened ++ c :: rest) found := by
  obtain ⟨rfl, -⟩ := h.shown hs
  have hliteral := h.literal hs
  cases hturn with
  | openSingle =>
    exact ⟨pieces, ['\''], .single s.words hliteral List.not_mem_nil, fun _ _ => id⟩
  | openDouble =>
    exact ⟨pieces, ['"'], .double s.words hliteral (List.forall_mem_nil _), fun _ _ => id⟩
  | bare hbare =>
    refine ⟨pieces ++ [.text [c] false], [], .word s.words (by simp) ?_, fun _ _ => .bare hbare⟩
    exact hliteral.append (.text [c] false .nil)

/-- A character of a word takes the shell along: what it reads from where it stands then, it reads
behind the character from where it stood. -/
theorem grow (h : Stands s pieces opened) {quotes : Quotes} {part : List Char}
    (hturn : Quotes.Turn s.quotes c quotes part) :
    ∃ pieces' opened', Stands (s.grow quotes part) pieces' opened' ∧
      ∀ rest found, Lexes pieces' (opened' ++ rest) found →
        Lexes pieces (opened ++ c :: rest) found := by
  cases h with
  | between words => exact grow_outside (.between words) rfl hturn
  | word words hne hliteral => exact grow_outside (.word words hne hliteral) rfl hturn
  | @single words pieces text inside hliteral hinside =>
    -- the shell takes in what stands between two quotes at once, when the second one is there
    cases hturn with
    | closeSingle =>
      have hgrown := hliteral.append (.text inside true .nil)
      refine ⟨pieces ++ [.text inside true], [], .word words ?_ ?_, fun _ _ => .quoted hinside⟩
      · simp
      · simpa using hgrown
    | insideSingle hquote =>
      have hmore : '\'' ∉ inside ++ [c] := by
        simp [hinside, Ne.symm hquote]
      refine ⟨pieces, '\'' :: (inside ++ [c]), ?_, fun rest found hlexes => by simpa using hlexes⟩
      simpa [Splitter.grow] using single words hliteral hmore
  | @double words pieces text inside hliteral hinside =>
    cases hturn with
    | closeDouble =>
      have hgrown := hliteral.append (.text [] true (literal_quoted inside))
      refine ⟨_, [], .word words ?_ ?_, fun _ _ => .doubleQuoted hinside⟩
      · simp
      · simpa using hgrown
    | insideDouble hspecial =>
      have hmore : ∀ d ∈ inside ++ [c], d ∉ doubleSpecials := by
        simpa [or_imp, forall_and] using ⟨hinside, hspecial⟩
      refine ⟨pieces, '"' :: (inside ++ [c]), ?_, fun rest found hlexes => by simpa using hlexes⟩
      simpa [Splitter.grow] using double words hliteral hmore

/-- One step of the splitter: the words that it finishes are parts that the shell reads. -/
theorem step (h : Stands s pieces opened) (hstep : s.step c = some t) :
    ∃ pieces' opened' more parts, Stands t pieces' opened' ∧ t.words = s.words ++ more ∧
      Shown more parts ∧ ∀ rest found, Lexes pieces' (opened' ++ rest) found →
        Lexes pieces (opened ++ c :: rest) (parts ++ found) := by
  obtain ⟨hs, hc, rfl⟩ | ⟨quotes, part, hturn, rfl⟩ := Splitter.step_cases hstep
  · obtain ⟨rfl, hshown⟩ := h.shown hs
    refine ⟨[], [], s.begun.toList, finishWord pieces, .between _, rfl, hshown, ?_⟩
    intro rest found hlexes
    rcases hc with rfl | rfl
    · exact .blank hlexes
    · exact .tab hlexes
  · obtain ⟨pieces', opened', hstands, hlexes⟩ := h.grow hturn
    refine ⟨pieces', opened', [], [], hstands, ?_, .nil, hlexes⟩
    exact (List.append_nil s.words).symm

/-- A run of the splitter that ends outside of quotes: all words that are found on the way are parts
that the shell reads, in front of whatever it reads behind them. -/
theorem run {text : List Char} (h : Stands s pieces opened)
    (hrun : text.foldlM Splitter.step s = some t) (ht : t.quotes = .outside) :
    ∃ more parts, t.found = s.words ++ more ∧ Shown more parts ∧
      ∀ rest found, Closes rest found →
        Lexes pieces (opened ++ (text ++ rest)) (parts ++ found) := by
  induction text generalizing s pieces opened with
  | nil =>
    obtain rfl : s = t := Option.some.inj hrun
    obtain ⟨rfl, hshown⟩ := h.shown ht
    exact ⟨s.begun.toList, finishWord pieces, rfl, hshown, fun rest found hcloses => hcloses pieces⟩
  | cons c text ih =>
    rw [List.foldlM_cons] at hrun
    obtain ⟨next, hstep, hrun⟩ := Option.bind_eq_some_iff.1 hrun
    obtain ⟨pieces', opened', first, parts, hnext, hwords, hshown, hlexes⟩ := h.step hstep
    obtain ⟨more, parts', hfound, hshown', hlexes'⟩ := ih hnext hrun
    refine ⟨first ++ more, parts ++ parts', ?_, ?_, ?_⟩
    · rw [hfound, hwords, List.append_assoc]
    · rw [Shown, List.map_append]
      exact List.rel_append hshown hshown'
    · intro rest found hcloses
      rw [List.append_assoc]
      exact hlexes _ _ (hlexes' rest found hcloses)

end Stands

/-- A line that is split into words is read by the shell as these words, wherever it stands and
whatever the shell holds. -/
theorem reads_of_splitWords {line : String} {words : List String}
    (h : splitWords line = some words) : Reads line.toList (words.map .word) := by
  obtain ⟨found, hfound, rfl⟩ := Option.map_eq_some_iff.1 h
  obtain ⟨final, hrun, hfinish⟩ := Option.bind_eq_some_iff.1 hfound
  unfold Splitter.finish at hfinish
  split at hfinish
  · next hfinal =>
    obtain rfl := Option.some.inj hfinish
    obtain ⟨more, parts, hmore, hshown, hlexes⟩ := (Stands.between []).run hrun hfinal
    refine ⟨parts, ?_, hlexes⟩
    simpa [hmore, Shown] using hshown
  · cases hfinish

/-- A line that is split into words is one command to the shell, and the words are its argument
vector; the name of the command must not look like an assignment. -/
theorem vectors_of_splitWords {line name : String} {args : List String}
    (h : splitWords line = some (name :: args)) (hname : '=' ∉ name.toList) (m : Machine) :
    vectors m line.toList = some [name :: args] := by
  have hproper : Token.Proper false ((name :: args).map .word) := by
    simp [Token.Proper, hname]
  rw [vectors_of_reads (reads_of_splitWords h) hproper, Token.vectorsFrom_words_nil]
  rfl

/-! ## Flags behind a text -/

/-- What flags add to the end of a line. -/
def trailing (flags : List String) : String :=
  if flags = [] then "" else " " ++ commandLine flags

theorem splitWords_trailing (flags : List String) : splitWords (trailing flags) = some flags := by
  unfold trailing
  split
  · next h => exact h ▸ splitWords_commandLine []
  · rw [splitWords_blank, splitWords_commandLine]

end Shell

/-- The definition of a variable keeps its flags: nothing of them is trimmed away. -/
theorem Make.trimRight_definition (name : String) (flags : List String) :
    Text.trimRight (name ++ " := " ++ Shell.commandLine flags) =
      name ++ " :=" ++ Shell.trailing flags := by
  refine String.toList_inj.1 ?_
  unfold Shell.trailing
  split
  · next h =>
    subst h
    rw [trimRight_noFlags]
    simp
  · next h =>
    rw [trimRight_flags name h]
    simp

theorem Word.line_append_flags {front : List Word} (hfront : front ≠ []) (flags : List String) :
    Word.line (front ++ flags.map .flag) = Word.line front ++ Shell.trailing flags := by
  unfold Shell.trailing
  split
  · next h => simp [h]
  · next h =>
    have hquoted : (flags.map Word.flag).map Word.text = flags.map Shell.quote := by
      rw [List.map_map]
      rfl
    rw [Word.line, List.map_append, String.intercalate_append_of_ne_nil (by simpa using hfront)
      (by simpa using h), hquoted, String.append_assoc]
    rfl

namespace Shell

/-- Quoting loses nothing. The line that is written for a list of words is split into exactly these
words, and what no quotes protect in it are blanks and plain characters. So are the flags of a
compiler split in the head of a Makefile, and the arguments behind the rest of a configure command.
Behind the name of a command, the shell hands the words over as they were, whatever it holds. -/
theorem commandLine_lossless (words : List String) :
    splitWords (commandLine words) = some words ∧
    (∀ c ∈ Quotes.exposed .outside (commandLine words).toList,
      c = ' ' ∨ c = '\t' ∨ isBare c = true) ∧
    (∀ (s : Settings) (name : String),
      (name, words) ∈ [("CFLAGS", s.toolchain.cflags), ("CXXFLAGS", s.toolchain.cxxflags),
        ("LDFLAGS", s.toolchain.ldflags)] →
      ∃ text, name ++ " :=" ++ text ∈ NodeClass.compileHead s ∧ splitWords text = some words) ∧
    (∀ (dirs : GeneratedDirs) (target : Target) (spec : AutoconfSpec), ∃ text,
      Node.configureCommand dirs target { spec with configureArgs := words } =
        Node.configureCommand dirs target { spec with configureArgs := [] } ++ text ∧
      splitWords text = some words) ∧
    ∀ (m : Machine) (name : String), '=' ∉ name.toList →
      vectors m (commandLine (name :: words)).toList = some [name :: words] := by
  have hsplit := splitWords_commandLine words
  refine ⟨hsplit, plain_of_splitWords hsplit, ?_, ?_, ?_⟩
  · intro s name hname
    refine ⟨trailing words, ?_, splitWords_trailing words⟩
    rw [← Make.trimRight_definition]
    simp only [List.mem_cons, Prod.mk.injEq, List.not_mem_nil, or_false] at hname
    rcases hname with ⟨rfl, rfl⟩ | ⟨rfl, rfl⟩ | ⟨rfl, rfl⟩ <;> simp [NodeClass.compileHead]
  · intro dirs target spec
    refine ⟨trailing words, ?_, splitWords_trailing words⟩
    simp only [Node.configureCommand, Node.configureLine, List.map_nil, List.append_nil]
    exact Word.line_append_flags (by simp) words
  · intro m name hname
    exact vectors_of_splitWords (splitWords_commandLine (name :: words)) hname m

/-- Flags that a shell would take for something else: nothing at all, a quote, blanks, a variable,
double quotes and two lines. -/
def awkward : List String := ["", "it's", "a  b", "$x", "-D\"y\"", "two\nlines"]

/-- Settings with these flags for the C compiler. -/
def awkwardSettings : Settings :=
  ⟨⟨.info, none, "Makefile"⟩, ⟨"obj", "gen", "src", "pkg"⟩, ⟨"cc", "c++", awkward, [], [], "/usr"⟩⟩

/-- A shell in which a variable is set. -/
def shellWithVariable : Machine := ⟨default, default, [("x", "1")], [], [], [], 0, none⟩

theorem commandLine_lossless_awkward :
    ("CFLAGS", awkward) ∈ [("CFLAGS", awkwardSettings.toolchain.cflags),
      ("CXXFLAGS", awkwardSettings.toolchain.cxxflags),
      ("LDFLAGS", awkwardSettings.toolchain.ldflags)] ∧
    '=' ∉ "cc".toList ∧
    commandLine awkward = "'' 'it'\"'\"'s' 'a  b' '$x' '-D\"y\"' 'two\nlines'" ∧
    splitWords (commandLine awkward) = some awkward ∧
    (∃ text, "CFLAGS" ++ " :=" ++ text ∈ NodeClass.compileHead awkwardSettings ∧
      splitWords text = some awkward) ∧
    vectors shellWithVariable (commandLine ("cc" :: awkward)).toList = some ["cc" :: awkward] := by
  obtain ⟨hsplit, -, hhead, -, hvectors⟩ := commandLine_lossless awkward
  have hname : '=' ∉ "cc".toList := by decide
  exact ⟨List.mem_cons_self, hname, by decide, hsplit,
    hhead awkwardSettings "CFLAGS" List.mem_cons_self, hvectors shellWithVariable "cc" hname⟩

end Shell

end Makewright
