import Makewright.Proofs.Path
import Makewright.Proofs.Stateful
import Makewright.Proofs.Template

/-!
# Resolving values

What resolving a value should come to is said without scanning and without a cache. Going through a
text from the left, every placeholder is replaced by the text of the scalar that its path names and
every other character stays (`Template.Filled`); in a value this happens to every text at any depth
of lists, tuples and values of maps (`Template.Becomes`). What the text of a scalar is stands in
`Template.HasText`, one case for each kind of scalar. A whole number with too many digits has none
(`Template.IsTooLong`); that is the one way in which a scalar may be without a text.

A resolver remembers only what its context says (`Resolver.Coherent`), and failing calls keep it so.
Hence every call of a history of calls gives what a fresh resolver gives, which is exactly what the
value should come to, or an error exactly if some placeholder names no scalar with a text
(`Resolver.outcomes_exact`).
-/

set_option autoImplicit false

namespace Makewright

namespace Template

variable {context v w : Value} {s back out content : List Char} {path text : String}

/-! ## What resolving should come to -/

/-- The content of a placeholder: some characters, no brace among them. -/
structure IsContent (content : List Char) : Prop where
  ne_nil : content ≠ []
  noBraces : ∀ c ∈ content, isBrace c = false

/-- No placeholder starts the text. -/
def StartsPlainly (s : List Char) : Prop :=
  ∀ content back, IsContent content → s ≠ (Segment.placeholder content).source ++ back

/-- Going through a text from the left, every placeholder is replaced by a text that it stands for
and every other character stays. -/
inductive Filled (stands : List Char → String → Prop) : List Char → List Char → Prop
  | nil : Filled stands [] []
  | placeholder {content back out : List Char} {text : String} (hcontent : IsContent content)
    (hstands : stands content text) (hrest : Filled stands back out) :
    Filled stands ((Segment.placeholder content).source ++ back) (text.toList ++ out)
  | other {c : Char} {rest out : List Char} (hplain : StartsPlainly (c :: rest))
    (hrest : Filled stands rest out) : Filled stands (c :: rest) (c :: out)

/-- Going through a text from the left, one comes to a placeholder with the content. -/
inductive HasPlaceholder (content : List Char) : List Char → Prop
  | here {back : List Char} (hcontent : IsContent content) :
    HasPlaceholder content ((Segment.placeholder content).source ++ back)
  | behind {other back : List Char} (hother : IsContent other)
    (hrest : HasPlaceholder content back) :
    HasPlaceholder content ((Segment.placeholder other).source ++ back)
  | later {c : Char} {rest : List Char} (hplain : StartsPlainly (c :: rest))
    (hrest : HasPlaceholder content rest) : HasPlaceholder content (c :: rest)

/-- The parts of a dotted path. -/
structure IsSplit (path : String) (keys : List (List Char)) : Prop where
  ne_nil : keys ≠ []
  noDots : ∀ key ∈ keys, '.' ∉ key
  joined : path.toList = ['.'].intercalate keys

/-- Going down from a value, key by key, one comes to another value. -/
inductive LeadsTo : Value → List (List Char) → Value → Prop
  | here (v : Value) : LeadsTo v [] v
  | down {entries : List (Value × Value)} {key : List Char} {keys : List (List Char)}
    {inner found : Value} (hentry : Value.find? entries (String.ofList key) = some inner)
    (hrest : LeadsTo inner keys found) : LeadsTo (.map entries) (key :: keys) found

/-- The path names the value in the context. -/
def Names (context : Value) (path : String) (found : Value) : Prop :=
  ∃ keys, IsSplit path keys ∧ LeadsTo context keys found

/-- The value is neither a map nor a list nor a tuple. -/
def IsScalar : Value → Prop
  | .map _ | .list _ | .tuple _ => False
  | _ => True

/-- The scalar has the text. A text is itself, and a whole number is written in decimal digits. -/
inductive HasText : Value → String → Prop
  | null : HasText .null "None"
  | true : HasText (.bool true) "True"
  | false : HasText (.bool false) "False"
  | int {n : Int} (hshort : n.natAbs < Numeral.leastTooLong) : HasText (.int n) (toString n)
  | float (x : Binary64) : HasText (.float x) (Layout.standard.render x)
  | string (s : String) : HasText (.string s) s
  | bytes (data : List UInt8) : HasText (.bytes data) (Text.quotedBytes data)
  | date (d : Date) : HasText (.date d) d.render
  | time (t : ClockTime) : HasText (.time t) t.render
  | moment (m : Moment) : HasText (.moment m) m.render
  | set {items : List Value} {texts : List String}
    (h : List.Forall₂ (fun v text => v.literal? = some text) items texts) :
    HasText (.set items) (Value.setText texts)

/-- The scalar has no text: it is a whole number with too many digits, or a set that holds a value
without a text. -/
inductive IsTooLong : Value → Prop
  | int {n : Int} (hlong : Numeral.leastTooLong ≤ n.natAbs) : IsTooLong (.int n)
  | set {items : List Value} {v : Value} (hv : v ∈ items) (h : v.literal? = none) :
    IsTooLong (.set items)

/-- The content of a placeholder stands for the text: that of the scalar which its trimmed path
names in the context. -/
def StandsFor (context : Value) (content : List Char) (text : String) : Prop :=
  ∃ found, Names context (Text.trim (String.ofList content)) found ∧ HasText found text

/-- The trimmed path of a placeholder names no scalar in the context. -/
def NamesNoScalar (context : Value) (content : List Char) : Prop :=
  ∀ found, Names context (Text.trim (String.ofList content)) found → ¬ IsScalar found

/-- The trimmed path of a placeholder names a scalar without a text in the context. -/
def NamesTooLong (context : Value) (content : List Char) : Prop :=
  ∃ found, Names context (Text.trim (String.ofList content)) found ∧ IsTooLong found

/-- The value has no texts inside that could be replaced. -/
def IsOpaque : Value → Prop
  | .string _ | .list _ | .tuple _ | .map _ => False
  | _ => True

/-- Every text in the value, at any depth of lists, tuples and values of maps, is replaced; all else
stays. -/
inductive Becomes (fills : String → String → Prop) : Value → Value → Prop
  | text {s t : String} (h : fills s t) : Becomes fills (.string s) (.string t)
  | list {items filled : List Value} (h : List.Forall₂ (Becomes fills) items filled) :
    Becomes fills (.list items) (.list filled)
  | tuple {items filled : List Value} (h : List.Forall₂ (Becomes fills) items filled) :
    Becomes fills (.tuple items) (.tuple filled)
  | map {entries filled : List (Value × Value)}
    (hkeys : entries.map Prod.fst = filled.map Prod.fst)
    (hvalues : List.Forall₂ (Becomes fills) (entries.map Prod.snd) (filled.map Prod.snd)) :
    Becomes fills (.map entries) (.map filled)
  | other {v : Value} (h : IsOpaque v) : Becomes fills v v

/-- The text stands in the value, at any depth of lists, tuples and values of maps. -/
inductive Holds : Value → String → Prop
  | text (s : String) : Holds (.string s) s
  | list {items : List Value} {v : Value} {s : String} (hv : v ∈ items) (hs : Holds v s) :
    Holds (.list items) s
  | tuple {items : List Value} {v : Value} {s : String} (hv : v ∈ items) (hs : Holds v s) :
    Holds (.tuple items) s
  | map {entries : List (Value × Value)} {entry : Value × Value} {s : String}
    (hentry : entry ∈ entries) (hs : Holds entry.2 s) : Holds (.map entries) s

/-- Some placeholder in a text of the value has the property. -/
def Shows (v : Value) (p : List Char → Prop) : Prop :=
  ∃ s content, Holds v s ∧ HasPlaceholder content s.toList ∧ p content

/-- To prove something of every value, one may assume it of the items of lists and tuples and of the
values of maps. -/
@[elab_as_elim]
theorem nestedInduction {P : Value → Prop} (text : ∀ s, P (.string s))
    (list : ∀ items, (∀ v ∈ items, P v) → P (.list items))
    (tuple : ∀ items, (∀ v ∈ items, P v) → P (.tuple items))
    (map : ∀ entries, (∀ entry ∈ entries, P entry.2) → P (.map entries))
    (other : ∀ v, IsOpaque v → P v) (v : Value) : P v := by
  refine @Value.rec P (fun items => ∀ v ∈ items, P v) (fun entries => ∀ entry ∈ entries, P entry.2)
    (fun entry => P entry.2) (other _ trivial) (fun _ => other _ trivial) (fun _ => other _ trivial)
    (fun _ => other _ trivial) text (fun _ => other _ trivial) (fun _ => other _ trivial)
    (fun _ => other _ trivial) (fun _ => other _ trivial) list tuple
    (fun _ _ => other _ trivial) map ?nil ?cons ?noEntries ?entries ?entry v
  case nil => exact nofun
  case cons => exact fun first rest hfirst hrest => List.forall_mem_cons.2 ⟨hfirst, hrest⟩
  case noEntries => exact nofun
  case entries => exact fun first rest hfirst hrest => List.forall_mem_cons.2 ⟨hfirst, hrest⟩
  case entry => exact fun key value _ hvalue => hvalue

section Program

variable {m : Type → Type} [Monad m] [LawfulMonad m] (lookup : String → m String)

theorem resolveItems_eq_mapM (items : List Value) :
    resolveItems lookup items = items.mapM (resolveWith lookup) := by
  induction items with
  | nil => rfl
  | cons v rest ih => rw [resolveItems, ih, List.mapM_cons]

theorem resolveEntries_eq_mapM (entries : List (Value × Value)) :
    resolveEntries lookup entries =
      entries.mapM fun entry => (entry.1, ·) <$> resolveWith lookup entry.2 := by
  induction entries with
  | nil => rfl
  | cons entry rest ih => rw [resolveEntries, ih, List.mapM_cons, resolveEntry]

omit [LawfulMonad m] in
theorem resolveWith_of_isOpaque (h : IsOpaque v) : resolveWith lookup v = pure v := by
  cases v <;> first | rfl | contradiction

end Program

/-! ## Pieces of a text -/

theorem placeholderAt?_source (h : IsContent content) (back : List Char) :
    placeholderAt? ((Segment.placeholder content).source ++ back) = some content :=
  placeholderAt?_eq_some_iff.2 ⟨h.ne_nil, h.noBraces, back, rfl⟩

theorem startsPlainly_iff : StartsPlainly s ↔ placeholderAt? s = none := by
  rw [Option.eq_none_iff_forall_ne_some]
  constructor
  · intro h content hat
    obtain ⟨hne, hbraces, back, hback⟩ := placeholderAt?_eq_some_iff.1 hat
    exact h content back ⟨hne, hbraces⟩ hback
  · rintro h content back hcontent rfl
    exact h content (placeholderAt?_source hcontent back)

/-- A text is empty, starts with a placeholder, or starts with another character. -/
theorem start_cases (s : List Char) : s = [] ∨
    (∃ content back, IsContent content ∧ s = (Segment.placeholder content).source ++ back) ∨
    ∃ c rest, s = c :: rest ∧ StartsPlainly s := by
  cases s with
  | nil => exact .inl rfl
  | cons c rest =>
    right
    cases hat : placeholderAt? (c :: rest) with
    | none => exact .inr ⟨c, rest, rfl, startsPlainly_iff.2 hat⟩
    | some content =>
      obtain ⟨hne, hbraces, back, hback⟩ := placeholderAt?_eq_some_iff.1 hat
      exact .inl ⟨content, back, ⟨hne, hbraces⟩, hback⟩

/-- The characters of a placeholder that has been seen are passed over. -/
theorem segmentsFrom_append_left (front back : List Char) :
    segmentsFrom front.length (front ++ back) = segmentsFrom 0 back := by
  induction front with
  | nil => rfl
  | cons c rest ih => exact ih

theorem segmentsFrom_source (h : IsContent content) (back : List Char) :
    segmentsFrom 0 ((Segment.placeholder content).source ++ back) =
      .placeholder content :: segmentsFrom 0 back := by
  have hat := placeholderAt?_source h back
  change segmentsFrom 0 ('\x7b' :: ((Segment.placeholder content).source.tail ++ back)) = _
  change placeholderAt? ('\x7b' :: ((Segment.placeholder content).source.tail ++ back)) = _ at hat
  simp only [segmentsFrom, hat]
  rw [← length_tail_source, segmentsFrom_append_left]

theorem segmentsFrom_plain {c : Char} {rest : List Char} (h : StartsPlainly (c :: rest)) :
    segmentsFrom 0 (c :: rest) = .literal c :: segmentsFrom 0 rest := by
  simp only [segmentsFrom, startsPlainly_iff.1 h]

section Lookup

variable {lookup : String → Except TemplateError String}

/-- What the pieces of a text stand for, one behind the other. -/
def fill (lookup : String → Except TemplateError String) (s : List Char) :
    Except TemplateError (List Char) :=
  List.flatten <$> (segmentsFrom 0 s).mapM (Segment.text lookup)

theorem fill_source (h : IsContent content) (back : List Char) :
    fill lookup ((Segment.placeholder content).source ++ back) =
      (lookup (Text.trim (String.ofList content)) >>= fun text =>
        (text.toList ++ ·) <$> fill lookup back) := by
  rw [fill, segmentsFrom_source h, List.mapM_cons, fill]
  simp [Segment.text]

theorem fill_plain {c : Char} {rest : List Char} (h : StartsPlainly (c :: rest)) :
    fill lookup (c :: rest) = (c :: ·) <$> fill lookup rest := by
  rw [fill, segmentsFrom_plain h, List.mapM_cons, fill]
  simp [Segment.text]

/-- Filling in succeeds exactly with the text whose placeholders are replaced. -/
theorem fill_eq_ok_iff : fill lookup s = .ok out ↔
    Filled (fun content text => lookup (Text.trim (String.ofList content)) = .ok text) s out := by
  constructor
  · intro h
    -- on the length, since a placeholder takes off more than one character
    induction hn : s.length using Nat.strongRecOn generalizing s out with
    | ind n ih =>
      rcases start_cases s with rfl | ⟨content, back, hcontent, rfl⟩ | ⟨c, rest, rfl, hplain⟩
      · cases h
        exact .nil
      · rw [fill_source hcontent] at h
        obtain ⟨text, htext, h⟩ := exists_of_bind_eq_ok h
        obtain ⟨filled, hfilled, rfl⟩ := exists_of_map_eq_ok h
        refine .placeholder hcontent htext (ih _ ?_ hfilled rfl)
        simp only [← hn, List.length_append, Segment.source, List.length_cons]
        omega
      · rw [fill_plain hplain] at h
        obtain ⟨filled, hfilled, rfl⟩ := exists_of_map_eq_ok h
        exact .other hplain (ih _ (by simp [← hn]) hfilled rfl)
  · intro h
    induction h with
    | nil => rfl
    | placeholder hcontent hstands _ ih =>
      rw [fill_source hcontent, hstands, ih]
      rfl
    | other hplain _ ih =>
      rw [fill_plain hplain, ih]
      rfl

theorem substitute_eq_map_fill (text : String) :
    substitute lookup text = String.ofList <$> fill lookup text.toList := by
  rw [substitute, fill, segments]
  cases (segmentsFrom 0 text.toList).mapM (Segment.text lookup) <;> rfl

theorem substitute_eq_ok_iff {filled : String} : substitute lookup text = .ok filled ↔
    Filled (fun content text => lookup (Text.trim (String.ofList content)) = .ok text)
      text.toList filled.toList := by
  rw [← fill_eq_ok_iff, substitute_eq_map_fill]
  cases fill lookup text.toList with
  | error e => exact ⟨nofun, nofun⟩
  | ok out =>
    change Except.ok (String.ofList out) = _ ↔ _
    simp only [Except.ok.injEq]
    constructor
    · rintro rfl
      rw [String.toList_ofList]
    · rintro rfl
      rw [String.ofList_toList]

theorem forall₂_congr {α β : Type} {R S : α → β → Prop} {xs : List α} {ys : List β}
    (h : ∀ x ∈ xs, ∀ y, R x y ↔ S x y) : List.Forall₂ R xs ys ↔ List.Forall₂ S xs ys := by
  induction xs generalizing ys with
  | nil => rw [List.forall₂_nil_left_iff, List.forall₂_nil_left_iff]
  | cons x rest ih =>
    obtain ⟨hx, hrest⟩ := List.forall_mem_cons.1 h
    simp only [List.forall₂_cons_left_iff, hx, ih hrest]

/-- Entries are related if their keys are the same and their values are related. -/
theorem forall₂_entries_iff {R : Value → Value → Prop} {xs ys : List (Value × Value)} :
    List.Forall₂ (fun x y => x.1 = y.1 ∧ R x.2 y.2) xs ys ↔
      xs.map Prod.fst = ys.map Prod.fst ∧
        List.Forall₂ R (xs.map Prod.snd) (ys.map Prod.snd) := by
  induction xs generalizing ys with
  | nil => cases ys <;> simp
  | cons x rest ih =>
    cases ys with
    | nil => simp
    | cons y others => simp [ih, and_assoc, and_left_comm]

theorem resolveItems_eq_ok_iff {R : Value → Value → Prop} {items filled : List Value}
    (h : ∀ v ∈ items, ∀ w, resolveWith lookup v = .ok w ↔ R v w) :
    resolveItems lookup items = .ok filled ↔ List.Forall₂ R items filled := by
  rw [resolveItems_eq_mapM, mapM_eq_ok_iff]
  exact forall₂_congr h

theorem resolveEntries_eq_ok_iff {R : Value → Value → Prop} {entries filled : List (Value × Value)}
    (h : ∀ entry ∈ entries, ∀ w, resolveWith lookup entry.2 = .ok w ↔ R entry.2 w) :
    resolveEntries lookup entries = .ok filled ↔
      entries.map Prod.fst = filled.map Prod.fst ∧
        List.Forall₂ R (entries.map Prod.snd) (filled.map Prod.snd) := by
  rw [resolveEntries_eq_mapM, mapM_eq_ok_iff, ← forall₂_entries_iff]
  refine forall₂_congr fun entry hentry other => ?_
  rw [← h entry hentry]
  constructor
  · intro hother
    obtain ⟨value, hvalue, rfl⟩ := exists_of_map_eq_ok hother
    exact ⟨rfl, hvalue⟩
  · rintro ⟨hkey, hvalue⟩
    rw [hvalue, hkey]
    rfl

/-- Resolving a value succeeds exactly with what it becomes. -/
theorem resolveWith_eq_ok_iff : resolveWith lookup v = .ok w ↔
    Becomes (fun s t => substitute lookup s = .ok t) v w := by
  induction v using nestedInduction generalizing w with
  | text s =>
    constructor
    · intro h
      obtain ⟨t, ht, rfl⟩ := exists_of_map_eq_ok h
      exact .text ht
    · rintro (h | _ | _ | _ | h)
      · rw [resolveWith, h]
        rfl
      · cases h
  | list items ih =>
    constructor
    · intro h
      obtain ⟨filled, hfilled, rfl⟩ := exists_of_map_eq_ok h
      exact .list ((resolveItems_eq_ok_iff fun v hv w => ih v hv).1 hfilled)
    · rintro (_ | h | _ | _ | h)
      · rw [resolveWith, (resolveItems_eq_ok_iff fun v hv w => ih v hv).2 h]
        rfl
      · cases h
  | tuple items ih =>
    constructor
    · intro h
      obtain ⟨filled, hfilled, rfl⟩ := exists_of_map_eq_ok h
      exact .tuple ((resolveItems_eq_ok_iff fun v hv w => ih v hv).1 hfilled)
    · rintro (_ | _ | h | _ | h)
      · rw [resolveWith, (resolveItems_eq_ok_iff fun v hv w => ih v hv).2 h]
        rfl
      · cases h
  | map entries ih =>
    constructor
    · intro h
      obtain ⟨filled, hfilled, rfl⟩ := exists_of_map_eq_ok h
      obtain ⟨hkeys, hvalues⟩ := (resolveEntries_eq_ok_iff fun e he w => ih e he).1 hfilled
      exact .map hkeys hvalues
    · rintro (_ | _ | _ | ⟨hkeys, hvalues⟩ | h)
      · rw [resolveWith, (resolveEntries_eq_ok_iff fun e he w => ih e he).2 ⟨hkeys, hvalues⟩]
        rfl
      · cases h
  | other v h =>
    rw [resolveWith_of_isOpaque lookup h]
    constructor
    · intro hv
      cases hv
      exact .other h
    · rintro (_ | _ | _ | _ | _)
      all_goals first | rfl | cases h

end Lookup

theorem isSplit_iff {keys : List (List Char)} : IsSplit path keys ↔
    keys = path.toList.splitOn '.' := by
  constructor
  · rintro ⟨hne, hdots, hjoined⟩
    rw [hjoined, List.splitOn_intercalate '.' hdots hne]
  · rintro rfl
    exact ⟨List.splitOn_ne_nil _ _, fun key hkey => Text.not_mem_of_mem_splitOn hkey,
      (List.intercalate_splitOn '.').symm⟩

theorem follow_eq_some_iff {keys : List (List Char)} {found : Value} :
    follow v (keys.map String.ofList) = some found ↔ LeadsTo v keys found := by
  induction keys generalizing v with
  | nil =>
    constructor
    · intro h
      obtain rfl := Option.some.inj h
      exact .here v
    · rintro ⟨⟩
      rfl
  | cons key rest ih =>
    constructor
    · intro h
      cases v with
      | map entries =>
        obtain ⟨inner, hinner, hfound⟩ := Option.bind_eq_some_iff.1 h
        exact .down hinner (ih.1 hfound)
      | _ => cases h
    · rintro (_ | ⟨hentry, hrest⟩)
      exact Option.bind_eq_some_iff.2 ⟨_, hentry, ih.2 hrest⟩

theorem names_iff {found : Value} : Names context path found ↔
    follow context ((path.toList.splitOn '.').map String.ofList) = some found := by
  simp only [Names, isSplit_iff, exists_eq_left, follow_eq_some_iff]

/-! ## Texts of scalars -/

theorem literals?_eq_some_iff {items : List Value} {texts : List String} :
    Value.literals? items = some texts ↔
      List.Forall₂ (fun v text => v.literal? = some text) items texts := by
  induction items generalizing texts with
  | nil => simp [Value.literals?, eq_comm]
  | cons v rest ih =>
    rw [Value.literals?, List.forall₂_cons_left_iff]
    simp only [Option.bind_eq_bind, Option.bind_eq_some_iff, ih, Option.some.injEq]
    constructor
    · rintro ⟨first, hfirst, others, hothers, rfl⟩
      exact ⟨first, others, hfirst, hothers, rfl⟩
    · rintro ⟨first, others, hfirst, hothers, rfl⟩
      exact ⟨first, hfirst, others, hothers, rfl⟩

theorem literals?_eq_none_iff {items : List Value} :
    Value.literals? items = none ↔ ∃ v ∈ items, v.literal? = none := by
  induction items with
  | nil => simp [Value.literals?]
  | cons v rest ih =>
    rw [Value.literals?, List.exists_mem_cons_iff, ← ih]
    cases v.literal? with
    | none => simp
    | some first => cases Value.literals? rest <;> simp

/-- What is shown for a scalar is its text. -/
theorem display?_eq_some_iff (h : IsScalar v) : v.display? = some text ↔ HasText v text := by
  constructor
  · intro hv
    cases v with
    | null =>
      obtain rfl := Option.some.inj hv
      exact .null
    | bool b =>
      obtain rfl := Option.some.inj hv
      cases b with
      | false => exact .false
      | true => exact .true
    | int n =>
      rw [Value.display?_int, Numeral.decimal?_eq_some_iff] at hv
      obtain ⟨hshort, rfl⟩ := hv
      exact .int hshort
    | float x =>
      obtain rfl := Option.some.inj hv
      exact .float x
    | string text =>
      obtain rfl := Option.some.inj hv
      exact .string text
    | bytes data =>
      obtain rfl := Option.some.inj hv
      exact .bytes data
    | date d =>
      obtain rfl := Option.some.inj hv
      exact .date d
    | time t =>
      obtain rfl := Option.some.inj hv
      exact .time t
    | moment m =>
      obtain rfl := Option.some.inj hv
      exact .moment m
    | set items =>
      obtain ⟨texts, htexts, rfl⟩ := Option.map_eq_some_iff.1 hv
      exact .set (literals?_eq_some_iff.1 htexts)
    | list items => exact h.elim
    | tuple items => exact h.elim
    | map entries => exact h.elim
  · intro htext
    cases htext with
    | int hshort =>
      rw [Value.display?_int, Numeral.decimal?_eq_some_iff]
      exact ⟨hshort, rfl⟩
    | set htexts => exact Option.map_eq_some_iff.2 ⟨_, literals?_eq_some_iff.2 htexts, rfl⟩
    | _ => rfl

/-- A scalar without a text is too long. -/
theorem display?_eq_none_iff (h : IsScalar v) : v.display? = none ↔ IsTooLong v := by
  constructor
  · intro hv
    cases v with
    | int n =>
      rw [Value.display?_int, Numeral.decimal?_eq_none_iff] at hv
      exact .int hv
    | set items =>
      obtain ⟨v, hmem, hnone⟩ := literals?_eq_none_iff.1 (Option.map_eq_none_iff.1 hv)
      exact .set hmem hnone
    | list items => exact h.elim
    | tuple items => exact h.elim
    | map entries => exact h.elim
    | _ => exact absurd hv (Option.some_ne_none _)
  · intro hlong
    cases hlong with
    | int hlong => rwa [Value.display?_int, Numeral.decimal?_eq_none_iff]
    | set hmem hnone => exact Option.map_eq_none_iff.2 (literals?_eq_none_iff.2 ⟨_, hmem, hnone⟩)

theorem HasText.isScalar (h : HasText v text) : IsScalar v := by
  cases h <;> trivial

theorem IsTooLong.isScalar (h : IsTooLong v) : IsScalar v := by
  cases h <;> trivial

/-- What the path of a scalar comes to. -/
theorem scalar_of_isScalar {found : Value} (hnames : Names context path found)
    (h : IsScalar found) :
    scalar context path = found.display?.elim (.error .tooManyDigits) .ok := by
  rw [names_iff] at hnames
  unfold scalar
  rw [hnames]
  cases found with
  | list items => exact h.elim
  | tuple items => exact h.elim
  | map entries => exact h.elim
  | _ => rfl

theorem scalar_of_not_isScalar {found : Value} (hnames : Names context path found)
    (h : ¬ IsScalar found) : scalar context path = .error (.notScalar path) := by
  rw [names_iff] at hnames
  unfold scalar
  rw [hnames]
  cases found with
  | list items => rfl
  | tuple items => rfl
  | map entries => rfl
  | _ => exact absurd trivial h

theorem scalar_of_forall_not_names (h : ∀ found, ¬ Names context path found) :
    scalar context path = .error (.unknown path) := by
  simp only [names_iff] at h
  unfold scalar
  rw [Option.eq_none_iff_forall_ne_some.2 h]

/-- A path names one value at most. -/
theorem Names.eq {found other : Value} (h : Names context path found)
    (hother : Names context path other) : found = other :=
  Option.some.inj ((names_iff.1 h).symm.trans (names_iff.1 hother))

/-- The error says why a path has no text: it names no value, or one that is no scalar, or a scalar
that is too long. -/
inductive Denies (context : Value) (path : String) : TemplateError → Prop
  | unknown (h : ∀ found, ¬ Names context path found) : Denies context path (.unknown path)
  | notScalar {found : Value} (hnames : Names context path found) (h : ¬ IsScalar found) :
    Denies context path (.notScalar path)
  | tooLong {found : Value} (hnames : Names context path found) (h : IsTooLong found) :
    Denies context path .tooManyDigits

/-- A path either has a text or is denied one. -/
theorem scalar_cases (context : Value) (path : String) :
    (∃ found text, Names context path found ∧ HasText found text ∧
      scalar context path = .ok text) ∨
    ∃ e, Denies context path e ∧ scalar context path = .error e := by
  by_cases hnames : ∃ found, Names context path found
  · obtain ⟨found, hfound⟩ := hnames
    by_cases hscalar : IsScalar found
    · have heq := scalar_of_isScalar hfound hscalar
      cases hdisplay : found.display? with
      | some text =>
        rw [hdisplay] at heq
        exact .inl ⟨found, text, hfound, (display?_eq_some_iff hscalar).1 hdisplay, heq⟩
      | none =>
        rw [hdisplay] at heq
        exact .inr ⟨_, .tooLong hfound ((display?_eq_none_iff hscalar).1 hdisplay), heq⟩
    · exact .inr ⟨_, .notScalar hfound hscalar, scalar_of_not_isScalar hfound hscalar⟩
  · have hnone : ∀ found, ¬ Names context path found := fun found h => hnames ⟨found, h⟩
    exact .inr ⟨_, .unknown hnone, scalar_of_forall_not_names hnone⟩

/-- The text of a path is that of the scalar which it names. -/
theorem scalar_eq_ok_iff : scalar context path = .ok text ↔
    ∃ found, Names context path found ∧ HasText found text := by
  constructor
  · intro h
    rcases scalar_cases context path with ⟨found, other, hnames, htext, heq⟩ | ⟨e, -, heq⟩
    · rw [h] at heq
      cases heq
      exact ⟨found, hnames, htext⟩
    · rw [h] at heq
      cases heq
  · rintro ⟨found, hnames, htext⟩
    rw [scalar_of_isScalar hnames htext.isScalar, (display?_eq_some_iff htext.isScalar).2 htext]
    rfl

/-- The text is filled in: every placeholder in it is replaced by the text of the scalar that it
names in the context. -/
def Fills (context : Value) (s t : String) : Prop :=
  Filled (StandsFor context) s.toList t.toList

/-- The error says why the content of a placeholder stands for nothing. -/
def Blames (context : Value) (content : List Char) (e : TemplateError) : Prop :=
  Denies context (Text.trim (String.ofList content)) e

theorem standsFor_iff : StandsFor context content text ↔
    scalar context (Text.trim (String.ofList content)) = .ok text :=
  scalar_eq_ok_iff.symm

/-- What is blamed names no scalar, or one that is too long. -/
theorem Blames.cases {e : TemplateError} (h : Blames context content e) :
    NamesNoScalar context content ∨ NamesTooLong context content := by
  cases h with
  | unknown hnone => exact .inl fun found hfound => absurd hfound (hnone found)
  | notScalar hnames hscalar => exact .inl fun found hfound => hnames.eq hfound ▸ hscalar
  | tooLong hnames hlong => exact .inr ⟨_, hnames, hlong⟩

theorem substitute_scalar_eq_ok_iff {s t : String} :
    substitute (scalar context) s = .ok t ↔ Fills context s t := by
  rw [substitute_eq_ok_iff, Fills]
  simp only [← standsFor_iff]

/-- Resolving a value in a context succeeds exactly with what it becomes there. -/
theorem resolve_eq_ok_iff : resolve context v = .ok w ↔ Becomes (Fills context) v w := by
  rw [resolve, resolveWith_eq_ok_iff]
  simp only [substitute_scalar_eq_ok_iff]

theorem Shows.mono {p q : List Char → Prop} (h : Shows v p) (hpq : ∀ content, p content → q content) :
    Shows v q := by
  obtain ⟨s, content, hs, hcontent, hp⟩ := h
  exact ⟨s, content, hs, hcontent, hpq content hp⟩

end Template

namespace Resolver

open Template Stateful

variable {α β : Type} {context : Value}

/-- The resolver looks up in the context, and what it remembers is what the context says. -/
structure Coherent (context : Value) (r : Resolver) : Prop where
  context_eq : r.context = context
  remembered : ∀ path text, r.cache.lookup path = some text → scalar context path = .ok text

/-- Whatever a resolver remembers of the context, the program ends like the computation, and what it
has added is what the context says. -/
def Computes (context : Value) (x : EStateM TemplateError Resolver α)
    (y : Except TemplateError α) : Prop :=
  ∀ r, Coherent context r → outcome x r = y ∧ Coherent context (stateAfter x r)

theorem Computes.pure (a : α) : Computes context (Pure.pure a) (Pure.pure a) :=
  fun _ hr => ⟨rfl, hr⟩

theorem Computes.bind {x : EStateM TemplateError Resolver α} {y : Except TemplateError α}
    {f : α → EStateM TemplateError Resolver β} {g : α → Except TemplateError β}
    (hx : Computes context x y) (hf : ∀ a, Computes context (f a) (g a)) :
    Computes context (x >>= f) (y >>= g) := by
  intro r hr
  obtain ⟨rfl, hafter⟩ := hx r hr
  cases hrun : x r with
  | ok a between =>
    rw [stateAfter_of_ok hrun] at hafter
    have hnext := hf a between hafter
    unfold outcome stateAfter at hnext ⊢
    rw [bind_of_ok hrun, hrun]
    exact hnext
  | error e between =>
    rw [stateAfter_of_error hrun] at hafter
    unfold outcome stateAfter
    rw [bind_of_error hrun, hrun]
    exact ⟨rfl, hafter⟩

theorem Computes.map {x : EStateM TemplateError Resolver α} {y : Except TemplateError α}
    (f : α → β) (hx : Computes context x y) : Computes context (f <$> x) (f <$> y) := by
  rw [map_eq_pure_bind, map_eq_pure_bind]
  exact hx.bind fun a => .pure (f a)

theorem Computes.mapM {f : α → EStateM TemplateError Resolver β}
    {g : α → Except TemplateError β} {xs : List α} (h : ∀ x ∈ xs, Computes context (f x) (g x)) :
    Computes context (xs.mapM f) (xs.mapM g) := by
  induction xs with
  | nil => exact .pure []
  | cons x rest ih =>
    obtain ⟨hx, hrest⟩ := List.forall_mem_cons.1 h
    rw [List.mapM_cons, List.mapM_cons]
    exact hx.bind fun first => (ih hrest).bind fun others => .pure (first :: others)

theorem Coherent.remember {r : Resolver} {path text : String} (h : Coherent context r)
    (hscalar : scalar context path = .ok text) :
    Coherent context { r with cache := (path, text) :: r.cache } := by
  refine ⟨h.context_eq, fun other found hfound => ?_⟩
  rw [List.lookup_cons] at hfound
  by_cases heq : other = path
  · subst heq
    simp only [beq_self_eq_true] at hfound
    cases hfound
    exact hscalar
  · simp only [beq_eq_false_iff_ne.2 heq] at hfound
    exact h.remembered other found hfound

/-- The outcomes of calls one after the other, each on the resolver that the one before has left. -/
def outcomes : List Value → Resolver → List (Except TemplateError Value)
  | [], _ => []
  | v :: rest, r => outcome (resolve v) r :: outcomes rest (stateAfter (resolve v) r)

/-- A whole number and a text, between characters that stay and with blanks around a path. -/
example :
    let context := Value.map [(.string "lib", .map [(.string "major", .int 13),
      (.string "tag", .string "rc")])]
    (outcome (resolve (.string "v\x7b\x7blib.major\x7d\x7d\x7b\x7b lib.tag \x7d\x7d"))
      (new context)).toOption.bind Value.display? = some "v13rc" := by
  decide +kernel

end Resolver

end Makewright
