import Makewright.Text.Blank
import Makewright.Value

/-!
# Templates

A text may hold placeholders: a dotted path between double braces. Scanning from the left, the first
pair of opening braces that is followed by a run without braces and a pair of closing braces is a
placeholder; everything else stands for itself, and the text put in for a placeholder is not scanned
again. `Template.resolve` substitutes in every text of a value.

A `Resolver` remembers the paths it has looked up. A lookup that fails is not remembered.
-/

set_option autoImplicit false

namespace Makewright

/-- Why a placeholder has no text: its path names nothing, or no scalar, or a whole number in it has
too many digits. -/
inductive TemplateError where
  | unknown (path : String)
  | notScalar (path : String)
  | tooManyDigits
  deriving DecidableEq, Repr

/-- The wording of a template error. -/
def TemplateError.message : TemplateError → String
  | .unknown path => "Cannot resolve placeholder '\x7b\x7b" ++ path ++ "\x7d\x7d'"
  | .notScalar path => "Placeholder '\x7b\x7b" ++ path ++ "\x7d\x7d' does not name a scalar value"
  | .tooManyDigits => Numeral.limitMessage

namespace Template

/-- A piece of a text: a character that stands for itself, or a placeholder. -/
inductive Segment where
  | literal (c : Char)
  | placeholder (content : List Char)
  deriving DecidableEq, Repr

/-- A brace of either kind. -/
def isBrace (c : Char) : Bool :=
  c == '\x7b' || c == '\x7d'

/-- The content of the placeholder that a text starts with. -/
def placeholderAt? : List Char → Option (List Char)
  | '\x7b' :: '\x7b' :: rest =>
    let content := rest.takeWhile (!isBrace ·)
    if !content.isEmpty && ['\x7d', '\x7d'].isPrefixOf (rest.drop content.length) then some content
    else none
  | _ => none

/-- The pieces of a text; `skip` counts the characters that belong to a placeholder already seen. -/
def segmentsFrom : Nat → List Char → List Segment
  | _, [] => []
  | skip + 1, _ :: rest => segmentsFrom skip rest
  | 0, c :: rest =>
    match placeholderAt? (c :: rest) with
    | some content => .placeholder content :: segmentsFrom (content.length + 3) rest
    | none => .literal c :: segmentsFrom 0 rest

/-- The pieces of a text. -/
def segments (s : String) : List Segment :=
  segmentsFrom 0 s.toList

/-- The value that a list of map keys leads to. -/
def follow : Value → List String → Option Value
  | v, [] => some v
  | .map entries, key :: rest => (Value.find? entries key).bind fun v => follow v rest
  | _, _ :: _ => none

/-- The text of the scalar that a dotted path names in a context. -/
def scalar (context : Value) (path : String) : Except TemplateError String :=
  match follow context ((path.toList.splitOn '.').map String.ofList) with
  | none => .error (.unknown path)
  | some (.map _) | some (.list _) | some (.tuple _) => .error (.notScalar path)
  | some v => v.display?.elim (.error .tooManyDigits) .ok

section Substitution

variable {m : Type → Type} [Monad m] (lookup : String → m String)

/-- The text of one piece, where a placeholder is looked up by its trimmed content. -/
def Segment.text : Segment → m (List Char)
  | .literal c => pure [c]
  | .placeholder content => String.toList <$> lookup (Text.trim (String.ofList content))

/-- A text with its placeholders replaced. -/
def substitute (s : String) : m String :=
  (fun parts => String.ofList parts.flatten) <$> (segments s).mapM (Segment.text lookup)

mutual

/-- A value with the placeholders in all its texts replaced; the keys of maps stay as they are. -/
def resolveWith : Value → m Value
  | .string s => .string <$> substitute lookup s
  | .list items => .list <$> resolveItems items
  | .tuple items => .tuple <$> resolveItems items
  | .map entries => .map <$> resolveEntries entries
  | v => pure v
termination_by structural v => v

/-- Values with the placeholders in all their texts replaced, from the first on. -/
def resolveItems : List Value → m (List Value)
  | [] => pure []
  | v :: rest => do
    let v ← resolveWith v
    let rest ← resolveItems rest
    pure (v :: rest)
termination_by structural v => v

/-- Entries with the placeholders in all their values replaced, from the first on. -/
def resolveEntries : List (Value × Value) → m (List (Value × Value))
  | [] => pure []
  | entry :: rest => do
    let entry ← resolveEntry entry
    let rest ← resolveEntries rest
    pure (entry :: rest)
termination_by structural v => v

/-- An entry with the placeholders in its value replaced. -/
def resolveEntry : Value × Value → m (Value × Value)
  | (key, value) => (fun v => (key, v)) <$> resolveWith value
termination_by structural v => v

end

end Substitution

/-- A value with its placeholders replaced by scalars of the context. -/
def resolve (context value : Value) : Except TemplateError Value :=
  resolveWith (scalar context) value

/-- A text with its placeholders replaced by scalars of the context. -/
def resolveText (context : Value) (s : String) : Except TemplateError String :=
  substitute (scalar context) s

end Template

/-- A context together with the texts of the paths that have been looked up in it. -/
structure Resolver where
  context : Value
  cache : List (String × String)

namespace Resolver

/-- A resolver that has looked up nothing yet. -/
def new (context : Value) : Resolver := ⟨context, []⟩

/-- Look up a path, in the cache first. -/
def lookup (path : String) : EStateM TemplateError Resolver String := do
  let resolver ← get
  match resolver.cache.lookup path with
  | some text => pure text
  | none =>
    match Template.scalar resolver.context path with
    | .ok text =>
      set { resolver with cache := (path, text) :: resolver.cache }
      pure text
    | .error e => throw e

/-- A value with its placeholders replaced, and the resolver that remembers the lookups made. -/
def resolve (value : Value) : EStateM TemplateError Resolver Value :=
  Template.resolveWith lookup value

/-- Store a value in the context, below the maps that the leading keys name. -/
def store : Value → List String → Value → Option Value
  | .map entries, [key], value => some (.map (Value.insert entries (.string key) value))
  | .map entries, key :: rest, value => do
    let inner ← Value.find? entries key
    let changed ← store inner rest value
    some (.map (Value.insert entries (.string key) changed))
  | _, _, _ => none

end Resolver

end Makewright
