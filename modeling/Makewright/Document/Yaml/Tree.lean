import Makewright.Document.Yaml.Tag
import Makewright.Document.Yaml.Token

/-!
# Trees

A document as a tree of scalars, sequences and mappings, each with its tag. `treeOf` reads the tree
off the tokens. An alias stands for the tree that carries the anchor of its name; a tree that
contains itself is refused. A text holds at most one document.

`fuel` bounds the depth of nesting and the length of collections together; the number of tokens is
always enough.
-/

set_option autoImplicit false

namespace Makewright.Yaml

/-- A document or a part of one. -/
inductive Tree where
  | scalar (tag : Tag) (text : String)
  | sequence (tag : Tag) (items : List Tree)
  | mapping (tag : Tag) (entries : List (Tree × Tree))
  deriving Repr, Inhabited

/-- The tag of a tree. -/
def Tree.tag : Tree → Tag
  | .scalar tag _ | .sequence tag _ | .mapping tag _ => tag

/-- A tree without any text. -/
def Tree.empty : Tree := .scalar .null ""

/-- What is left to read: the tokens, the fault that comes behind them, the short names of tag
families, and the anchors seen so far. The tree of an anchor is missing while it is being read. -/
structure TokenReader where
  tokens : List Token
  fault : DocumentFault
  handles : List (String × String)
  anchors : List (String × Option Tree)

/-- A step that reads tokens. -/
abbrev ReadM := EStateM DocumentFault TokenReader

namespace ReadM

/-- The next token, which stays. -/
def peek : ReadM Token := do
  let s ← get
  match s.tokens with
  | t :: _ => pure t
  | [] => throw s.fault

/-- Drop the next token. -/
def skip : ReadM Unit :=
  modify fun s => { s with tokens := s.tokens.drop 1 }

/-- Drop the next token if it is the given one. -/
def skipIf (t : Token) : ReadM Bool := do
  if (← peek) = t then
    skip
    pure true
  else pure false

/-- Drop the next token, which has to be the given one. -/
def expect (t : Token) : ReadM Unit := do
  if !(← skipIf t) then throw .malformed

/-- The properties that a node can have in front of its content: an anchor and a tag, in either
order. -/
def properties : ReadM (Option String × Option (Option String × String)) := do
  match ← peek with
  | .anchor name =>
    skip
    match ← peek with
    | .tag handle suffix =>
      skip
      pure (some name, some (handle, suffix))
    | _ => pure (some name, none)
  | .tag handle suffix =>
    skip
    match ← peek with
    | .anchor name =>
      skip
      pure (some name, some (handle, suffix))
    | _ => pure (none, some (handle, suffix))
  | _ => pure (none, none)

/-- The full name of a tag. -/
def fullTag : Option (Option String × String) → ReadM (Option String)
  | none => pure none
  | some (none, suffix) => pure (some suffix)
  | some (some handle, suffix) => do
    match (← get).handles.lookup handle with
    | some front => pure (some (front ++ suffix))
    | none => throw .malformed

/-- Note that a tree with an anchor begins. An anchor is used once. -/
def openAnchor : Option String → ReadM Unit
  | none => pure ()
  | some name => do
    if (← get).anchors.any (·.1 == name) then throw .malformed
    modify fun s => { s with anchors := (name, none) :: s.anchors }

/-- Note the tree of an anchor. -/
def closeAnchor (tree : Tree) : Option String → ReadM Unit
  | none => pure ()
  | some name => modify fun s => { s with anchors := (name, some tree) :: s.anchors }

/-- The tree that an alias stands for. -/
def aliased (name : String) : ReadM Tree := do
  match (← get).anchors.lookup name with
  | some (some tree) => pure tree
  | _ => throw .malformed

mutual

/-- A node. Blocks can be refused, because they do not stand between brackets; a sequence without
an indentation of its own can be a value of a mapping. -/
def node (block indentless : Bool) : Nat → ReadM Tree
  | 0 => throw .malformed
  | fuel + 1 => do
    match ← peek with
    | .alias name =>
      skip
      aliased name
    | _ =>
      let (anchor, property) ← properties
      let tag ← fullTag property
      openAnchor anchor
      let tree ← content block indentless (anchor.isSome || tag.isSome) tag fuel
      closeAnchor tree anchor
      pure tree

/-- The content of a node behind its properties; with properties it may be missing. -/
def content (block indentless hasProperties : Bool) (tag : Option String) : Nat → ReadM Tree
  | 0 => throw .malformed
  | fuel + 1 => do
    let t ← peek
    if indentless && t = .blockEntry then
      pure (.sequence (Tag.ofCollection .seq tag) (← indentlessItems [] fuel))
    else
      match t with
      | .scalar text plain =>
        skip
        pure (.scalar (Tag.ofScalar tag plain text) text)
      | .flowSequenceStart =>
        skip
        pure (.sequence (Tag.ofCollection .seq tag) (← flowItems true [] fuel))
      | .flowMappingStart =>
        skip
        pure (.mapping (Tag.ofCollection .map tag) (← flowEntries true [] fuel))
      | .blockSequenceStart =>
        if block then
          skip
          pure (.sequence (Tag.ofCollection .seq tag) (← blockItems [] fuel))
        else missing
      | .blockMappingStart =>
        if block then
          skip
          pure (.mapping (Tag.ofCollection .map tag) (← blockEntries [] fuel))
        else missing
      | _ => missing
where
  /-- Nothing stands where the content should be. -/
  missing : ReadM Tree :=
    if hasProperties then pure (.scalar (Tag.ofScalar tag true "") "") else throw .malformed

/-- A node, or nothing in front of one of the given tokens. -/
def nodeUnless (stops : List Token) (block indentless : Bool) : Nat → ReadM Tree
  | 0 => throw .malformed
  | fuel + 1 => do
    if (← peek) ∈ stops then pure Tree.empty else node block indentless fuel

/-- The value behind a key, or nothing. -/
def valueUnless (stops : List Token) (block indentless : Bool) : Nat → ReadM Tree
  | 0 => throw .malformed
  | fuel + 1 => do
    if ← skipIf .value then nodeUnless stops block indentless fuel else pure Tree.empty

/-- The items of a block sequence, collected last first. -/
def blockItems (seen : List Tree) : Nat → ReadM (List Tree)
  | 0 => throw .malformed
  | fuel + 1 => do
    if ← skipIf .blockEntry then
      let item ← nodeUnless [.blockEntry, .blockEnd] true false fuel
      blockItems (item :: seen) fuel
    else
      expect .blockEnd
      pure seen.reverse

/-- The items of a sequence without an indentation of its own, collected last first. -/
def indentlessItems (seen : List Tree) : Nat → ReadM (List Tree)
  | 0 => throw .malformed
  | fuel + 1 => do
    if ← skipIf .blockEntry then
      let item ← nodeUnless [.blockEntry, .key, .value, .blockEnd] true false fuel
      indentlessItems (item :: seen) fuel
    else pure seen.reverse

/-- The entries of a block mapping, collected last first. -/
def blockEntries (seen : List (Tree × Tree)) : Nat → ReadM (List (Tree × Tree))
  | 0 => throw .malformed
  | fuel + 1 => do
    if ← skipIf .key then
      let key ← nodeUnless [.key, .value, .blockEnd] true true fuel
      let value ← valueUnless [.key, .value, .blockEnd] true true fuel
      blockEntries ((key, value) :: seen) fuel
    else
      expect .blockEnd
      pure seen.reverse

/-- The items of a sequence between brackets, collected last first. A key among them makes a mapping
of one entry. -/
def flowItems (first : Bool) (seen : List Tree) : Nat → ReadM (List Tree)
  | 0 => throw .malformed
  | fuel + 1 => do
    if ← skipIf .flowSequenceEnd then pure seen.reverse
    else
      if !first then expect .flowEntry
      if ← skipIf .key then
        let key ← nodeUnless [.value, .flowEntry, .flowSequenceEnd] false false fuel
        let value ← valueUnless [.flowEntry, .flowSequenceEnd] false false fuel
        flowItems false (.mapping .map [(key, value)] :: seen) fuel
      else if ← skipIf .flowSequenceEnd then pure seen.reverse
      else
        let item ← node false false fuel
        flowItems false (item :: seen) fuel

/-- The entries of a mapping between braces, collected last first. -/
def flowEntries (first : Bool) (seen : List (Tree × Tree)) : Nat → ReadM (List (Tree × Tree))
  | 0 => throw .malformed
  | fuel + 1 => do
    if ← skipIf .flowMappingEnd then pure seen.reverse
    else
      if !first then expect .flowEntry
      if ← skipIf .key then
        let key ← nodeUnless [.value, .flowEntry, .flowMappingEnd] false false fuel
        let value ← valueUnless [.flowEntry, .flowMappingEnd] false false fuel
        flowEntries false ((key, value) :: seen) fuel
      else if ← skipIf .flowMappingEnd then pure seen.reverse
      else
        let key ← node false false fuel
        flowEntries false ((key, Tree.empty) :: seen) fuel

end

/-- The short names that are known without a directive. -/
def standardHandles : List (String × String) :=
  [("!", "!"), ("!!", Tag.family)]

/-- The directives in front of a document: one version at most, and each short name once. -/
def directives (versionSeen : Bool) (handles : List (String × String)) : Nat → ReadM Unit
  | 0 => throw .malformed
  | fuel + 1 => do
    match ← peek with
    | .directive (.version major) =>
      if versionSeen || major ≠ 1 then throw .malformed
      skip
      directives true handles fuel
    | .directive (.tagHandle handle front) =>
      if handles.any (·.1 == handle) then throw .malformed
      skip
      directives versionSeen ((handle, front) :: handles) fuel
    | .directive .other =>
      skip
      directives versionSeen handles fuel
    | _ => modify fun s => { s with handles := handles ++ standardHandles }

/-- The document that starts with a mark. -/
def explicitDocument (fuel : Nat) : ReadM Tree := do
  directives false [] fuel
  expect .documentStart
  match ← peek with
  | .directive _ | .documentStart | .documentEnd | .streamEnd => pure Tree.empty
  | _ => node true false fuel

/-- Skip marks that end documents. -/
def skipEnds : Nat → ReadM Unit
  | 0 => throw .malformed
  | fuel + 1 => do
    if ← skipIf .documentEnd then skipEnds fuel

/-- The one document of a text, if it has any. -/
def document (fuel : Nat) : ReadM (Option Tree) := do
  match ← peek with
  | .streamEnd => pure none
  | t =>
    let explicit :=
      match t with
      | .directive _ | .documentStart => true
      | _ => false
    let tree ← if explicit then explicitDocument fuel else node true false fuel
    skipEnds fuel
    expect .streamEnd
    pure (some tree)

end ReadM

/-- The tree of a text, if it has any. -/
def treeOf (text : List Char) : Except DocumentFault (Option Tree) :=
  let (tokens, fault) := tokensOf text
  let reader : TokenReader := ⟨tokens, fault.getD .malformed, ReadM.standardHandles, []⟩
  match (ReadM.document (6 * tokens.length + 8)).run reader with
  | .ok tree _ => .ok tree
  | .error fault _ => .error fault

end Makewright.Yaml
