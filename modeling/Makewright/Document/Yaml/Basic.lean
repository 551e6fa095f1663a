import Makewright.Document.Yaml.Scalar
import Makewright.Document.Yaml.Tree

/-!
# YAML documents

The value of a YAML document. A mapping may take in the entries of other mappings under a merge key;
they come first and give way to its own. A key has to be a scalar.

A document with several faults reports the one that is met first when the tree is gone through level
by level: first the whole document, then the members of each collection in turn, and so on.
-/

set_option autoImplicit false

namespace Makewright.Yaml

mutual

/-- The text of a tree that counts as a scalar: its own text, or that of the entry of a mapping
whose key is the mark for this. -/
def textOf : Tree → Except DocumentFault String
  | .scalar _ text => .ok text
  | .sequence .. => .error .malformed
  | .mapping _ entries => textOfEntries entries
termination_by structural t => t

/-- The text of the first entry whose key is the mark. -/
def textOfEntries : List (Tree × Tree) → Except DocumentFault String
  | [] => .error .malformed
  | entry :: rest =>
    match textOfEntry entry with
    | some found => found
    | none => textOfEntries rest
termination_by structural t => t

/-- The text of an entry, if its key is the mark. -/
def textOfEntry : Tree × Tree → Option (Except DocumentFault String)
  | (key, value) => if key.tag = .value then some (textOf value) else none
termination_by structural t => t

end

/-- The value of a tree that counts as a scalar. A time stamp is looked for in the tree itself, so
that a mapping cannot be one. -/
def scalarOf (t : Tree) : Except DocumentFault Value := do
  let text ← textOf t
  match t.tag, t with
  | .timestamp, .mapping .. => .error (.scalar .notText)
  | tag, _ => scalarValue tag text

/-- The mark counts as a text where it is a key. -/
def asKey : Tree → Tree
  | .scalar .value text => .scalar .str text
  | t => t

mutual

/-- The entries of a mapping, those under merge keys first. -/
def entriesOf : Tree → Except DocumentFault (List (Tree × Tree))
  | .mapping _ entries => (sortEntries entries).map fun (merged, own) => merged ++ own
  | _ => .error .malformed
termination_by structural t => t

/-- The entries under merge keys and the others. -/
def sortEntries :
    List (Tree × Tree) → Except DocumentFault (List (Tree × Tree) × List (Tree × Tree))
  | [] => .ok ([], [])
  | entry :: rest => do
    let (merged, own) ← sortEntry entry
    let (moreMerged, moreOwn) ← sortEntries rest
    .ok (merged ++ moreMerged, own ++ moreOwn)
termination_by structural t => t

/-- What one entry contributes: the entries of the mappings that it merges, or itself. -/
def sortEntry :
    Tree × Tree → Except DocumentFault (List (Tree × Tree) × List (Tree × Tree))
  | (key, value) =>
    if key.tag = .merge then
      match value with
      | .mapping tag entries => (entriesOf (.mapping tag entries)).map (·, [])
      | .sequence _ items => (entriesOfAll items).map (·, [])
      | .scalar .. => .error .malformed
    else .ok ([], [(asKey key, value)])
termination_by structural t => t

/-- The entries of several mappings, the last one first. -/
def entriesOfAll : List Tree → Except DocumentFault (List (Tree × Tree))
  | [] => .ok []
  | t :: rest => do
    let first ← entriesOf t
    let others ← entriesOfAll rest
    .ok (others ++ first)
termination_by structural t => t

end

/-- A tag whose value holds other values. -/
def Tag.isCollection : Tag → Bool
  | .seq | .map | .set | .omap | .pairs => true
  | _ => false

/-- The one entry of each mapping in a list. -/
def singleEntries (items : List Tree) : Except DocumentFault (List (Tree × Tree)) :=
  items.mapM fun item =>
    match item with
    | .mapping _ [entry] => .ok entry
    | _ => .error .malformed

/-! ## Faults, level by level -/

/-- Meet a tree: a scalar shows its fault, a collection is put off. -/
def meet (t : Tree) : Except DocumentFault (List Tree) :=
  if t.tag.isCollection then .ok [t]
  else do
    let _ ← scalarOf t
    .ok []

/-- Meet a key, which must not be a collection. -/
def meetKey (t : Tree) : Except DocumentFault (List Tree) :=
  if t.tag.isCollection then .error .malformed else meet t

/-- Meet the members of a collection from the first to the last; the answer holds those put off. -/
def meetMembers (t : Tree) : Except DocumentFault (List Tree) :=
  match t.tag, t with
  | .seq, .sequence _ items => items.foldlM (fun later item => (meet item).map (later ++ ·)) []
  | .map, .mapping .. | .set, .mapping .. => do
    (← entriesOf t).foldlM (fun later (key, value) => do
      let _ ← meetKey key
      .ok (later ++ (← meet value))) []
  | .omap, .sequence _ items | .pairs, .sequence _ items =>
    items.foldlM (fun later item =>
      match item with
      | .mapping _ [(key, value)] => do
        let first ← meet key
        .ok (later ++ first ++ (← meet value))
      | _ => .error .malformed) []
  | _, _ => .error .malformed

/-- Go through the collections of one level after the other. `fuel` bounds the number of levels. -/
def meetLevels : Nat → List Tree → Except DocumentFault Unit
  | _, [] => .ok ()
  | 0, _ => .error .malformed
  | fuel + 1, level => do
    meetLevels fuel (← level.foldlM (fun later t => (meetMembers t).map (later ++ ·)) [])

/-! ## Values -/

/-- The value of a tree. `fuel` bounds its depth. -/
def valueOf : Nat → Tree → Except DocumentFault Value
  | 0, _ => .error .malformed
  | fuel + 1, t =>
    let entryValue (entry : Tree × Tree) : Except DocumentFault (Value × Value) := do
      .ok (← valueOf fuel entry.1, ← valueOf fuel entry.2)
    let mapping : Except DocumentFault (List (Value × Value)) := do
      let entries ← (← entriesOf t).mapM entryValue
      .ok (entries.foldl (fun acc (key, value) => Value.insert acc key value) [])
    match t.tag, t with
    | .seq, .sequence _ items => .list <$> items.mapM (valueOf fuel)
    | .map, _ => .map <$> mapping
    | .set, _ => (fun entries => .set (entries.map Prod.fst)) <$> mapping
    | .omap, .sequence _ items | .pairs, .sequence _ items => do
      let entries ← (← singleEntries items).mapM entryValue
      .ok (.list (entries.map fun (key, value) => .tuple [key, value]))
    | _, _ => scalarOf t

/-- A character that a YAML text may hold. -/
def isAllowed (c : Char) : Bool :=
  let n := c.toNat
  n == 9 || n == 10 || n == 13 || (32 ≤ n && n ≤ 126) || n == 0x85 || (0xA0 ≤ n && n ≤ 0xD7FF)
    || (0xE000 ≤ n && n ≤ 0xFFFD) || 0x10000 ≤ n

/-- The value of a YAML text; a text without a document has the empty value. -/
def read (text : List Char) : Except DocumentFault Value :=
  if !text.all isAllowed then .error .malformed
  else do
    match ← treeOf text with
    | none => .ok .null
    | some t =>
      let fuel := text.length + 1
      meetLevels fuel (← meet t)
      valueOf fuel t

end Makewright.Yaml
