import Makewright.Document.Yaml.Tree
import Makewright.Proofs.Document.Yaml.Token
import Makewright.Proofs.Stateful

/-!
# Reading a tree off its tokens

A step that reads tokens passes on the fault that comes behind them and makes up no other than that
the text does not follow the format (`Relays`). So a text has a tree unless something in it stops
the reading (`treeOf_halts`).
-/

set_option autoImplicit false

namespace Makewright.Yaml

variable {α β : Type}

/-- The step keeps the fault that comes behind the tokens; when it fails, then with this fault or
because the text does not follow the format. -/
def Relays (x : ReadM α) : Prop :=
  ∀ s, Concludes (fun _ after => after.fault = s.fault)
    (fun e _ => e = .malformed ∨ e = s.fault) x s

namespace Relays

theorem pure (a : α) : Relays (Pure.pure a) :=
  fun _ => .pure rfl

theorem malformed : Relays (throw .malformed : ReadM α) :=
  fun _ => .throw (.inl rfl)

theorem get : Relays (MonadState.get : ReadM TokenReader) :=
  fun _ => ⟨fun h => by cases h; rfl, fun h => by cases h⟩

theorem modify {change : TokenReader → TokenReader} (h : ∀ s, (change s).fault = s.fault) :
    Relays (modifyGet fun s => ((), change s) : ReadM Unit) :=
  fun s => .modify (h s)

theorem bind {x : ReadM α} {f : α → ReadM β} (hx : Relays x) (hf : ∀ a, Relays (f a)) :
    Relays (x >>= f) := by
  intro s
  refine (hx s).andThen fun a between hbetween => ?_
  have h := hf a between
  rw [hbetween] at h
  exact h

theorem ite {p : Prop} [Decidable p] {x y : ReadM α} (hx : Relays x) (hy : Relays y) :
    Relays (if p then x else y) := by
  split
  · exact hx
  · exact hy

end Relays

namespace ReadM

theorem peek_relays : Relays peek := by
  intro s
  refine .get_bind ?_
  split
  · exact .pure rfl
  · exact .throw (.inr rfl)

theorem skip_relays : Relays skip :=
  .modify fun _ => rfl

theorem skipIf_relays (t : Token) : Relays (skipIf t) :=
  peek_relays.bind fun _ => .ite (skip_relays.bind fun _ => .pure true) (.pure false)

theorem expect_relays (t : Token) : Relays (expect t) :=
  (skipIf_relays t).bind fun _ => .ite .malformed (.pure ())

theorem properties_relays : Relays properties := by
  refine peek_relays.bind fun first => ?_
  split
  · refine skip_relays.bind fun _ => peek_relays.bind fun second => ?_
    split
    · exact skip_relays.bind fun _ => .pure _
    · exact .pure _
  · refine skip_relays.bind fun _ => peek_relays.bind fun second => ?_
    split
    · exact skip_relays.bind fun _ => .pure _
    · exact .pure _
  · exact .pure _

theorem fullTag_relays (property : Option (Option String × String)) :
    Relays (fullTag property) := by
  unfold fullTag
  split
  · exact .pure _
  · exact .pure _
  · refine Relays.get.bind fun s => ?_
    split
    · exact .pure _
    · exact .malformed

theorem openAnchor_relays (anchor : Option String) : Relays (openAnchor anchor) := by
  cases anchor with
  | none => exact .pure ()
  | some name =>
    exact Relays.get.bind fun s => .ite .malformed (.modify fun _ => rfl)

theorem closeAnchor_relays (tree : Tree) (anchor : Option String) :
    Relays (closeAnchor tree anchor) := by
  cases anchor with
  | none => exact .pure ()
  | some name => exact .modify fun _ => rfl

theorem aliased_relays (name : String) : Relays (aliased name) := by
  refine Relays.get.bind fun s => ?_
  split
  · exact .pure _
  · exact .malformed

/-- All of the readers that call each other, with as much fuel. -/
structure AllRelay (fuel : Nat) : Prop where
  node : ∀ block indentless, Relays (node block indentless fuel)
  content : ∀ block indentless hasProperties tag,
    Relays (content block indentless hasProperties tag fuel)
  nodeUnless : ∀ stops block indentless, Relays (nodeUnless stops block indentless fuel)
  valueUnless : ∀ stops block indentless, Relays (valueUnless stops block indentless fuel)
  blockItems : ∀ seen, Relays (blockItems seen fuel)
  indentlessItems : ∀ seen, Relays (indentlessItems seen fuel)
  blockEntries : ∀ seen, Relays (blockEntries seen fuel)
  flowItems : ∀ first seen, Relays (flowItems first seen fuel)
  flowEntries : ∀ first seen, Relays (flowEntries first seen fuel)

theorem missing_relays (hasProperties : Bool) (tag : Option String) :
    Relays (content.missing hasProperties tag) :=
  .ite (.pure _) .malformed

theorem allRelay (fuel : Nat) : AllRelay fuel := by
  induction fuel with
  | zero =>
    exact ⟨fun _ _ => .malformed, fun _ _ _ _ => .malformed, fun _ _ _ => .malformed,
      fun _ _ _ => .malformed, fun _ => .malformed, fun _ => .malformed, fun _ => .malformed,
      fun _ _ => .malformed, fun _ _ => .malformed⟩
  | succ fuel ih =>
    constructor
    case node =>
      intro block indentless
      rw [ReadM.node]
      refine peek_relays.bind fun first => ?_
      split
      · exact skip_relays.bind fun _ => aliased_relays _
      · refine properties_relays.bind fun found => (fullTag_relays found.2).bind fun tag => ?_
        refine (openAnchor_relays found.1).bind fun _ => ?_
        refine (ih.content _ _ _ _).bind fun tree => ?_
        exact (closeAnchor_relays tree found.1).bind fun _ => .pure tree
    case content =>
      intro block indentless hasProperties tag
      have hmissing := missing_relays hasProperties tag
      rw [ReadM.content]
      refine peek_relays.bind fun first => .ite ?_ ?_
      · exact (ih.indentlessItems []).bind fun items => .pure _
      · split
        · exact skip_relays.bind fun _ => .pure _
        · exact skip_relays.bind fun _ => (ih.flowItems true []).bind fun items => .pure _
        · exact skip_relays.bind fun _ => (ih.flowEntries true []).bind fun entries => .pure _
        · exact .ite (skip_relays.bind fun _ => (ih.blockItems []).bind fun items => .pure _) hmissing
        · exact .ite (skip_relays.bind fun _ => (ih.blockEntries []).bind fun entries => .pure _)
            hmissing
        · exact hmissing
    case nodeUnless =>
      intro stops block indentless
      rw [ReadM.nodeUnless]
      exact peek_relays.bind fun _ => .ite (.pure _) (ih.node _ _)
    case valueUnless =>
      intro stops block indentless
      rw [ReadM.valueUnless]
      exact (skipIf_relays _).bind fun _ => .ite (ih.nodeUnless _ _ _) (.pure _)
    case blockItems =>
      intro seen
      rw [ReadM.blockItems]
      refine (skipIf_relays _).bind fun _ => .ite ?_ ?_
      · exact (ih.nodeUnless _ _ _).bind fun item => ih.blockItems _
      · exact (expect_relays _).bind fun _ => .pure _
    case indentlessItems =>
      intro seen
      rw [ReadM.indentlessItems]
      refine (skipIf_relays _).bind fun _ => .ite ?_ (.pure _)
      exact (ih.nodeUnless _ _ _).bind fun item => ih.indentlessItems _
    case blockEntries =>
      intro seen
      rw [ReadM.blockEntries]
      refine (skipIf_relays _).bind fun _ => .ite ?_ ?_
      · refine (ih.nodeUnless _ _ _).bind fun key => ?_
        exact (ih.valueUnless _ _ _).bind fun value => ih.blockEntries _
      · exact (expect_relays _).bind fun _ => .pure _
    case flowItems =>
      intro first seen
      -- behind the comma, which only the first item goes without
      have hitems : Relays (do
          if ← skipIf .key then
            let key ← ReadM.nodeUnless [.value, .flowEntry, .flowSequenceEnd] false false fuel
            let value ← ReadM.valueUnless [.flowEntry, .flowSequenceEnd] false false fuel
            ReadM.flowItems false (.mapping .map [(key, value)] :: seen) fuel
          else if ← skipIf .flowSequenceEnd then Pure.pure seen.reverse
          else
            let item ← ReadM.node false false fuel
            ReadM.flowItems false (item :: seen) fuel) := by
        refine (skipIf_relays _).bind fun _ => .ite ?_ ((skipIf_relays _).bind fun _ => ?_)
        · refine (ih.nodeUnless _ _ _).bind fun key => ?_
          exact (ih.valueUnless _ _ _).bind fun value => ih.flowItems _ _
        · exact .ite (.pure _) ((ih.node _ _).bind fun item => ih.flowItems _ _)
      rw [ReadM.flowItems]
      refine (skipIf_relays _).bind fun _ => .ite (.pure _) ?_
      exact .ite ((expect_relays _).bind fun _ => hitems) hitems
    case flowEntries =>
      intro first seen
      -- behind the comma, as for lists
      have hentries : Relays (do
          if ← skipIf .key then
            let key ← ReadM.nodeUnless [.value, .flowEntry, .flowMappingEnd] false false fuel
            let value ← ReadM.valueUnless [.flowEntry, .flowMappingEnd] false false fuel
            ReadM.flowEntries false ((key, value) :: seen) fuel
          else if ← skipIf .flowMappingEnd then Pure.pure seen.reverse
          else
            let key ← ReadM.node false false fuel
            ReadM.flowEntries false ((key, Tree.empty) :: seen) fuel) := by
        refine (skipIf_relays _).bind fun _ => .ite ?_ ((skipIf_relays _).bind fun _ => ?_)
        · refine (ih.nodeUnless _ _ _).bind fun key => ?_
          exact (ih.valueUnless _ _ _).bind fun value => ih.flowEntries _ _
        · exact .ite (.pure _) ((ih.node _ _).bind fun key => ih.flowEntries _ _)
      rw [ReadM.flowEntries]
      refine (skipIf_relays _).bind fun _ => .ite (.pure _) ?_
      exact .ite ((expect_relays _).bind fun _ => hentries) hentries

theorem directives_relays (versionSeen : Bool) (handles : List (String × String)) (fuel : Nat) :
    Relays (directives versionSeen handles fuel) := by
  induction fuel generalizing versionSeen handles with
  | zero => exact .malformed
  | succ fuel ih =>
    rw [directives]
    refine peek_relays.bind fun first => ?_
    split
    · exact .ite .malformed (skip_relays.bind fun _ => ih _ _)
    · exact .ite .malformed (skip_relays.bind fun _ => ih _ _)
    · exact skip_relays.bind fun _ => ih _ _
    · exact .modify fun _ => rfl

theorem explicitDocument_relays (fuel : Nat) : Relays (explicitDocument fuel) := by
  refine (directives_relays _ _ fuel).bind fun _ => (expect_relays _).bind fun _ => ?_
  refine peek_relays.bind fun first => ?_
  split
  any_goals exact .pure _
  exact (allRelay fuel).node _ _

theorem skipEnds_relays (fuel : Nat) : Relays (skipEnds fuel) := by
  induction fuel with
  | zero => exact .malformed
  | succ fuel ih => exact (skipIf_relays _).bind fun _ => .ite ih (.pure ())

theorem document_relays (fuel : Nat) : Relays (document fuel) := by
  refine peek_relays.bind fun first => ?_
  split
  · exact .pure none
  · extract_lets explicit
    have hend (tree : Tree) : Relays (do
        skipEnds fuel
        expect .streamEnd
        Pure.pure (some tree)) :=
      (skipEnds_relays fuel).bind fun _ => (expect_relays _).bind fun _ => .pure _
    exact .ite ((explicitDocument_relays fuel).bind hend) (((allRelay fuel).node _ _).bind hend)

end ReadM

/-- A text has a tree, or perhaps none, unless something in it stops the reading. -/
theorem treeOf_halts {text : List Char} {e : DocumentFault} (h : treeOf text = .error e) :
    Halts text e := by
  unfold treeOf at h
  split at h
  next tokens fault htokens =>
    extract_lets reader at h
    split at h
    · cases h
    · next e' after hrun =>
      cases h
      rcases (ReadM.document_relays _ reader).error hrun with rfl | rfl
      · exact .malformed
      · cases fault with
        | none => exact .malformed
        | some fault => exact tokensOf_halts text fault (htokens ▸ rfl)

end Makewright.Yaml
