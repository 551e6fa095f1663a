import Makewright.Document.Yaml.Token
import Makewright.Proofs.Document.Yaml.ScalarText

/-!
# The faults of a YAML text

Taking the tokens off a text goes on from place to place towards its end. So when there is a fault,
the text does not follow the format there, or an escape in it names a code without a character
(`tokensOf_halts`).
-/

set_option autoImplicit false

namespace Makewright.Yaml

open Makewright.Document

/-! ## Words -/

theorem nameText_scans (c : Cursor) : Scans (·.2.rest) c.rest (nameText c) := by
  unfold nameText
  split
  next name after hfound =>
    have hafter := c.takeWhile_suffix isWordChar
    rw [hfound] at hafter
    split
    · exact .malformed
    · exact .ok hafter

theorem anchorName_scans (c : Cursor) : Scans (·.2.rest) c.rest (anchorName c) := by
  refine (nameText_scans c).bind fun found hfound => ?_
  split
  next name after =>
    extract_lets mayFollow
    split
    · exact .ok hfound
    · exact .malformed

theorem tagHandle_scans (c : Cursor) : Scans (·.2.rest) c.rest (tagHandle c) := by
  unfold tagHandle
  split
  · exact .malformed
  · split
    · exact .ok c.next_suffix
    · split
      next name after hfound =>
        have hafter := (c.next.takeWhile_suffix isWordChar).trans c.next_suffix
        rw [hfound] at hafter
        split
        · exact .ok (after.next_suffix.trans hafter)
        · exact .malformed

theorem textOfBytes_fits (data : List UInt8) : Fits (textOfBytes data) := by
  unfold textOfBytes
  split
  · exact trivial
  · exact rfl

theorem percentBytes_scans (fuel : Nat) (seen : List UInt8) (c : Cursor) :
    Scans (·.2.rest) c.rest (percentBytes fuel seen c) := by
  induction fuel generalizing seen c with
  | zero => exact .ok List.suffix_rfl
  | succ fuel ih =>
    rw [percentBytes]
    split
    · refine Scans.of_fits (hexNumber_fits 2 _) fun found => ?_
      exact (ih _ _).of_suffix (c.advance_suffix 3)
    · exact .ok List.suffix_rfl

theorem tagTextFrom_scans (fuel : Nat) (seen : List Char) (c : Cursor) :
    Scans (·.2.rest) c.rest (tagTextFrom fuel seen c) := by
  induction fuel generalizing seen c with
  | zero => exact .ok List.suffix_rfl
  | succ fuel ih =>
    rw [tagTextFrom]
    split
    · exact .ok List.suffix_rfl
    · split
      · refine (percentBytes_scans _ [] c).bind fun found hfound => ?_
        refine Scans.of_fits (textOfBytes_fits found.1) fun text => ?_
        exact (ih _ found.2).of_suffix hfound
      · split
        · exact (ih _ c.next).of_suffix c.next_suffix
        · exact .ok List.suffix_rfl

theorem tagText_scans (c : Cursor) : Scans (·.2.rest) c.rest (tagText c) := by
  refine (tagTextFrom_scans _ [] c).bind fun found hfound => ?_
  split
  split
  · exact .malformed
  · exact .ok hfound

theorem tagToken_scans (c : Cursor) : Scans (·.2.rest) c.rest (tagToken c) := by
  -- whatever the tag is, a gap has to follow
  have hend (token : Token) {after : Cursor} (hafter : after.rest <:+ c.rest) :
      Scans (·.2.rest) c.rest
        (if isPlainGap after.peek then .ok (token, after) else .error DocumentFault.malformed) := by
    split
    · exact .ok hafter
    · exact .malformed
  unfold tagToken
  extract_lets ending
  split
  · -- a tag between angle brackets
    refine Scans.bind ((tagText_scans _).of_suffix (c.advance_suffix 2)) fun found hfound => ?_
    split
    split
    · exact hend _ ((Cursor.next_suffix _).trans hfound)
    · exact .malformed
  · split
    · -- a bare mark
      exact hend _ c.next_suffix
    · split
      · -- a handle in front of the tag
        refine (tagHandle_scans c).bind fun handle hhandle => ?_
        split
        refine Scans.bind ((tagText_scans _).of_suffix hhandle) fun found hfound => ?_
        exact hend _ hfound
      · refine Scans.bind ((tagText_scans _).of_suffix c.next_suffix) fun found hfound => ?_
        exact hend _ hfound

/-- A number is refused only for its digits. -/
theorem versionNumber_scans (c : Cursor) : Scans (·.2.rest) c.rest (versionNumber c) := by
  unfold versionNumber
  split
  next digits after hfound =>
    have hafter := c.takeWhile_suffix isDigit
    rw [hfound] at hafter
    have hdigits : digits = c.rest.takeWhile isDigit := (congrArg Prod.fst hfound).symm
    split
    · next n count hcount =>
      split
      · next hmany =>
        -- the digits are the run that stands here
        refine Halts.stops (.digits hmany ⟨digits, ?_, fun x hx => .inl ?_, ?_⟩)
        · rw [hdigits]
          exact (List.takeWhile_prefix _).isInfix
        · rw [hdigits] at hx
          exact List.mem_takeWhile_imp hx
        · have hle := count_le_of_digitsFrom hcount
          rw [Nat.zero_add] at hle
          refine hle.trans (List.countP_mono_left fun x hx _ => ?_)
          rw [hdigits] at hx
          exact List.mem_takeWhile_imp hx
      · exact .ok hafter
    · exact .malformed

theorem directiveBody_scans (name : String) (c : Cursor) :
    Scans (·.2.rest) c.rest (directiveBody name c) := by
  have hbody := c.skipWhile_suffix (· == ' ')
  unfold directiveBody
  extract_lets body
  split
  · -- the version: two numbers with a dot between them
    refine Scans.bind ((versionNumber_scans body).of_suffix hbody) fun major hmajor => ?_
    split
    next major after =>
      have hafter : after.next.rest <:+ c.rest := after.next_suffix.trans hmajor
      extract_lets ending
      split
      · exact .malformed
      · refine Scans.bind ((versionNumber_scans _).of_suffix hafter) fun minor hminor => ?_
        split
        split
        · exact .ok hminor
        · exact .malformed
  · split
    · -- a handle and what it stands for
      refine Scans.bind ((tagHandle_scans body).of_suffix hbody) fun handle hhandle => ?_
      split
      next handle after =>
        have hafter := (after.skipWhile_suffix (· == ' ')).trans hhandle
        extract_lets ending
        split
        · exact .malformed
        · refine Scans.bind ((tagText_scans _).of_suffix hafter) fun front hfront => ?_
          split
          split
          · exact .ok hfront
          · exact .malformed
    · -- an unknown directive is left alone
      exact .ok (c.skipWhile_suffix _)

theorem directiveToken_scans (c : Cursor) : Scans (·.2.rest) c.rest (directiveToken c) := by
  refine Scans.bind ((nameText_scans c.next).of_suffix c.next_suffix) fun name hname => ?_
  split
  next name after =>
    extract_lets ending
    split
    · exact .malformed
    · refine Scans.bind ((directiveBody_scans name after).of_suffix hname) fun body hbody => ?_
      split
      next directive place =>
        exact Scans.bind (place.finishLine_scans.of_suffix hbody) fun line hline => .ok hline

/-! ## The tokenizer -/

namespace Tokenizer

/-- What is still to come. -/
def rest (t : Tokenizer) : List Char :=
  t.cursor.rest

theorem skipToToken_suffix (fuel : Nat) (t : Tokenizer) : (skipToToken fuel t).rest <:+ t.rest := by
  induction fuel generalizing t with
  | zero => exact List.suffix_rfl
  | succ fuel ih =>
    unfold skipToToken
    extract_lets c line
    have hline : line.rest <:+ t.rest := by
      unfold line
      split
      · exact (c.skipWhile_suffix _).trans (t.cursor.skipWhile_suffix _)
      · exact t.cursor.skipWhile_suffix _
    split
    · next x after hafter => exact (ih _).trans ((Cursor.lineEnd?_suffix hafter).trans hline)
    · exact hline

theorem dropStale_scans (t : Tokenizer) : Scans rest t.rest t.dropStale := by
  unfold dropStale
  split
  · exact .malformed
  · exact .ok List.suffix_rfl

theorem dropCandidate_scans (t : Tokenizer) : Scans rest t.rest t.dropCandidate := by
  unfold dropCandidate
  split
  · split
    · exact .malformed
    · exact .ok List.suffix_rfl
  · exact .ok List.suffix_rfl

theorem saveCandidate_scans (t : Tokenizer) : Scans rest t.rest t.saveCandidate := by
  unfold saveCandidate
  split
  · exact t.dropCandidate_scans.bind fun dropped hdropped => .ok hdropped
  · exact .ok List.suffix_rfl

theorem endBlocks_rest (isOver : Nat → Bool) (indents : List Nat) (t : Tokenizer) :
    (endBlocks isOver indents t).rest = t.rest := by
  induction indents generalizing t with
  | nil => rfl
  | cons column outer ih =>
    rw [endBlocks]
    split
    · exact ih _
    · rfl

theorem unwind_rest (t : Tokenizer) : t.unwind.rest = t.rest := by
  unfold unwind
  split
  · rfl
  · exact endBlocks_rest _ _ t

theorem unwindAll_rest (t : Tokenizer) : t.unwindAll.rest = t.rest := by
  unfold unwindAll
  split
  · rfl
  · exact endBlocks_rest _ _ t

theorem openBlock_rest (t : Tokenizer) (column position : Nat) (token : Token) :
    (t.openBlock column position token).rest = t.rest := by
  unfold openBlock
  split
  · rfl
  · rfl

/-- Ending all blocks takes nothing off the text. -/
theorem unwound_scans (t : Tokenizer) : Scans rest t.rest t.unwindAll.dropCandidate :=
  t.unwindAll_rest ▸ t.unwindAll.dropCandidate_scans

theorem take_suffix (t : Tokenizer) (length : Nat) (token : Token) :
    (t.take length token).rest <:+ t.rest :=
  t.cursor.advance_suffix length

theorem finish_scans (t : Tokenizer) : Scans rest t.rest t.finish :=
  t.unwound_scans.bind fun _ hended => .ok hended

theorem takeDirective_scans (t : Tokenizer) : Scans rest t.rest t.takeDirective :=
  t.unwound_scans.bind fun ended hended =>
    Scans.bind ((directiveToken_scans ended.cursor).of_suffix hended) fun _ hfound => .ok hfound

theorem takeSeparator_scans (t : Tokenizer) (token : Token) :
    Scans rest t.rest (t.takeSeparator token) :=
  t.unwound_scans.bind fun ended hended => .ok ((ended.take_suffix 3 token).trans hended)

theorem openFlow_scans (t : Tokenizer) (token : Token) : Scans rest t.rest (t.openFlow token) :=
  t.saveCandidate_scans.bind fun saved hsaved => .ok ((saved.take_suffix 1 token).trans hsaved)

theorem closeFlow_scans (t : Tokenizer) (token : Token) : Scans rest t.rest (t.closeFlow token) :=
  t.dropCandidate_scans.bind fun dropped hdropped => by
    split
    · exact .malformed
    · exact .ok ((dropped.take_suffix 1 token).trans hdropped)

theorem takeFlowEntry_scans (t : Tokenizer) : Scans rest t.rest t.takeFlowEntry :=
  t.dropCandidate_scans.bind fun dropped hdropped => .ok ((dropped.take_suffix 1 .flowEntry).trans hdropped)

/-- A mark that may open a block. -/
theorem takeMark_scans (t : Tokenizer) (column position : Nat) (opening token : Token)
    (keyAllowed : Tokenizer → Bool) :
    Scans rest t.rest (do
      let s ← (if t.inFlow then t else t.openBlock column position opening).dropCandidate
      .ok { s.take 1 token with keyAllowed := keyAllowed s }) := by
  have hopened : (if t.inFlow then t else t.openBlock column position opening).rest = t.rest := by
    split
    · rfl
    · exact t.openBlock_rest _ _ _
  refine Scans.bind (hopened ▸ dropCandidate_scans _) fun dropped hdropped => ?_
  exact .ok ((dropped.take_suffix 1 token).trans hdropped)

theorem takeBlockEntry_scans (t : Tokenizer) : Scans rest t.rest t.takeBlockEntry := by
  unfold takeBlockEntry
  extract_lets go
  split
  · exact .malformed
  · exact t.takeMark_scans _ _ _ _ fun _ => true

theorem takeKey_scans (t : Tokenizer) : Scans rest t.rest t.takeKey := by
  unfold takeKey
  extract_lets go
  split
  · exact .malformed
  · exact t.takeMark_scans _ _ _ _ fun s => !s.inFlow

theorem takeValue_scans (t : Tokenizer) : Scans rest t.rest t.takeValue := by
  unfold takeValue
  split
  · extract_lets kept marked opened
    refine .ok ((opened.take_suffix 1 .value).trans ?_)
    unfold opened
    split
    · exact List.suffix_rfl
    · rw [openBlock_rest]
      exact List.suffix_rfl
  · extract_lets go
    split
    · exact .malformed
    · exact t.takeMark_scans _ _ _ _ fun s => !s.inFlow

theorem takeWord_scans (t : Tokenizer) {read : Cursor → Except DocumentFault (Token × Cursor)}
    (hread : ∀ c, Scans (·.2.rest) c.rest (read c)) : Scans rest t.rest (t.takeWord read) :=
  t.saveCandidate_scans.bind fun saved hsaved =>
    Scans.bind ((hread saved.cursor).of_suffix hsaved) fun _ hfound => .ok hfound

theorem quotedToken_scans (c : Cursor) : Scans (·.2.rest) c.rest (quotedToken c) :=
  (quotedText_scans c).bind fun _ hfound => .ok hfound

theorem takeBlock_scans (t : Tokenizer) (folded : Bool) :
    Scans rest t.rest (t.takeBlock folded) :=
  t.dropCandidate_scans.bind fun dropped hdropped =>
    Scans.bind ((blockText_scans folded _ dropped.cursor.next).of_suffix
      (dropped.cursor.next_suffix.trans hdropped)) fun _ hfound => .ok hfound

theorem takePlain_scans (t : Tokenizer) : Scans rest t.rest t.takePlain :=
  t.saveCandidate_scans.bind fun saved hsaved =>
    .ok ((plainFrom_suffix _ _ _ _ _ _ saved.cursor).trans hsaved)

theorem takeToken_scans (t : Tokenizer) (x : Char) : Scans rest t.rest (t.takeToken x) := by
  have hname (f : String → Token) (c : Cursor) :
      Scans (·.2.rest) c.rest ((anchorName c.next).map fun found => (f found.1, found.2)) :=
    Ends.map (Scans.of_suffix (anchorName_scans c.next) c.next_suffix)
  unfold takeToken
  extract_lets gapFollows atLineStart
  refine .ite t.takeDirective_scans ?_
  refine .ite (t.takeSeparator_scans _) (.ite (t.takeSeparator_scans _) ?_)
  refine .ite (t.openFlow_scans _) (.ite (t.openFlow_scans _) ?_)
  refine .ite (t.closeFlow_scans _) (.ite (t.closeFlow_scans _) ?_)
  refine .ite t.takeFlowEntry_scans (.ite t.takeBlockEntry_scans ?_)
  refine .ite t.takeKey_scans (.ite t.takeValue_scans ?_)
  refine .ite (t.takeWord_scans (hname .alias)) (.ite (t.takeWord_scans (hname .anchor)) ?_)
  refine .ite (t.takeWord_scans tagToken_scans) ?_
  refine .ite (t.takeBlock_scans false) (.ite (t.takeBlock_scans true) ?_)
  exact .ite (t.takeWord_scans quotedToken_scans) (.ite t.takePlain_scans .malformed)

theorem step_scans (t : Tokenizer) : Scans rest t.rest t.step := by
  have hskip := skipToToken_suffix (t.cursor.rest.length + 1) t
  refine Scans.bind ((dropStale_scans _).of_suffix hskip) fun fresh hfresh => ?_
  extract_lets unwound
  have hunwound : unwound.rest <:+ t.rest := by
    rw [unwind_rest]
    exact hfresh
  split
  · exact unwound.finish_scans.of_suffix hunwound
  · exact (unwound.takeToken_scans _).of_suffix hunwound

/-- Whatever stops a run of the tokenizer stands in the text. -/
theorem run_halts (fuel : Nat) (t : Tokenizer) : ∀ e ∈ (t.run fuel).2, Halts t.rest e := by
  induction fuel generalizing t with
  | zero =>
    intro e he
    cases he
    exact .malformed
  | succ fuel ih =>
    intro e he
    rw [run] at he
    have hstep := t.step_scans
    split at he
    · next fault hfault =>
      cases he
      exact Ends.of_eq_error hstep hfault
    · next after hafter =>
      split at he
      · cases he
      · exact (ih after e he).of_suffix (Ends.of_eq_ok hstep hafter)

end Tokenizer

/-- What stops the tokenizer is malformed, or an escape in the text that names a code without a
character. -/
theorem tokensOf_halts (text : List Char) : ∀ e ∈ (tokensOf text).2, Halts text e := by
  intro e he
  refine (Tokenizer.run_halts _ _ e he).of_suffix ?_
  split
  · exact Cursor.next_suffix _
  · exact List.suffix_rfl

end Makewright.Yaml
