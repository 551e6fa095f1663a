import Makewright.Document.Yaml.ScalarText
import Makewright.Proofs.Document.Reading

/-!
# Going through a YAML text

Whatever takes something off a YAML text leaves an end of it, and is stopped only because the text
does not follow the format, by a run of too many digits, or by an escape that names a code without a
character (`Scans`, `Halts`). An escape stands in a quoted scalar, so a fault of this last kind first
appears there (`quotedText_scans`).
-/

set_option autoImplicit false

namespace Makewright.Yaml

open Makewright.Document

variable {α β : Type} {s t : List Char}

/-- Somewhere in the text stands an escape that names a character by this code. -/
def HasEscape (code : Nat) (s : List Char) : Prop :=
  ∃ mark count digits, '\\' :: mark :: digits <:+: s ∧ codeLength? mark = some count ∧
    hexNumber count digits = .ok (code, [])

/-- What going through the text may be stopped by. -/
inductive Halts (s : List Char) : DocumentFault → Prop
  | stops {e : DocumentFault} (h : Stops s e) : Halts s e
  | escape {code : Nat} {e : DocumentFault} (h : HasEscape code s) (he : charsOf code = .error e) :
    Halts s e

theorem Halts.malformed : Halts s .malformed :=
  .stops .malformed

theorem Halts.of_suffix {e : DocumentFault} (h : Halts t e) (hts : t <:+ s) : Halts s e := by
  cases h with
  | stops h => exact .stops (h.of_suffix hts)
  | escape h he =>
    obtain ⟨mark, count, digits, hinfix, hcount, hcode⟩ := h
    exact .escape ⟨mark, count, digits, hinfix.trans hts.isInfix, hcount, hcode⟩ he

/-- No line ends inside an escape, so it stands in the text with its own line ends as well. -/
theorem Halts.of_plainLineEnds {e : DocumentFault} (h : Halts (plainLineEnds s) e) :
    Halts s e := by
  cases h with
  | stops h => exact .stops (plainLineEnds_dropsReturns.stops h)
  | escape h he =>
    obtain ⟨mark, count, digits, hinfix, hcount, hcode⟩ := h
    refine .escape ⟨mark, count, digits, ?_, hcount, hcode⟩ he
    refine plainLineEnds_dropsReturns.infix_of_infix ?_ hinfix
    rintro (_ | ⟨_, _ | ⟨_, hfeed⟩⟩)
    · cases hcount
    · exact lineFeed_notMem_of_hexNumber hcode hfeed

/-- What the outcome leaves of the text is an end of it. -/
def Scans (left : α → List Char) (s : List Char) (x : Except DocumentFault α) : Prop :=
  Ends (fun a => left a <:+ s) (Halts s) x

namespace Scans

variable {left : α → List Char} {leftAfter : β → List Char} {x : Except DocumentFault α}

theorem malformed : Scans left s (.error .malformed : Except DocumentFault α) :=
  Halts.malformed

theorem ok {a : α} (h : left a <:+ s) : Scans left s (.ok a) :=
  h

theorem of_suffix (h : Scans left t x) (hts : t <:+ s) : Scans left s x :=
  Ends.mono h (fun _ ha => ha.trans hts) fun _ he => he.of_suffix hts

theorem ite {p : Prop} [Decidable p] {y : Except DocumentFault α} (hx : Scans left s x)
    (hy : Scans left s y) : Scans left s (if p then x else y) := by
  split
  · exact hx
  · exact hy

/-- One step after another, which goes on from what the first one has left. -/
theorem bind {f : α → Except DocumentFault β} (h : Scans left s x)
    (hf : ∀ a, left a <:+ s → Scans leftAfter s (f a)) : Scans leftAfter s (x >>= f) :=
  Ends.andThen h hf

/-- A step behind something that takes nothing off the text. -/
theorem of_fits {f : α → Except DocumentFault β} (h : Fits x)
    (hf : ∀ a, Scans leftAfter s (f a)) : Scans leftAfter s (x >>= f) :=
  Ends.bind (Ends.mono h (fun a _ => hf a) fun _ he => he ▸ .malformed)

end Scans

/-! ## Places -/

namespace Cursor

variable {c after : Cursor} {x : Char}

theorem next_rest (c : Cursor) : c.next.rest = c.rest.tail := by
  obtain ⟨rest, index, line, column⟩ := c
  cases rest with
  | nil => rfl
  | cons y rest =>
    unfold next
    dsimp only
    split
    · rfl
    · split
      · rfl
      · rfl

theorem rest_eq_of_peek (h : c.peek = some x) : c.rest = x :: c.next.rest := by
  rw [next_rest]
  exact List.eq_cons_of_mem_head? h

theorem next_suffix (c : Cursor) : c.next.rest <:+ c.rest := by
  rw [next_rest]
  exact List.tail_suffix c.rest

theorem advance_suffix (c : Cursor) (n : Nat) : (c.advance n).rest <:+ c.rest := by
  induction n generalizing c with
  | zero => exact List.suffix_rfl
  | succ n ih => exact (ih c.next).trans c.next_suffix

theorem takeWhile_suffix (c : Cursor) (p : Char → Bool) : (c.takeWhile p).2.rest <:+ c.rest :=
  c.advance_suffix _

theorem skipWhile_suffix (c : Cursor) (p : Char → Bool) : (c.skipWhile p).rest <:+ c.rest :=
  c.advance_suffix _

theorem lineEnd?_suffix (h : c.lineEnd? = some (x, after)) : after.rest <:+ c.rest := by
  unfold lineEnd? at h
  split at h
  · split at h
    · cases h
      exact c.next_suffix
    · cases h
  · cases h

theorem finishLine_scans (c : Cursor) : Scans Cursor.rest c.rest c.finishLine := by
  unfold finishLine
  extract_lets start line
  have hline : line.rest <:+ c.rest := by
    unfold line
    split
    · exact (start.skipWhile_suffix _).trans (c.skipWhile_suffix _)
    · exact c.skipWhile_suffix _
  split
  · cases h : line.lineEnd? with
    | none => exact .ok hline
    | some found => exact .ok ((lineEnd?_suffix h).trans hline)
  · exact .malformed

end Cursor

/-! ## Plain scalars -/

theorem emptyLines_suffix (fuel : Nat) (seen : List Char) (c : Cursor) :
    (emptyLines fuel seen c).2.rest <:+ c.rest := by
  induction fuel generalizing seen c with
  | zero => exact List.suffix_rfl
  | succ fuel ih =>
    rw [emptyLines]
    split
    · exact (ih seen c.next).trans c.next_suffix
    · split
      · exact List.suffix_rfl
      · next x after hline =>
        split
        · exact Cursor.lineEnd?_suffix hline
        · exact (ih _ after).trans (Cursor.lineEnd?_suffix hline)

theorem plainGap_suffix (c : Cursor) : (plainGap c).2.1.rest <:+ c.rest := by
  have hblanks := c.takeWhile_suffix (· == ' ')
  unfold plainGap
  dsimp only
  split
  · exact hblanks
  · next first after hline =>
    have hafter := (Cursor.lineEnd?_suffix hline).trans hblanks
    split
    · exact hafter
    · have hlines := (emptyLines_suffix (after.rest.length + 1) [] after).trans hafter
      split
      · next hfound =>
        rw [hfound] at hlines
        exact hlines
      · next hfound =>
        rw [hfound] at hlines
        exact hlines

theorem plainFrom_suffix (inFlow : Bool) (indent fuel : Nat) (seen gap : List Char) (ended : Bool)
    (c : Cursor) : (plainFrom inFlow indent fuel seen gap ended c).cursor.rest <:+ c.rest := by
  induction fuel generalizing seen gap ended c with
  | zero => exact List.suffix_rfl
  | succ fuel ih =>
    rw [plainFrom]
    generalize (if c.peek = some '#' then 0 else plainRun inFlow c.rest) = run
    dsimp only
    split
    · exact List.suffix_rfl
    · have hgap (n : Nat) : (plainGap (c.advance n)).2.1.rest <:+ c.rest :=
        (plainGap_suffix _).trans (c.advance_suffix n)
      split
      · exact hgap _
      · exact (ih _ _ _ _).trans (hgap _)

/-! ## Quoted scalars -/

theorem quotedLines_scans (fuel : Nat) (seen : List Char) (c : Cursor) :
    Scans (·.2.rest) c.rest (quotedLines fuel seen c) := by
  induction fuel generalizing seen c with
  | zero => exact .malformed
  | succ fuel ih =>
    rw [quotedLines]
    dsimp only
    split
    · exact .malformed
    · have hskip := c.skipWhile_suffix isSpace
      split
      · next x after hline => exact (ih _ after).of_suffix ((Cursor.lineEnd?_suffix hline).trans hskip)
      · exact .ok hskip

theorem quotedGap_scans (c : Cursor) : Scans (·.2.rest) c.rest (quotedGap c) := by
  have hblanks := c.takeWhile_suffix isSpace
  unfold quotedGap
  dsimp only
  split
  · next first after hline =>
    have hafter := (Cursor.lineEnd?_suffix hline).trans hblanks
    exact Scans.bind ((quotedLines_scans _ [] after).of_suffix hafter) fun found hfound =>
      .ok hfound
  · split
    · exact .malformed
    · exact .ok hblanks

/-- An escape is refused for its code only, and then it stands in the text. -/
theorem quotedEscape_scans {c : Cursor} (hc : '\\' :: c.rest <:+ s) :
    Scans (·.2.rest) s (quotedEscape c) := by
  have hrest : c.rest <:+ s := (List.suffix_cons _ _).trans hc
  have hnext : c.next.rest <:+ s := c.next_suffix.trans hrest
  unfold quotedEscape
  split
  · exact .malformed
  · next mark hmark =>
    split
    · exact .ok hnext
    · next count _ hcount =>
      cases hcode : hexNumber count c.next.rest with
      | error e =>
        rw [Ends.of_eq_error (hexNumber_fits count _) hcode]
        exact .malformed
      | ok found =>
        obtain ⟨code, rest⟩ := found
        -- the error says which escape it was, and the escape stands in the text
        have hchars : Scans (fun _ => []) s (charsOf code) := by
          cases hdecoded : charsOf code with
          | ok decoded => exact .ok List.nil_suffix
          | error e =>
            refine .escape ⟨mark, count, _, ?_, hcount, hexNumber_take hcode⟩ hdecoded
            rw [Cursor.rest_eq_of_peek hmark] at hc
            exact (List.prefix_append_right_inj ['\\', mark]).2 (List.take_prefix _ _)
              |>.isInfix.trans hc.isInfix
        change Scans _ s (charsOf code >>= fun decoded => .ok (decoded, c.next.advance count))
        exact hchars.bind fun decoded _ => .ok ((c.next.advance_suffix count).trans hnext)
    · -- a line end that is escaped
      split
      · next x after hline =>
        exact (quotedLines_scans _ [] after).of_suffix ((Cursor.lineEnd?_suffix hline).trans hrest)
      · exact .malformed

theorem quotedFrom_scans (quote : Char) (fuel : Nat) (seen : List Char) (c : Cursor) :
    Scans (·.2.rest) c.rest (quotedFrom quote fuel seen c) := by
  induction fuel generalizing seen c with
  | zero => exact .malformed
  | succ fuel ih =>
    rw [quotedFrom]
    split
    · exact .malformed
    · next x hx =>
      split
      · -- a quote, which closes the text unless it is a single one that is doubled
        split
        · exact (ih _ _).of_suffix (c.advance_suffix 2)
        · exact .ok c.next_suffix
      · split
        · -- an escape between double quotes
          next hescape =>
          have hslash : x = '\\' := of_decide_eq_true (Bool.and_eq_true_iff.1 hescape).1
          have hrest := Cursor.rest_eq_of_peek (hslash ▸ hx)
          refine Scans.bind (quotedEscape_scans ⟨[], hrest.symm⟩) fun found hfound => ?_
          exact (ih _ found.2).of_suffix hfound
        · split
          · -- blanks and line ends
            refine (quotedGap_scans c).bind fun found hfound => ?_
            exact (ih _ found.2).of_suffix hfound
          · exact (ih _ c.next).of_suffix c.next_suffix

theorem quotedText_scans (c : Cursor) : Scans (·.2.rest) c.rest (quotedText c) := by
  unfold quotedText
  split
  · exact (quotedFrom_scans _ _ [] c.next).of_suffix c.next_suffix
  · exact .malformed

/-! ## Blocks -/

theorem chomping?_suffix {c after : Cursor} {chomping : Chomping}
    (h : chomping? c = some (chomping, after)) : after.rest <:+ c.rest := by
  unfold chomping? at h
  split at h
  · cases h
    exact c.next_suffix
  · cases h
    exact c.next_suffix
  · cases h

theorem increment?_scans (c : Cursor) : Scans (·.2.rest) c.rest (increment? c) := by
  unfold increment?
  split
  · split
    · exact .malformed
    · split
      · exact .ok c.next_suffix
      · exact .ok List.suffix_rfl
  · exact .ok List.suffix_rfl

theorem blockMarks_scans (c : Cursor) : Scans (·.2.2.rest) c.rest (blockMarks c) := by
  have hend (chomping : Chomping) (increment : Option Nat) {after : Cursor}
      (hafter : after.rest <:+ c.rest) : Scans (·.2.2.rest) c.rest
        (if isPlainGap after.peek then .ok (chomping, increment, after)
          else .error DocumentFault.malformed) := by
    split
    · exact .ok hafter
    · exact .malformed
  unfold blockMarks
  dsimp only
  split
  · next chomping after hchomping =>
    have hafter := chomping?_suffix hchomping
    exact Scans.bind ((increment?_scans after).of_suffix hafter) fun found hfound => hend _ _ hfound
  · refine (increment?_scans c).bind fun found hfound => ?_
    split
    · next chomping after _ hchomping =>
      exact hend _ _ ((chomping?_suffix hchomping).trans hfound)
    · exact hend _ _ hfound

theorem blockStart_suffix (fuel : Nat) (seen : List Char) (widest : Nat) (c : Cursor) :
    (blockStart fuel seen widest c).2.2.rest <:+ c.rest := by
  induction fuel generalizing seen widest c with
  | zero => exact List.suffix_rfl
  | succ fuel ih =>
    rw [blockStart]
    split
    · next x after hline => exact (ih _ _ after).trans (Cursor.lineEnd?_suffix hline)
    · split
      · exact (ih _ _ c.next).trans c.next_suffix
      · exact List.suffix_rfl

theorem blockLines_suffix (indent fuel : Nat) (seen : List Char) (c : Cursor) :
    (blockLines indent fuel seen c).2.rest <:+ c.rest := by
  induction fuel generalizing seen c with
  | zero => exact List.suffix_rfl
  | succ fuel ih =>
    have hskip : (c.skipSpacesTo indent).rest <:+ c.rest := c.advance_suffix _
    rw [blockLines]
    split
    · next x after hline => exact (ih _ after).trans ((Cursor.lineEnd?_suffix hline).trans hskip)
    · exact hskip

theorem blockFrom_suffix (folded : Bool) (indent fuel : Nat) (seen breaks : List Char) (c : Cursor) :
    (blockFrom folded indent fuel seen breaks c).cursor.rest <:+ c.rest := by
  induction fuel generalizing seen breaks c with
  | zero => exact List.suffix_rfl
  | succ fuel ih =>
    -- one line, its end, and the empty lines behind it
    have hline := c.takeWhile_suffix (!isLineEnd ·)
    rw [blockFrom]
    split
    next line after hfound =>
      rw [hfound] at hline
      extract_lets text
      split
      next ending behind hending =>
        have hbehind : behind.rest <:+ c.rest := by
          split at hending
          · next x place hplace =>
            cases hending
            exact (Cursor.lineEnd?_suffix hplace).trans hline
          · cases hending
            exact hline
        have hlines := (blockLines_suffix indent (behind.rest.length + 1) [] behind).trans hbehind
        split
        next further place hfound =>
          rw [hfound] at hlines
          extract_lets joint
          split
          · exact (ih _ _ place).trans hlines
          · exact hlines

theorem blockText_scans (folded : Bool) (least : Nat) (c : Cursor) :
    Scans (·.2.rest) c.rest (blockText folded least c) := by
  refine (blockMarks_scans c).bind fun marks hmarks => ?_
  refine Scans.bind (marks.2.2.finishLine_scans.of_suffix hmarks) fun line hline => ?_
  split
  next breaks indent start hstart =>
    have hblock : start.rest <:+ c.rest := by
      split at hstart
      · obtain ⟨-, -, rfl⟩ := by simpa only [Prod.mk.injEq] using hstart
        exact (blockStart_suffix _ [] 0 line).trans hline
      · obtain ⟨-, -, rfl⟩ := by simpa only [Prod.mk.injEq] using hstart
        exact (blockLines_suffix _ _ [] line).trans hline
    extract_lets block text
    refine .ok ?_
    unfold block
    split
    · exact (blockFrom_suffix _ _ _ _ _ start).trans hblock
    · exact hblock

end Makewright.Yaml
