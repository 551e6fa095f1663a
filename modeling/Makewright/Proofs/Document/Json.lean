import Makewright.Document.Json
import Makewright.Proofs.Document.Reading

/-!
# Reading JSON

Reading a JSON text is stopped only where the text does not follow the format, or by a number with
too many digits (`Json.read_stops`).
-/

set_option autoImplicit false

namespace Makewright.Json

open Makewright.Document

variable {s : List Char}

theorem skipSpace_suffix (s : List Char) : skipSpace s <:+ s :=
  List.dropWhile_suffix isSpace

theorem codeEscape_reads (s : List Char) : Reads s (codeEscape s) := by
  refine (hexNumber_reads 4 s).bind fun high rest hrest => ?_
  dsimp only
  split
  · split
    · next more hmore =>
      split
      · next low after hlow =>
        have hafter : after <:+ more := Ends.of_eq_ok (hexNumber_reads 4 more) hlow
        split
        · exact .ok (hafter.trans ((afterFront?_suffix hmore).trans hrest))
        · exact .ok hrest
      · exact .ok hrest
    · exact .ok hrest
  · exact .ok hrest

theorem stringBody_reads (fuel : Nat) (seen s : List Char) : Reads s (stringBody fuel seen s) := by
  -- every character uses up fuel, and what is left is an end of the text
  induction fuel generalizing seen s with
  | zero => exact .malformed
  | succ fuel ih =>
    cases s with
    | nil => exact .malformed
    | cons c rest =>
      have hcons : rest <:+ c :: rest := List.suffix_cons c rest
      rw [stringBody.eq_def]
      dsimp only
      split
      · -- the closing quote
        exact .ok hcons
      · split
        · exact .malformed
        · split
          · -- a backslash: a code, or one letter
            split
            · exact .malformed
            · next e after =>
              have hafter : after <:+ c :: e :: after := (List.suffix_cons e after).trans hcons
              split
              · refine Reads.bind ((codeEscape_reads after).of_suffix hafter) ?_
                exact fun decoded back hback => (ih _ back).of_suffix hback
              · split
                · exact (ih _ after).of_suffix hafter
                · exact .malformed
          · exact (ih _ rest).of_suffix hcons

theorem string_reads (s : List Char) : Reads s (string s) :=
  stringBody_reads _ _ s

/-- The whole part of a number consists of the digits that the text starts with. -/
theorem wholePart_eq_some {whole rest : List Char} (h : wholePart s = some (whole, rest)) :
    s = whole ++ rest ∧ ∀ c ∈ whole, isDigit c = true := by
  unfold wholePart at h
  split at h
  · cases h
    exact ⟨rfl, List.forall_mem_singleton.2 rfl⟩
  · split at h
    · rw [Option.some.injEq, List.span_eq_takeWhile_dropWhile, Prod.mk.injEq] at h
      obtain ⟨rfl, rfl⟩ := h
      exact ⟨List.takeWhile_append_dropWhile.symm, fun c hc => List.mem_takeWhile_imp hc⟩
    · cases h
  · cases h

theorem fractionPart_suffix (s : List Char) : (fractionPart s).2 <:+ s := by
  unfold fractionPart
  split
  · next rest =>
    dsimp only
    split
    · exact List.suffix_rfl
    · exact (span_suffix isDigit rest).trans (List.suffix_cons _ _)
  · exact List.suffix_rfl

theorem exponentPart_suffix (s : List Char) : (exponentPart s).2 <:+ s := by
  unfold exponentPart
  split
  · next e rest =>
    split
    · split
      next mark body hmark =>
        -- a sign may stand in front of the digits
        have hbody : body <:+ rest := by
          split at hmark
          · split at hmark
            · cases hmark
              exact List.suffix_cons _ _
            · cases hmark
              exact List.suffix_rfl
          · cases hmark
            exact List.suffix_rfl
        dsimp only
        split
        · exact List.suffix_rfl
        · exact (span_suffix isDigit body).trans (hbody.trans (List.suffix_cons e rest))
    · exact List.suffix_rfl
  · exact List.suffix_rfl

theorem number_reads (s : List Char) : Reads s (number s) := by
  unfold number
  split
  next minus body hminus =>
    -- a minus sign may stand in front of the digits, which are an end of the text
    have hbody : body <:+ s ∧ ∀ c ∈ minus, c = '-' := by
      split at hminus
      · cases hminus
        exact ⟨List.suffix_cons _ _, fun c hc => List.mem_singleton.1 hc⟩
      · cases hminus
        exact ⟨List.suffix_rfl, nofun⟩
    split
    · exact .malformed
    · next whole rest hwhole =>
      obtain ⟨hsplit, hdigits⟩ := wholePart_eq_some hwhole
      have hrest : (exponentPart (fractionPart rest).2).2 <:+ s :=
        (exponentPart_suffix _).trans ((fractionPart_suffix rest).trans
          ((hsplit ▸ List.suffix_append whole rest : rest <:+ body).trans hbody.1))
      dsimp only
      split
      · split
        · next n count hcount =>
          refine checkedInt_reads hrest ⟨whole, ?_, fun c hc => .inl (hdigits c hc), ?_⟩
          · exact (hsplit ▸ List.infix_append [] whole rest : whole <:+: body).trans hbody.1.isInfix
          · -- every digit in the text of the number is one of its own characters
            have hascii : ∀ c ∈ minus ++ whole, (Numeral.digit? c).isSome → isDigit c := by
              intro c hc hdigit
              rcases List.mem_append.1 hc with hc | hc
              · rw [hbody.2 c hc] at hdigit
                exact absurd hdigit (by decide)
              · exact hdigits c hc
            have hminus : minus.countP isDigit = 0 :=
              List.countP_eq_zero.2 fun c hc => by simp [hbody.2 c hc, isDigit]
            have hle := count_le_of_integer? hcount hascii
            rwa [List.countP_append, hminus, Nat.zero_add] at hle
        · exact .malformed
      · split
        · exact .ok hrest
        · exact .malformed

/-- A word that is found is taken off the text. -/
theorem word?_suffix {v : Value} {rest : List Char} (h : word? s = some (v, rest)) : rest <:+ s := by
  obtain ⟨entry, -, hentry⟩ := List.exists_of_findSome?_eq_some h
  obtain ⟨found, hfound, heq⟩ := Option.map_eq_some_iff.1 hentry
  cases heq
  exact afterFront?_suffix hfound

/-- All of the readers that call each other, with as much fuel. -/
structure AllRead (fuel : Nat) : Prop where
  value : ∀ s, Reads s (value fuel s)
  items : ∀ seen s, Reads s (items fuel seen s)
  members : ∀ seen s, Reads s (members fuel seen s)

theorem allRead (fuel : Nat) : AllRead fuel := by
  induction fuel with
  | zero => exact ⟨fun _ => .malformed, fun _ _ => .malformed, fun _ _ => .malformed⟩
  | succ fuel ih =>
    constructor
    case value =>
      intro s
      rw [value.eq_def]
      dsimp only
      split
      · exact ((string_reads _).map Value.string).of_suffix (List.suffix_cons _ _)
      · -- a map
        next rest =>
        have hskip := (skipSpace_suffix rest).trans (List.suffix_cons '\x7b' rest)
        split
        · next after hafter => exact .ok ((List.suffix_cons _ _).trans (hafter ▸ hskip))
        · exact (ih.members [] _).of_suffix hskip
      · -- a list
        next rest =>
        have hskip := (skipSpace_suffix rest).trans (List.suffix_cons '[' rest)
        split
        · next after hafter => exact .ok ((List.suffix_cons _ _).trans (hafter ▸ hskip))
        · exact (ih.items [] _).of_suffix hskip
      · split
        · next found hfound => exact .ok (word?_suffix hfound)
        · exact number_reads s
    case items =>
      intro seen s
      rw [items]
      refine (ih.value s).bind fun item rest hrest => ?_
      have hskip := (skipSpace_suffix rest).trans hrest
      dsimp only
      split
      · next after hafter =>
        rw [hafter] at hskip
        exact (ih.items _ _).of_suffix ((skipSpace_suffix after).trans
          ((List.suffix_cons _ _).trans hskip))
      · next after hafter =>
        rw [hafter] at hskip
        exact .ok ((List.suffix_cons _ _).trans hskip)
      · exact .malformed
    case members =>
      intro seen s
      rw [members]
      refine (expect_skips ['"'] s).bind fun opened hopened => ?_
      refine Reads.bind ((string_reads opened).of_suffix hopened) fun key behind hbehind => ?_
      have hcolon := (expect_skips [':'] _).of_suffix ((skipSpace_suffix behind).trans hbehind)
      refine hcolon.bind fun rest hrest => ?_
      have hitem := (ih.value _).of_suffix ((skipSpace_suffix rest).trans hrest)
      refine hitem.bind fun item rest hrest => ?_
      have hskip := (skipSpace_suffix rest).trans hrest
      dsimp only
      split
      · next after hafter =>
        rw [hafter] at hskip
        exact (ih.members _ _).of_suffix ((skipSpace_suffix after).trans
          ((List.suffix_cons _ _).trans hskip))
      · next after hafter =>
        rw [hafter] at hskip
        exact .ok ((List.suffix_cons _ _).trans hskip)
      · exact .malformed

/-- Reading a JSON text is stopped only where it does not follow the format, or by a number in it
with too many digits. -/
theorem read_stops {text : List Char} {e : DocumentFault} (h : read text = .error e) :
    Stops text e := by
  rcases eq_error_of_bind h with hvalue | ⟨found, -, hrest⟩
  · exact Ends.of_eq_error (((allRead _).value _).of_suffix (skipSpace_suffix text)) hvalue
  · dsimp only at hrest
    split at hrest
    · cases hrest
    · cases hrest
      exact .malformed

end Makewright.Json
