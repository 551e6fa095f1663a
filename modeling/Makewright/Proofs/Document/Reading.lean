import Makewright.Document.Basic
import Makewright.Proofs.Outcome
import Makewright.Proofs.Text
import Mathlib.Data.List.TakeDrop

/-!
# Readers of documents

A reader takes characters off the front of a text: what it leaves is an end of the text (`Reads`,
`Skips`). It may be stopped because the text does not follow its format, or else by a decimal number
with too many digits, which then stand in the text (`Stops`). A reader that is stopped behind the
start of a text is stopped in the text, so the rules follow the ways in which readers are put
together.
-/

set_option autoImplicit false

namespace Makewright.Document

variable {α β : Type} {s t : List Char} {count : Nat}

/-- Somewhere in the text stand so many digits, with nothing but underscores among them. -/
def HasDigits (count : Nat) (s : List Char) : Prop :=
  ∃ run, run <:+: s ∧ (∀ c ∈ run, isDigit c = true ∨ c = '_') ∧ count ≤ run.countP isDigit

/-- What a reader of the text may be stopped by. -/
inductive Stops (s : List Char) : DocumentFault → Prop
  | malformed : Stops s .malformed
  | digits {count : Nat} (hmany : Numeral.mostDigits < count) (h : HasDigits count s) :
    Stops s (.scalar (.tooManyDigits count))

theorem HasDigits.of_suffix (h : HasDigits count t) (hts : t <:+ s) : HasDigits count s := by
  obtain ⟨run, hrun, hdigits, hcount⟩ := h
  exact ⟨run, hrun.trans hts.isInfix, hdigits, hcount⟩

theorem Stops.of_suffix {e : DocumentFault} (h : Stops t e) (hts : t <:+ s) : Stops s e := by
  cases h with
  | malformed => exact .malformed
  | digits hmany h => exact .digits hmany (h.of_suffix hts)

/-- The reader leaves an end of the text behind its answer. -/
def Reads (s : List Char) (x : Except DocumentFault (α × List Char)) : Prop :=
  Ends (fun found => found.2 <:+ s) (Stops s) x

/-- The reader leaves an end of the text. -/
def Skips (s : List Char) (x : Except DocumentFault (List Char)) : Prop :=
  Ends (fun rest => rest <:+ s) (Stops s) x

namespace Reads

variable {x : Except DocumentFault (α × List Char)}

theorem malformed : Reads s (.error .malformed : Except DocumentFault (α × List Char)) :=
  Stops.malformed

theorem ok {a : α} {rest : List Char} (h : rest <:+ s) : Reads s (.ok (a, rest)) :=
  h

theorem of_suffix (h : Reads t x) (hts : t <:+ s) : Reads s x :=
  Ends.mono h (fun _ hrest => hrest.trans hts) fun _ he => he.of_suffix hts

theorem map (f : α → β) (h : Reads s x) : Reads s (x.map fun found => (f found.1, found.2)) :=
  Ends.map h

/-- One reader after another, which goes on from what the first one has left. -/
theorem bind {f : α × List Char → Except DocumentFault (β × List Char)} (h : Reads s x)
    (hf : ∀ a rest, rest <:+ s → Reads s (f (a, rest))) : Reads s (x >>= f) :=
  Ends.andThen h fun found hrest => hf found.1 found.2 hrest

end Reads

namespace Skips

variable {x : Except DocumentFault (List Char)}

theorem malformed : Skips s (.error .malformed) :=
  Stops.malformed

theorem ok {rest : List Char} (h : rest <:+ s) : Skips s (.ok rest) :=
  h

theorem of_suffix (h : Skips t x) (hts : t <:+ s) : Skips s x :=
  Ends.mono h (fun _ hrest => hrest.trans hts) fun _ he => he.of_suffix hts

/-- A reader that goes on from what is left behind something. -/
theorem bind {f : List Char → Except DocumentFault (β × List Char)} (h : Skips s x)
    (hf : ∀ rest, rest <:+ s → Reads s (f rest)) : Reads s (x >>= f) :=
  Ends.andThen h hf

end Skips

/-- The only fault is that the text does not follow the format. -/
def Fits (x : Except DocumentFault α) : Prop :=
  Ends (fun _ => True) (· = .malformed) x

/-- A reader that goes on behind something that takes nothing off the text. -/
theorem Fits.bind {x : Except DocumentFault α} {f : α → Except DocumentFault (β × List Char)}
    (h : Fits x) (hf : ∀ a, Reads s (f a)) : Reads s (x >>= f) :=
  Ends.bind (Ends.mono h (fun a _ => hf a) fun _ he => he ▸ .malformed)

theorem afterFront?_suffix {front rest : List Char} (h : Text.afterFront? front s = some rest) :
    rest <:+ s := by
  induction front generalizing s with
  | nil =>
    obtain rfl := Option.some.inj h
    exact List.suffix_rfl
  | cons f front ih =>
    cases s with
    | nil => cases h
    | cons c s =>
      rw [Text.afterFront?] at h
      split at h
      · exact (ih h).trans (List.suffix_cons c s)
      · cases h

theorem expect_skips (front s : List Char) : Skips s (expect front s) := by
  unfold expect
  cases h : Text.afterFront? front s with
  | none => exact .malformed
  | some rest => exact .ok (afterFront?_suffix h)

theorem hexNumber_fits (count : Nat) (s : List Char) : Fits (hexNumber count s) := by
  unfold hexNumber
  dsimp only
  split
  · split
    · exact trivial
    · exact rfl
  · exact rfl

/-- A number of hexadecimal digits is read off its digits alone. -/
theorem hexNumber_take {n : Nat} {rest : List Char} (h : hexNumber count s = .ok (n, rest)) :
    hexNumber count (s.take count) = .ok (n, []) := by
  unfold hexNumber at h ⊢
  dsimp only at h ⊢
  rw [List.take_take, Nat.min_self]
  split at h
  · next hdigits =>
    rw [if_pos hdigits]
    split at h
    · next hnumber =>
      cases h
      rw [List.drop_eq_nil_of_le (List.length_take_le count s)]
    · cases h
  · cases h

theorem lineFeed_notMem_of_hexNumber {n : Nat} (h : hexNumber count s = .ok (n, [])) :
    '\n' ∉ s := by
  intro hfeed
  unfold hexNumber at h
  dsimp only at h
  split at h
  · next hdigits =>
    split at h
    · rw [Except.ok.injEq, Prod.mk.injEq] at h
      have hall := (Bool.and_eq_true_iff.1 hdigits).2
      rw [List.take_of_length_le (List.drop_eq_nil_iff.1 h.2)] at hall
      exact absurd (List.all_eq_true.1 hall _ hfeed) (by decide)
    · cases h
  · cases h

theorem hexNumber_reads (count : Nat) (s : List Char) : Reads s (hexNumber count s) := by
  unfold hexNumber
  dsimp only
  split
  · split
    · exact .ok (List.drop_suffix count s)
    · exact .malformed
  · exact .malformed

theorem span_suffix (p : Char → Bool) (s : List Char) : (s.span p).2 <:+ s := by
  rw [List.span_eq_takeWhile_dropWhile]
  exact List.dropWhile_suffix p

/-! ## Decimal numbers -/

/-- No more digits are read than there are characters that are digits. -/
theorem count_le_of_digitsFrom {base value count n k : Nat} {afterDigit : Bool}
    (h : Numeral.digitsFrom base value count afterDigit s = some (n, k)) :
    k ≤ count + s.countP fun c => (Numeral.digit? c).isSome := by
  induction s generalizing value count afterDigit with
  | nil =>
    rw [Numeral.digitsFrom] at h
    split at h
    · cases h
      exact Nat.le_add_right _ _
    · cases h
  | cons c rest ih =>
    rw [Numeral.digitsFrom] at h
    rw [List.countP_cons]
    split at h
    · -- an underscore between digits counts for nothing
      split at h
      · have hrest := ih h
        omega
      · cases h
    · split at h
      · next d hd =>
        split at h
        · have hrest := ih h
          rw [hd, Option.isSome_some, if_pos rfl]
          omega
        · cases h
      · cases h

theorem dropMark_suffix (base : Nat) (s : List Char) : Numeral.dropMark base s <:+ s := by
  unfold Numeral.dropMark
  extract_lets mark
  split
  · split
    · exact (List.suffix_cons _ _).trans ((List.suffix_cons _ _).trans (List.suffix_cons _ _))
    · exact List.suffix_rfl
  · split
    · exact (List.suffix_cons _ _).trans (List.suffix_cons _ _)
    · exact List.suffix_rfl
  · exact List.suffix_rfl

theorem sign_suffix (s : List Char) : (Numeral.sign s).2 <:+ s := by
  unfold Numeral.sign
  split
  · exact List.suffix_cons _ _
  · exact List.suffix_cons _ _
  · exact List.suffix_rfl

/-- A whole number has no more digits than its text, if all digits in the text are decimal. -/
theorem count_le_of_integer? {base : Nat} {n : Int} (h : Numeral.integer? base s = some (n, count))
    (hs : ∀ c ∈ s, (Numeral.digit? c).isSome → isDigit c) : count ≤ s.countP isDigit := by
  unfold Numeral.integer? at h
  obtain ⟨⟨value, k⟩, hdigits, heq⟩ := Option.map_eq_some_iff.1 h
  cases heq
  have hsub : (Numeral.dropMark base (Numeral.sign (Text.stripList Text.isBlank s)).2).Sublist s :=
    ((dropMark_suffix base _).trans (sign_suffix _)).sublist.trans
      (Text.stripList_sublist Text.isBlank s)
  have hle := count_le_of_digitsFrom hdigits
  rw [Nat.zero_add] at hle
  exact hle.trans (hsub.countP_le.trans (List.countP_mono_left hs))

/-- A whole number is refused only for its digits. -/
theorem checkedInt_reads {n : Int} {rest : List Char} (hrest : rest <:+ s)
    (h : HasDigits count s) : Reads s ((checkedInt n count).map fun v => (v, rest)) := by
  unfold checkedInt
  split
  · next hmany => exact .digits hmany h
  · exact hrest

/-! ## Line ends -/

/-- A text is changed at the ends of its lines only, where something gives way to a line feed. -/
structure DropsReturns (f : List Char → List Char) : Prop where
  nil : f [] = []
  cons (c : Char) (rest : List Char) :
    (∃ after, after <:+ rest ∧ f (c :: rest) = '\n' :: f after) ∨ f (c :: rest) = c :: f rest

namespace DropsReturns

variable {f : List Char → List Char} {run : List Char}

theorem prefix_of_prefix (hf : DropsReturns f) (hrun : '\n' ∉ run) (h : run <+: f s) :
    run <+: s := by
  induction run generalizing s with
  | nil => exact List.nil_prefix
  | cons d run ih =>
    cases s with
    | nil => exact hf.nil ▸ h
    | cons c rest =>
      rcases hf.cons c rest with ⟨after, -, heq⟩ | heq
      · rw [heq, List.cons_prefix_cons] at h
        exact absurd (h.1 ▸ List.mem_cons_self) hrun
      · rw [heq, List.cons_prefix_cons] at h
        exact List.cons_prefix_cons.2 ⟨h.1, ih (fun hd => hrun (List.mem_cons_of_mem d hd)) h.2⟩

/-- What stands inside of a line stands there before the change as well. -/
theorem infix_of_infix (hf : DropsReturns f) (hrun : '\n' ∉ run) (h : run <:+: f s) :
    run <:+: s := by
  -- A line end may take several characters away, so the induction is over all ends of the text.
  suffices hends : ∀ t, t <:+ s → run <:+: f t → run <:+: t from hends s List.suffix_rfl h
  clear h
  induction s with
  | nil =>
    intro t hts h
    rw [List.suffix_nil.1 hts] at h ⊢
    exact hf.nil ▸ h
  | cons c rest ih =>
    intro t hts h
    rcases List.suffix_cons_iff.1 hts with rfl | hrest
    · rcases hf.cons c rest with ⟨after, hafter, heq⟩ | heq
      · rw [heq] at h
        rcases List.infix_cons_iff.1 h with hfront | hlater
        · exact (hf.prefix_of_prefix hrun (heq ▸ hfront)).isInfix
        · exact (ih after hafter hlater).trans (hafter.trans (List.suffix_cons c rest)).isInfix
      · rw [heq] at h
        rcases List.infix_cons_iff.1 h with hfront | hlater
        · exact (hf.prefix_of_prefix hrun (heq ▸ hfront)).isInfix
        · exact (ih rest List.suffix_rfl hlater).trans (List.suffix_cons c rest).isInfix
    · exact ih t hrest h

theorem stops (hf : DropsReturns f) {e : DocumentFault} (h : Stops (f s) e) : Stops s e := by
  cases h with
  | malformed => exact .malformed
  | digits hmany h =>
    obtain ⟨run, hinfix, hdigits, hcount⟩ := h
    refine .digits hmany ⟨run, hf.infix_of_infix ?_ hinfix, hdigits, hcount⟩
    intro hfeed
    rcases hdigits _ hfeed with hdigit | hunder
    · exact absurd hdigit (by decide)
    · exact absurd hunder (by decide)

end DropsReturns

theorem plainLineEnds_dropsReturns : DropsReturns plainLineEnds := by
  refine ⟨rfl, fun c rest => ?_⟩
  rw [plainLineEnds.eq_def]
  split
  · next after heq =>
    cases heq
    exact .inl ⟨after, List.suffix_cons _ _, rfl⟩
  · next after _ heq =>
    cases heq
    exact .inl ⟨_, List.suffix_rfl, rfl⟩
  · next heq =>
    cases heq
    exact .inr rfl
  · next heq => cases heq

end Makewright.Document
