import Makewright.Document.Toml
import Makewright.Proofs.Document.Reading

/-!
# Reading TOML

Reading a TOML text is stopped only where the text does not follow the format, or by a number with
too many digits (`Toml.read_stops`). A date that the calendar does not have does not follow the
format either.
-/

set_option autoImplicit false

namespace Makewright.Toml

open Makewright.Document

variable {α : Type} {s rest : List Char}

/-! ## Characters and strings -/

theorem skipBlanks_suffix (s : List Char) : skipBlanks s <:+ s :=
  List.dropWhile_suffix isBlank

theorem skipComment_skips (s : List Char) : Skips s (skipComment s) := by
  unfold skipComment
  split
  · next rest =>
    split
    next text after hspan =>
      split
      · exact .malformed
      · have hafter := span_suffix (· != '\n') rest
        rw [hspan] at hafter
        exact .ok (hafter.trans (List.suffix_cons _ _))
  · exact .ok List.suffix_rfl

theorem skipLines_skips (fuel : Nat) (s : List Char) : Skips s (skipLines fuel s) := by
  induction fuel generalizing s with
  | zero => exact .ok List.suffix_rfl
  | succ fuel ih =>
    rw [skipLines]
    have hcomment := (skipComment_skips (s.dropWhile isBlankOrLineEnd)).of_suffix
      (List.dropWhile_suffix _)
    refine Ends.andThen hcomment fun after hafter => ?_
    split
    · exact Skips.ok List.suffix_rfl
    · exact (ih after).of_suffix hafter

theorem codeEscape_reads (count : Nat) (s : List Char) : Reads s (codeEscape count s) := by
  refine (hexNumber_reads count s).bind fun n rest hrest => ?_
  dsimp only
  split
  · exact .ok hrest
  · exact .malformed

theorem escape_reads (several : Bool) (s : List Char) : Reads s (escape several s) := by
  unfold escape
  split
  · exact .malformed
  · next c rest =>
    have hcons : rest <:+ c :: rest := List.suffix_cons c rest
    split
    · exact .ok ((List.dropWhile_suffix _).trans hcons)
    · split
      · -- blanks behind the backslash have to be the end of the line
        have hskip := (skipBlanks_suffix rest).trans hcons
        split
        · exact .ok (List.nil_suffix)
        · next after hafter =>
          rw [hafter] at hskip
          exact .ok ((List.dropWhile_suffix _).trans ((List.suffix_cons _ _).trans hskip))
        · exact .malformed
      · split
        · -- a character by its code
          exact (codeEscape_reads 4 rest).of_suffix hcons
        · split
          · exact (codeEscape_reads 8 rest).of_suffix hcons
          · split
            · exact .ok hcons
            · exact .malformed

theorem basicBody_reads (several : Bool) (fuel : Nat) (seen s : List Char) :
    Reads s (basicBody several fuel seen s) := by
  induction fuel generalizing seen s with
  | zero => exact .malformed
  | succ fuel ih =>
    cases s with
    | nil => exact .malformed
    | cons c rest =>
      have hcons : rest <:+ c :: rest := List.suffix_cons c rest
      rw [basicBody.eq_def]
      dsimp only
      split
      · -- a quote: in a string of several lines it takes three to close the string
        split
        · split
          · exact .ok ((List.suffix_cons _ _).trans ((List.suffix_cons _ _).trans hcons))
          · exact (ih _ _).of_suffix hcons
        · exact .ok hcons
      · split
        · -- an escape
          refine Reads.bind ((escape_reads several rest).of_suffix hcons) ?_
          exact fun decoded after hafter => (ih _ after).of_suffix hafter
        · split
          · exact .malformed
          · exact (ih _ _).of_suffix hcons

theorem basicString_reads (s : List Char) : Reads s (basicString s) :=
  (basicBody_reads false _ [] s).map String.ofList

theorem literalString_reads (s : List Char) : Reads s (literalString s) := by
  unfold literalString
  split
  next text after hspan =>
    have hafter := span_suffix (· != '\'') s
    rw [hspan] at hafter
    split
    · split
      · exact .malformed
      · exact .ok ((List.suffix_cons _ _).trans hafter)
    · exact .malformed

theorem closingQuotes_suffix (quote : Char) (chars rest : List Char) :
    (closingQuotes quote chars rest).2 <:+ rest := by
  unfold closingQuotes
  split
  · split
    · exact (List.suffix_cons _ _).trans (List.suffix_cons _ _)
    · split
      · exact List.suffix_cons _ _
      · exact List.suffix_rfl
  · split
    · exact List.nil_suffix
    · exact List.suffix_rfl
  · exact List.suffix_rfl

theorem dropFirstLineEnd_suffix (s : List Char) : dropFirstLineEnd s <:+ s := by
  unfold dropFirstLineEnd
  split
  · exact List.suffix_cons _ _
  · exact List.suffix_rfl

theorem multilineString_reads (literal : Bool) (s : List Char) :
    Reads s (multilineString literal s) := by
  have hbody := dropFirstLineEnd_suffix s
  unfold multilineString
  dsimp only
  split
  · split
    · split
      · exact .malformed
      · exact Ends.ok_iff.2 ((closingQuotes_suffix _ _ _).trans ((List.drop_suffix _ _).trans hbody))
    · exact .malformed
  · refine Reads.bind ((basicBody_reads true _ [] _).of_suffix hbody) fun chars rest hrest => ?_
    exact Ends.ok_iff.2 ((closingQuotes_suffix _ _ _).trans hrest)

/-! ## Keys -/

theorem keyPart_reads (s : List Char) : Reads s (keyPart s) := by
  unfold keyPart
  split
  · exact (basicString_reads _).of_suffix (List.suffix_cons _ _)
  · exact (literalString_reads _).of_suffix (List.suffix_cons _ _)
  · split
    next bare rest hspan =>
      have hrest := span_suffix isBareKey s
      rw [hspan] at hrest
      split
      · exact .malformed
      · exact .ok hrest

theorem keyParts_reads (fuel : Nat) (seen : Key) (s : List Char) :
    Reads s (keyParts fuel seen s) := by
  induction fuel generalizing seen s with
  | zero => exact .malformed
  | succ fuel ih =>
    rw [keyParts.eq_def]
    have hskip := skipBlanks_suffix s
    dsimp only
    split
    · next rest hrest =>
      rw [hrest] at hskip
      have hpart := (keyPart_reads _).of_suffix ((skipBlanks_suffix rest).trans
        ((List.suffix_cons _ _).trans hskip))
      exact hpart.bind fun part after hafter => (ih _ after).of_suffix hafter
    · exact .ok hskip

theorem key_reads (s : List Char) : Reads s (key s) :=
  (keyPart_reads s).bind fun part rest hrest => (keyParts_reads _ [part] rest).of_suffix hrest

/-! ## Numbers and times -/

/-- Whatever is found, an end of the text is left behind it. -/
def Leaves (s : List Char) (x : Option (α × List Char)) : Prop :=
  ∀ a rest, x = some (a, rest) → rest <:+ s

theorem Leaves.of_suffix {t : List Char} {x : Option (α × List Char)} (h : Leaves t x)
    (hts : t <:+ s) : Leaves s x :=
  fun a rest hx => (h a rest hx).trans hts

theorem fixedDigits_leaves (count : Nat) (s : List Char) : Leaves s (fixedDigits count s) := by
  intro n rest h
  unfold fixedDigits at h
  dsimp only at h
  split at h
  · obtain ⟨found, -, heq⟩ := Option.map_eq_some_iff.1 h
    cases heq
    exact List.drop_suffix count s
  · cases h

theorem field_leaves (mark : List Char) (count least greatest : Nat) (s : List Char) :
    Leaves s (field mark count least greatest s) := by
  intro n rest h
  obtain ⟨body, hbody, h⟩ := Option.bind_eq_some_iff.1 h
  obtain ⟨⟨m, after⟩, hafter, h⟩ := Option.bind_eq_some_iff.1 h
  dsimp only at h
  split at h
  · cases h
    exact (fixedDigits_leaves count body _ _ hafter).trans (afterFront?_suffix hbody)
  · cases h

theorem microseconds_suffix (s : List Char) : (microseconds s).2 <:+ s := by
  unfold microseconds
  split
  · next rest =>
    split
    next digits after hspan =>
      have hafter := span_suffix isDigit rest
      rw [hspan] at hafter
      split
      · exact List.suffix_rfl
      · exact hafter.trans (List.suffix_cons _ _)
  · exact List.suffix_rfl

theorem clockTime?_leaves (s : List Char) : Leaves s (clockTime? s) := by
  intro time rest h
  obtain ⟨⟨hour, afterHour⟩, hhour, h⟩ := Option.bind_eq_some_iff.1 h
  obtain ⟨⟨minute, afterMinute⟩, hminute, h⟩ := Option.bind_eq_some_iff.1 h
  obtain ⟨⟨second, afterSecond⟩, hsecond, h⟩ := Option.bind_eq_some_iff.1 h
  cases h
  exact (microseconds_suffix afterSecond).trans ((field_leaves _ _ _ _ _ _ _ hsecond).trans
    ((field_leaves _ _ _ _ _ _ _ hminute).trans (field_leaves _ _ _ _ _ _ _ hhour)))

theorem offset?_suffix (s : List Char) : (offset? s).2 <:+ s := by
  unfold offset?
  split
  · exact List.suffix_rfl
  · next c rest =>
    split
    · exact List.suffix_cons _ _
    · split
      · dsimp only
        split
        · next minutes after hfound =>
          obtain ⟨⟨hour, afterHour⟩, hhour, h⟩ := Option.bind_eq_some_iff.1 hfound
          obtain ⟨⟨minute, afterMinute⟩, hminute, h⟩ := Option.bind_eq_some_iff.1 h
          cases h
          exact (field_leaves _ _ _ _ _ _ _ hminute).trans
            ((field_leaves _ _ _ _ _ _ _ hhour).trans (List.suffix_cons _ _))
        · exact List.suffix_rfl
      · exact List.suffix_rfl

/-- A date that the calendar does not have makes the text malformed. -/
theorem date_reads (year month day : Nat) {f : Date → Value} (hrest : rest <:+ s) :
    Reads s (Except.map (fun date => (f date, rest))
      (match Date.make? year month day with
        | .ok date => .ok date
        | .error _ => .error .malformed)) := by
  cases Date.make? year month day with
  | ok date => exact .ok hrest
  | error => exact .malformed

theorem dateOrMoment?_reads {x : Except DocumentFault (Value × List Char)}
    (h : dateOrMoment? s = some x) : Reads s x := by
  obtain ⟨⟨year, afterYear⟩, hyear, h⟩ := Option.bind_eq_some_iff.1 h
  obtain ⟨⟨month, afterMonth⟩, hmonth, h⟩ := Option.bind_eq_some_iff.1 h
  obtain ⟨⟨day, afterDay⟩, hday, h⟩ := Option.bind_eq_some_iff.1 h
  have hafter : afterDay <:+ s := (field_leaves _ _ _ _ _ _ _ hday).trans
    ((field_leaves _ _ _ _ _ _ _ hmonth).trans (field_leaves _ _ _ _ _ _ _ hyear))
  dsimp only at h
  split at h
  · next time behind htime =>
    cases h
    have hbehind : behind <:+ afterDay := by
      split at htime
      · split at htime
        · exact (clockTime?_leaves _ _ _ htime).trans (List.suffix_cons _ _)
        · cases htime
      · cases htime
    exact date_reads year month day ((offset?_suffix behind).trans (hbehind.trans hafter))
  · cases h
    exact date_reads year month day hafter

/-- A run of digits starts the text, with single underscores among the digits. -/
theorem exists_run_of_more {p : Char → Bool} (hp : p '_' = false) (seen s : List Char) :
    ∃ run, (digitRun.more p seen s).1 = seen.reverse ++ run.filter p ∧
      s = run ++ (digitRun.more p seen s).2 ∧ ∀ c ∈ run, p c = true ∨ c = '_' := by
  fun_induction digitRun.more p seen s with
  | case1 seen c rest hc ih =>
    -- an underscore in front of another digit, which is left out of what is found
    obtain ⟨run, hfound, hsplit, hrun⟩ := ih
    refine ⟨'_' :: c :: run, ?_, congrArg ('_' :: c :: ·) hsplit, ?_⟩
    · rw [hfound, List.filter_cons_of_neg (by rw [hp]; exact Bool.false_ne_true),
        List.filter_cons_of_pos hc, List.reverse_cons, List.append_assoc, List.singleton_append]
    · rintro d (_ | ⟨_, _ | ⟨_, hd⟩⟩)
      · exact .inr rfl
      · exact .inl hc
      · exact hrun d hd
  | case2 => exact ⟨[], (List.append_nil _).symm, rfl, nofun⟩
  | case3 seen c rest hne hc ih =>
    -- a digit
    obtain ⟨run, hfound, hsplit, hrun⟩ := ih
    refine ⟨c :: run, ?_, congrArg (c :: ·) hsplit, ?_⟩
    · rw [hfound, List.filter_cons_of_pos hc, List.reverse_cons, List.append_assoc,
        List.singleton_append]
    · rintro d (_ | ⟨_, hd⟩)
      · exact .inl hc
      · exact hrun d hd
  | case4 => exact ⟨[], (List.append_nil _).symm, rfl, nofun⟩
  | case5 => exact ⟨[], (List.append_nil _).symm, rfl, nofun⟩

theorem exists_run {p : Char → Bool} (hp : p '_' = false) (s : List Char) :
    ∃ run, (digitRun p s).1 = run.filter p ∧ s = run ++ (digitRun p s).2 ∧
      ∀ c ∈ run, p c = true ∨ c = '_' := by
  unfold digitRun
  split
  · next c rest =>
    split
    · next hc =>
      obtain ⟨run, hfound, hsplit, hrun⟩ := exists_run_of_more hp [c] rest
      refine ⟨c :: run, ?_, congrArg (c :: ·) hsplit, ?_⟩
      · rw [hfound, List.filter_cons_of_pos hc, List.reverse_singleton, List.singleton_append]
      · rintro d (_ | ⟨_, hd⟩)
        · exact .inl hc
        · exact hrun d hd
    · exact ⟨[], rfl, rfl, nofun⟩
  · exact ⟨[], rfl, rfl, nofun⟩

theorem digitRun_suffix {p : Char → Bool} (hp : p '_' = false) (s : List Char) :
    (digitRun p s).2 <:+ s := by
  obtain ⟨run, -, hsplit, -⟩ := exists_run hp s
  exact ⟨run, hsplit.symm⟩

theorem markedNumber?_leaves (s : List Char) : Leaves s (markedNumber? s) := by
  intro v rest h
  have hbody (base : Nat) (p : Char → Bool) (a b : Char) (body : List Char) (hp : p '_' = false)
      (h : ((Numeral.digits? base (digitRun p body).1).bind fun found =>
        some (Value.int found.1, (digitRun p body).2)) = some (v, rest)) : rest <:+ a :: b :: body := by
    obtain ⟨found, -, heq⟩ := Option.bind_eq_some_iff.1 h
    cases heq
    exact (digitRun_suffix hp body).trans ((List.suffix_cons b body).trans (List.suffix_cons a _))
  unfold markedNumber? at h
  dsimp only at h
  split at h
  · exact hbody _ _ _ _ _ rfl h
  · exact hbody _ _ _ _ _ rfl h
  · exact hbody _ _ _ _ _ rfl h
  · cases h

/-- The whole part of a number is a run of digits, without the underscores. -/
theorem exists_run_of_wholePart (s : List Char) :
    ∃ run, (wholePart s).1 = run.filter isDigit ∧ s = run ++ (wholePart s).2 ∧
      ∀ c ∈ run, isDigit c = true ∨ c = '_' := by
  unfold wholePart
  split
  · exact ⟨['0'], rfl, rfl, List.forall_mem_singleton.2 (.inl rfl)⟩
  · exact exists_run (by decide) s

theorem fractionPart_suffix (s : List Char) : (fractionPart s).2 <:+ s := by
  unfold fractionPart
  split
  · next rest =>
    dsimp only
    split
    · exact List.suffix_rfl
    · exact (digitRun_suffix (by decide) rest).trans (List.suffix_cons _ _)
  · exact List.suffix_rfl

theorem exponentPart_suffix (s : List Char) : (exponentPart s).2 <:+ s := by
  unfold exponentPart
  split
  · next e rest =>
    split
    · split
      next mark body hmark =>
        -- a sign may stand in front of the digits
        have hbody : body <:+ rest := by
          split at hmark
          · cases hmark
            exact List.suffix_cons _ _
          · cases hmark
            exact List.suffix_cons _ _
          · cases hmark
            exact List.suffix_rfl
        dsimp only
        split
        · exact List.suffix_rfl
        · exact (digitRun_suffix (by decide) body).trans (hbody.trans (List.suffix_cons e rest))
    · exact List.suffix_rfl
  · exact List.suffix_rfl

theorem decimalNumber?_reads {x : Except DocumentFault (Value × List Char)}
    (h : decimalNumber? s = some x) : Reads s x := by
  unfold decimalNumber? at h
  split at h
  next mark body hmark =>
    -- a sign may stand in front, and it is no digit
    have hbody : body <:+ s ∧ mark.countP isDigit = 0 ∧
        ∀ c ∈ mark, (Numeral.digit? c).isSome = false := by
      split at hmark
      · cases hmark
        exact ⟨List.suffix_cons _ _, rfl, List.forall_mem_singleton.2 rfl⟩
      · cases hmark
        exact ⟨List.suffix_cons _ _, rfl, List.forall_mem_singleton.2 rfl⟩
      · cases hmark
        exact ⟨List.suffix_rfl, rfl, nofun⟩
    obtain ⟨run, hwhole, hsplit, hrun⟩ := exists_run_of_wholePart body
    have hbehind : (wholePart body).2 <:+ s :=
      List.IsSuffix.trans ⟨run, hsplit.symm⟩ hbody.1
    dsimp only at h
    split at h
    · cases h
    · have hrest := (exponentPart_suffix _).trans ((fractionPart_suffix _).trans hbehind)
      split at h
      · obtain ⟨⟨n, count⟩, hcount, heq⟩ := Option.map_eq_some_iff.1 h
        subst heq
        refine checkedInt_reads hrest ⟨run, ?_, hrun, ?_⟩
        · exact (hsplit ▸ List.infix_append [] run _ : run <:+: body).trans hbody.1.isInfix
        · have hascii : ∀ c ∈ mark ++ (wholePart body).1,
              (Numeral.digit? c).isSome → isDigit c := by
            intro c hc hdigit
            rcases List.mem_append.1 hc with hc | hc
            · rw [hbody.2.2 c hc] at hdigit
              cases hdigit
            · rw [hwhole] at hc
              exact List.of_mem_filter hc
          -- underscores are left out of the number, so no more digits are read than stand there
          calc count ≤ (mark ++ (wholePart body).1).countP isDigit :=
                count_le_of_integer? hcount hascii
            _ = (run.filter isDigit).countP isDigit := by
                rw [List.countP_append, hbody.2.1, Nat.zero_add, hwhole]
            _ ≤ run.countP isDigit := List.filter_sublist.countP_le
      · obtain ⟨d, -, heq⟩ := Option.map_eq_some_iff.1 h
        subst heq
        exact .ok hrest

theorem plainValue_reads (s : List Char) : Reads s (plainValue s) := by
  unfold plainValue
  split
  · next rest _ hrest => exact .ok (afterFront?_suffix hrest)
  · next rest hrest _ => exact .ok (afterFront?_suffix hrest)
  · split
    · next x hx => exact dateOrMoment?_reads hx
    · split
      · next time rest htime => exact .ok (clockTime?_leaves s _ _ htime)
      · split
        · next found hfound => exact .ok (markedNumber?_leaves s _ _ hfound)
        · split
          · next x hx => exact decimalNumber?_reads hx
          · split
            · next found hfound =>
              obtain ⟨word, -, hword⟩ := List.exists_of_findSome?_eq_some hfound
              obtain ⟨rest, hrest, heq⟩ := Option.map_eq_some_iff.1 hword
              subst heq
              exact .ok (afterFront?_suffix hrest)
            · exact .malformed

/-! ## Tables -/

theorem changeTable_fits (enterLists : Bool) {change : Table → Except DocumentFault Table}
    (hchange : ∀ table, Fits (change table)) (k : Key) (table : Table) :
    Fits (changeTable enterLists change k table) := by
  induction k generalizing table with
  | nil => exact hchange table
  | cons part rest ih =>
    rw [changeTable]
    split
    · next inner _ => exact Ends.andThen (ih inner) fun _ _ => trivial
    · split
      · next inner _ => exact Ends.andThen (ih inner) fun _ _ => trivial
      · exact rfl
    · exact rfl

theorem putNew_fits (k : String) (v : Value) (table : Table) : Fits (putNew k v table) := by
  unfold putNew
  split
  · exact rfl
  · exact trivial

theorem appendTable_fits (k : String) (table : Table) : Fits (appendTable k table) := by
  unfold appendTable
  split
  · exact trivial
  · exact trivial
  · exact rfl

/-! ## Values -/

/-- All of the readers of values that call each other, with as much fuel. -/
structure AllRead (fuel : Nat) : Prop where
  value : ∀ s, Reads s (value fuel s)
  items : ∀ seen s, Reads s (arrayItems fuel seen s)
  entries : ∀ table marks s, Reads s (inlineEntries fuel table marks s)

theorem allRead (fuel : Nat) : AllRead fuel := by
  induction fuel with
  | zero => exact ⟨fun _ => .malformed, fun _ _ => .malformed, fun _ _ _ => .malformed⟩
  | succ fuel ih =>
    constructor
    case value =>
      intro s
      rw [value.eq_def]
      dsimp only
      have hcons (c : Char) (t : List Char) : t <:+ c :: t := List.suffix_cons c t
      have hquotes (c : Char) (t : List Char) : t <:+ c :: c :: c :: t :=
        (hcons c t).trans ((hcons c _).trans (hcons c _))
      split
      · exact ((multilineString_reads false _).map Value.string).of_suffix (hquotes _ _)
      · exact ((basicString_reads _).map Value.string).of_suffix (hcons _ _)
      · exact ((multilineString_reads true _).map Value.string).of_suffix (hquotes _ _)
      · exact ((literalString_reads _).map Value.string).of_suffix (hcons _ _)
      · -- an array
        -- an inline table
        next rest =>
        refine Skips.bind ((skipLines_skips _ rest).of_suffix (hcons _ _)) fun after hafter => ?_
        split
        · exact .ok ((hcons _ _).trans hafter)
        · exact (ih.items [] _).of_suffix hafter
      · next rest =>
        have hskip := (skipBlanks_suffix rest).trans (hcons '\x7b' rest)
        split
        · next after hafter => exact .ok ((hcons _ _).trans (hafter ▸ hskip))
        · exact (ih.entries [] [] _).of_suffix hskip
      · exact plainValue_reads s
    case items =>
      intro seen s
      rw [arrayItems]
      refine (ih.value s).bind fun item rest hrest => ?_
      refine Skips.bind ((skipLines_skips _ rest).of_suffix hrest) fun after hafter => ?_
      split
      · exact .ok ((List.suffix_cons _ _).trans hafter)
      · next more =>
        have hmore := (List.suffix_cons _ more).trans hafter
        refine Skips.bind ((skipLines_skips _ more).of_suffix hmore) fun behind hbehind => ?_
        split
        · exact .ok ((List.suffix_cons _ _).trans hbehind)
        · exact (ih.items _ _).of_suffix hbehind
      · exact .malformed
    case entries =>
      intro table marks s
      rw [inlineEntries]
      refine (key_reads s).bind fun k rest hrest => ?_
      refine Skips.bind ((expect_skips ['='] rest).of_suffix hrest) fun rest hrest => ?_
      refine Reads.bind ((ih.value _).of_suffix ((skipBlanks_suffix rest).trans hrest)) ?_
      intro item rest hrest
      dsimp only
      split
      · exact .malformed
      · refine (changeTable_fits false (putNew_fits _ item) _ table).bind fun table => ?_
        have hskip := (skipBlanks_suffix rest).trans hrest
        split
        · next after hafter => exact .ok ((List.suffix_cons _ _).trans (hafter ▸ hskip))
        · next after hafter =>
          rw [hafter] at hskip
          exact (ih.entries _ _ _).of_suffix ((skipBlanks_suffix after).trans
            ((List.suffix_cons _ _).trans hskip))
        · exact .malformed

/-! ## Statements -/

theorem tableHeader_reads (draft : Draft) (s : List Char) : Reads s (tableHeader draft s) := by
  refine Reads.bind ((key_reads _).of_suffix (skipBlanks_suffix s)) fun k rest hrest => ?_
  dsimp only
  split
  · exact .malformed
  · refine (changeTable_fits true (fun _ => Ends.ok_iff.2 trivial) k draft.table).bind fun table => ?_
    exact Skips.bind ((expect_skips [']'] rest).of_suffix hrest) fun rest hrest => .ok hrest

theorem arrayHeader_reads (draft : Draft) (s : List Char) : Reads s (arrayHeader draft s) := by
  refine Reads.bind ((key_reads _).of_suffix (skipBlanks_suffix s)) fun k rest hrest => ?_
  dsimp only
  split
  · exact .malformed
  · refine (changeTable_fits true (appendTable_fits _) k.dropLast draft.table).bind fun table => ?_
    exact Skips.bind ((expect_skips [']', ']'] rest).of_suffix hrest) fun rest hrest => .ok hrest

theorem keyValue_reads (draft : Draft) (s : List Char) : Reads s (keyValue draft s) := by
  refine (key_reads s).bind fun k rest hrest => ?_
  refine Skips.bind ((expect_skips ['='] rest).of_suffix hrest) fun rest hrest => ?_
  have hitem := ((allRead (2 * rest.length + 2)).value _).of_suffix
    ((skipBlanks_suffix rest).trans hrest)
  refine Reads.bind hitem fun item rest hrest => ?_
  dsimp only
  split
  · exact .malformed
  · exact (changeTable_fits true (putNew_fits _ item) _ draft.table).bind fun table => .ok hrest

theorem statement_reads (draft : Draft) (s : List Char) : Reads s (statement draft s) := by
  unfold statement
  split
  · exact (arrayHeader_reads _ _).of_suffix ((List.suffix_cons _ _).trans (List.suffix_cons _ _))
  · exact (tableHeader_reads _ _).of_suffix (List.suffix_cons _ _)
  · exact .ok List.suffix_rfl
  · split
    · exact keyValue_reads draft _
    · exact .malformed
  · exact .ok List.suffix_rfl

theorem statements_stop (fuel : Nat) (draft : Draft) (s : List Char) :
    Ends (fun _ => True) (Stops s) (statements fuel draft s) := by
  induction fuel generalizing draft s with
  | zero => exact Stops.malformed
  | succ fuel ih =>
    have hskip := skipBlanks_suffix s
    rw [statements.eq_def]
    dsimp only
    split
    · exact trivial
    · -- a blank line
      next rest hrest =>
      rw [hrest] at hskip
      exact Ends.mono (ih draft rest) (fun _ _ => trivial) fun _ he =>
        he.of_suffix ((List.suffix_cons _ _).trans hskip)
    · -- a statement, and behind it a comment up to the end of the line
      refine Ends.andThen ((statement_reads draft _).of_suffix hskip) ?_
      rintro ⟨draft, rest⟩ hrest
      have hcomment := (skipComment_skips _).of_suffix ((skipBlanks_suffix rest).trans hrest)
      refine Ends.andThen hcomment fun after hafter => ?_
      split
      · exact trivial
      · next rest =>
        exact Ends.mono (ih draft rest) (fun _ _ => trivial) fun _ he =>
          he.of_suffix ((List.suffix_cons _ _).trans hafter)
      · exact Stops.malformed

theorem dropReturns_dropsReturns : DropsReturns dropReturns := by
  refine ⟨rfl, fun c rest => ?_⟩
  rw [dropReturns.eq_def (c :: rest)]
  split
  · next after heq =>
    cases heq
    exact .inl ⟨after, List.suffix_cons _ _, rfl⟩
  · next heq =>
    cases heq
    exact .inr rfl
  · next heq => cases heq

/-- Reading a TOML text is stopped only where it does not follow the format, or by a number in it
with too many digits. -/
theorem read_stops {text : List Char} {e : DocumentFault} (h : read text = .error e) :
    Stops text e := by
  rcases eq_error_of_bind h with hstatements | ⟨draft, -, hdraft⟩
  · exact dropReturns_dropsReturns.stops (Ends.of_eq_error (statements_stop _ _ _) hstatements)
  · cases hdraft

end Makewright.Toml
