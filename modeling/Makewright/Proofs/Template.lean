import Makewright.Proofs.Outcome
import Makewright.Proofs.Text
import Makewright.Template

/-!
# Texts with placeholders

Taking a text apart loses nothing: its pieces, written one behind the other, are the text
(`Template.flatMap_source_segments`). So a text without two opening braces in a row holds no
placeholder and stands for itself (`Template.substitute_eq_self`). Blanks at the ends of a text
belong to no placeholder and stay where they are (`Template.substitute_padded`), and what is filled
in leaves blanks at the ends only where a placeholder stands for nothing or for a text with blanks
around it (`Template.tight_of_substitute`).
-/

set_option autoImplicit false

namespace Makewright

namespace Template

variable {s content front back : List Char} {text : String}

/-- What a piece of a text is written as. -/
def Segment.source : Segment → List Char
  | .literal c => [c]
  | .placeholder content => '\x7b' :: '\x7b' :: (content ++ ['\x7d', '\x7d'])

/-! ## The pieces of a text -/

/-- A text starts with a placeholder if it starts with two opening braces, a content without braces
and two closing braces. -/
theorem placeholderAt?_eq_some_iff : placeholderAt? s = some content ↔
    content ≠ [] ∧ (∀ c ∈ content, isBrace c = false) ∧
      ∃ back, s = (Segment.placeholder content).source ++ back := by
  constructor
  · intro h
    unfold placeholderAt? at h
    split at h
    · next rest =>
      simp only at h
      split_ifs at h with hcloses
      obtain rfl := Option.some.inj h
      rw [Bool.and_eq_true, Bool.not_eq_true', List.isEmpty_eq_false_iff,
        List.isPrefixOf_iff_prefix] at hcloses
      obtain ⟨hne, back, hback⟩ := hcloses
      refine ⟨hne, fun c hc => by simpa using List.mem_takeWhile_imp hc, back, ?_⟩
      -- what `takeWhile` left begins with the closing braces
      obtain ⟨tail, htail⟩ := List.takeWhile_prefix (p := (!isBrace ·)) (l := rest)
      have hdrop : rest.drop (rest.takeWhile (!isBrace ·)).length = tail := by
        nth_rewrite 2 [← htail]
        exact List.drop_left
      rw [hdrop] at hback
      rw [Segment.source, List.cons_append, List.cons_append, List.append_assoc, hback, htail]
    · cases h
  · rintro ⟨hne, hbraces, back, rfl⟩
    have hcontent : (content ++ '\x7d' :: '\x7d' :: back).takeWhile (!isBrace ·) = content := by
      rw [List.takeWhile_append_of_pos (by simpa using hbraces)]
      simp [isBrace]
    simp only [placeholderAt?, Segment.source, List.cons_append, List.append_assoc,
      List.nil_append, hcontent, List.drop_left]
    simp [hne]

/-- The characters behind the first one that belong to a placeholder. -/
theorem length_tail_source (content : List Char) :
    (Segment.placeholder content).source.tail.length = content.length + 3 := by
  simp [Segment.source]

theorem getLast?_source (content : List Char) :
    (Segment.placeholder content).source.getLast? = some '\x7d' := by
  have hsource : (Segment.placeholder content).source =
      ('\x7b' :: '\x7b' :: (content ++ ['\x7d'])) ++ ['\x7d'] := by
    simp [Segment.source]
  rw [hsource, List.getLast?_concat]

/-- The pieces of a text, one behind the other, are what is left of it when the characters of a
placeholder that has been seen are dropped. -/
theorem flatMap_source_segmentsFrom (skip : Nat) (s : List Char) :
    (segmentsFrom skip s).flatMap Segment.source = s.drop skip := by
  induction s generalizing skip with
  | nil => simp [segmentsFrom]
  | cons c rest ih =>
    cases skip with
    | succ skip => rw [segmentsFrom, ih, List.drop_succ_cons]
    | zero =>
      rw [segmentsFrom]
      cases hat : placeholderAt? (c :: rest) with
      | none =>
        simp only [List.flatMap_cons, ih, Segment.source, List.drop_zero, List.singleton_append]
      | some content =>
        obtain ⟨-, -, back, hback⟩ := placeholderAt?_eq_some_iff.1 hat
        have hrest : rest = (Segment.placeholder content).source.tail ++ back :=
          (List.cons.inj hback).2
        simp only [List.flatMap_cons, ih]
        rw [List.drop_zero, hback, hrest, ← length_tail_source, List.drop_left]

/-- Taking a text apart loses nothing. -/
theorem flatMap_source_segments (text : String) :
    (segments text).flatMap Segment.source = text.toList :=
  flatMap_source_segmentsFrom 0 text.toList

theorem segments_ne_nil (h : text ≠ "") : segments text ≠ [] := by
  intro hnil
  have hsource := flatMap_source_segments text
  rw [hnil] at hsource
  exact h (String.toList_eq_nil_iff.1 hsource.symm)

/-- Pieces that stand for themselves are the characters that they are written as. -/
theorem eq_map_literal {segs : List Segment} (h : ∀ content, .placeholder content ∉ segs) :
    segs = (segs.flatMap Segment.source).map .literal := by
  induction segs with
  | nil => rfl
  | cons first rest ih =>
    have hrest := ih fun content hmem => h content (List.mem_cons_of_mem first hmem)
    cases first with
    | literal c => simpa [Segment.source] using hrest
    | placeholder content => exact absurd List.mem_cons_self (h content)

/-- A text without two opening braces in a row holds no placeholder. -/
theorem segments_eq_literals (h : ¬ ['\x7b', '\x7b'] <:+: text.toList) :
    segments text = text.toList.map .literal := by
  rw [← flatMap_source_segments]
  apply eq_map_literal
  intro content hmem
  apply h
  -- what the placeholder is written as is a part of the text
  have hpart : (Segment.placeholder content).source <:+: text.toList := by
    obtain ⟨before, after, hsplit⟩ := List.append_of_mem hmem
    rw [← flatMap_source_segments, hsplit, List.flatMap_append, List.flatMap_cons]
    exact ⟨before.flatMap Segment.source, after.flatMap Segment.source, by simp⟩
  exact (List.prefix_append ['\x7b', '\x7b'] _).isInfix.trans hpart

/-! ## Texts with something around them -/

/-- Where there is no opening brace, no placeholder starts. -/
theorem segmentsFrom_zero_append (hfront : ∀ c ∈ front, isBrace c = false) (s : List Char) :
    segmentsFrom 0 (front ++ s) = front.map .literal ++ segmentsFrom 0 s := by
  induction front with
  | nil => rfl
  | cons c rest ih =>
    obtain ⟨hc, hrest⟩ := List.forall_mem_cons.1 hfront
    have hnone : placeholderAt? (c :: (rest ++ s)) = none := by
      rw [Option.eq_none_iff_forall_ne_some]
      intro content hat
      obtain ⟨-, -, back, hback⟩ := placeholderAt?_eq_some_iff.1 hat
      rw [(List.cons.inj hback).1] at hc
      cases hc
    simp only [List.cons_append, segmentsFrom, hnone, ih hrest, List.map_cons]

/-- What follows a text belongs to no placeholder that starts in it, if there are no braces. -/
theorem placeholderAt?_append (hback : ∀ c ∈ back, isBrace c = false) (s : List Char) :
    placeholderAt? (s ++ back) = placeholderAt? s := by
  ext content
  simp only [placeholderAt?_eq_some_iff]
  refine and_congr_right fun _ => and_congr_right fun _ => ⟨?_, ?_⟩
  · rintro ⟨tail, htail⟩
    rcases List.append_eq_append_iff.1 htail with ⟨rest, hsource, hrest⟩ | ⟨rest, hs, -⟩
    · -- the closing brace that a placeholder ends with would stand behind the text
      rcases List.eq_nil_or_concat rest with rfl | ⟨before, last, rfl⟩
      · exact ⟨[], by rw [hsource, List.append_nil, List.append_nil]⟩
      · have hlast : last = '\x7d' := by
          have hends := congrArg List.getLast? hsource
          rw [getLast?_source, List.concat_eq_append, ← List.append_assoc, List.getLast?_concat]
            at hends
          exact (Option.some.inj hends).symm
        have hmem : last ∈ back := by simp [hrest]
        rw [hlast] at hmem
        cases hback _ hmem
    · exact ⟨rest, hs⟩
  · rintro ⟨tail, rfl⟩
    exact ⟨tail ++ back, List.append_assoc _ _ _⟩

theorem segmentsFrom_append (hback : ∀ c ∈ back, isBrace c = false) {skip : Nat}
    (hskip : skip ≤ s.length) :
    segmentsFrom skip (s ++ back) = segmentsFrom skip s ++ back.map .literal := by
  induction s generalizing skip with
  | nil =>
    obtain rfl := Nat.le_zero.1 hskip
    have hnil : segmentsFrom 0 [] = [] := rfl
    simpa [hnil] using segmentsFrom_zero_append hback []
  | cons c rest ih =>
    cases skip with
    | succ skip =>
      rw [List.cons_append, segmentsFrom, segmentsFrom, ih (Nat.le_of_succ_le_succ hskip)]
    | zero =>
      have hat := placeholderAt?_append hback (c :: rest)
      rw [List.cons_append] at hat
      rw [List.cons_append, segmentsFrom, segmentsFrom, hat]
      cases hfound : placeholderAt? (c :: rest) with
      | none => simp only [ih (Nat.zero_le _), List.cons_append]
      -- the placeholder ends before `back` begins, so that the skip stays inside `rest`
      | some content =>
        obtain ⟨-, -, tail, htail⟩ := placeholderAt?_eq_some_iff.1 hfound
        have hrest : rest = (Segment.placeholder content).source.tail ++ tail :=
          (List.cons.inj htail).2
        have hlength : content.length + 3 ≤ rest.length := by
          rw [hrest, List.length_append, length_tail_source]
          exact Nat.le_add_right _ _
        simp only [ih hlength, List.cons_append]

/-- Characters around a text that are no braces are pieces of their own. -/
theorem segments_padded (hfront : ∀ c ∈ front, isBrace c = false)
    (hback : ∀ c ∈ back, isBrace c = false) (text : String) :
    segments (String.ofList (front ++ text.toList ++ back)) =
      front.map .literal ++ segments text ++ back.map .literal := by
  rw [segments, String.toList_ofList, List.append_assoc, segmentsFrom_zero_append hfront,
    segmentsFrom_append hback (Nat.zero_le _), List.append_assoc]
  rfl

theorem isBrace_of_isBlank {c : Char} (h : Text.isBlank c = true) : isBrace c = false := by
  rw [isBrace, Bool.or_eq_false_iff, beq_eq_false_iff_ne, beq_eq_false_iff_ne]
  constructor
  · rintro rfl
    exact absurd h (by decide)
  · rintro rfl
    exact absurd h (by decide)

/-! ## What is filled in -/

section Substitute

variable {m : Type → Type} [Monad m] [LawfulMonad m] (lookup : String → m String)

theorem mapM_literal (s : List Char) :
    (s.map .literal).mapM (Segment.text lookup) = pure (s.map fun c => [c]) := by
  induction s with
  | nil => rfl
  | cons c rest ih => simp [Segment.text, ih]

/-- A text without two opening braces in a row stands for itself. -/
theorem substitute_eq_self (h : ¬ ['\x7b', '\x7b'] <:+: text.toList) :
    substitute lookup text = pure text := by
  rw [substitute, segments_eq_literals h, mapM_literal, map_pure, ← List.flatMap_def,
    List.flatMap_singleton', String.ofList_toList]

/-- Characters around a text that are no braces stay around what the text stands for. -/
theorem substitute_padded (hfront : ∀ c ∈ front, isBrace c = false)
    (hback : ∀ c ∈ back, isBrace c = false) (text : String) :
    substitute lookup (String.ofList (front ++ text.toList ++ back)) =
      (fun filled => String.ofList (front ++ filled.toList ++ back)) <$>
        substitute lookup text := by
  rw [substitute, substitute, segments_padded hfront hback, List.mapM_append, List.mapM_append,
    mapM_literal, mapM_literal]
  simp [← List.flatMap_def, List.flatMap_singleton']

end Substitute

/-- No placeholder of the text stands for an empty text or for one with blanks around it. -/
def FillsTightly (lookup : String → Except TemplateError String) (text : String) : Prop :=
  ∀ content, .placeholder content ∈ segments text → ∀ filled,
    lookup (Text.trim (String.ofList content)) = .ok filled →
      filled ≠ "" ∧ Text.trim filled = filled

variable {lookup : String → Except TemplateError String}

/-- Only looking up the path of a placeholder can fail. -/
theorem exists_lookup_eq_error {e : TemplateError} (h : substitute lookup text = .error e) :
    ∃ path, lookup path = .error e := by
  obtain ⟨seg, -, hseg⟩ := exists_of_mapM_eq_error (eq_error_of_map h)
  cases seg with
  | literal c => cases hseg
  | placeholder content => exact ⟨_, eq_error_of_map hseg⟩

/-- Trimming a text takes no placeholder away. -/
theorem fillsTightly_trim (h : FillsTightly lookup text) :
    FillsTightly lookup (Text.trim text) := by
  obtain ⟨front, back, htext, hfront, hback⟩ := Text.exists_trim text
  have hsegments := segments_padded (fun c hc => isBrace_of_isBlank (hfront c hc))
    (fun c hc => isBrace_of_isBlank (hback c hc)) (Text.trim text)
  rw [← htext, String.ofList_toList] at hsegments
  intro content hcontent
  apply h content
  rw [hsegments]
  exact List.mem_append_left _ (List.mem_append_right _ hcontent)

/-- The text of a piece is neither empty nor are there blanks around it, if the piece is no
blank. -/
theorem ends_of_text (htight : FillsTightly lookup text) {seg : Segment}
    (hseg : seg ∈ segments text) (hliteral : ∀ c, seg = .literal c → Text.isBlank c = false)
    {part : List Char}
    (hpart : seg.text lookup = .ok part) : part ≠ [] ∧
      (∀ c, part.head? = some c → Text.isBlank c = false) ∧
      ∀ c, part.getLast? = some c → Text.isBlank c = false := by
  cases seg with
  | literal c =>
    obtain rfl := Except.ok.inj hpart
    simpa using hliteral c rfl
  | placeholder content =>
    obtain ⟨filled, hlookup, rfl⟩ := exists_of_map_eq_ok hpart
    obtain ⟨hne, htrim⟩ := htight content hseg filled hlookup
    refine ⟨by rwa [Ne, String.toList_eq_nil_iff], ?_, ?_⟩
    · rw [← htrim]
      exact Text.head?_strip Text.isBlank filled
    · rw [← htrim]
      exact Text.getLast?_strip Text.isBlank filled

/-- How a filled text starts: like what its first piece stands for. -/
theorem start_of_mapM (htight : FillsTightly lookup text) (hne : text ≠ "")
    (hhead : ∀ c, text.toList.head? = some c → Text.isBlank c = false) {parts : List (List Char)}
    (hparts : (segments text).mapM (Segment.text lookup) = .ok parts) : parts.flatten ≠ [] ∧
      ∀ c, parts.flatten.head? = some c → Text.isBlank c = false := by
  have hsource := flatMap_source_segments text
  obtain ⟨first, rest, hsplit⟩ := List.exists_cons_of_ne_nil (segments_ne_nil hne)
  have hliteral : ∀ c, first = .literal c → Text.isBlank c = false := by
    rintro c rfl
    refine hhead c ?_
    rw [← hsource, hsplit]
    rfl
  rw [hsplit, List.mapM_cons] at hparts
  obtain ⟨part, hpart, hparts⟩ := exists_of_bind_eq_ok hparts
  obtain ⟨others, -, hparts⟩ := exists_of_bind_eq_ok hparts
  obtain rfl := Except.ok.inj hparts
  obtain ⟨hpartNe, hstart, -⟩ := ends_of_text htight (hsplit ▸ List.mem_cons_self) hliteral hpart
  obtain ⟨c, tail, rfl⟩ := List.exists_cons_of_ne_nil hpartNe
  exact ⟨by simp, by simpa using hstart⟩

/-- How a filled text ends: like what its last piece stands for. -/
theorem end_of_mapM (htight : FillsTightly lookup text) (hne : text ≠ "")
    (hlast : ∀ c, text.toList.getLast? = some c → Text.isBlank c = false)
    {parts : List (List Char)} (hparts : (segments text).mapM (Segment.text lookup) = .ok parts) :
    ∀ c, parts.flatten.getLast? = some c → Text.isBlank c = false := by
  have hsource := flatMap_source_segments text
  -- only the last segment decides, since no part is empty
  obtain ⟨front, last, hsplit⟩ :=
    (List.eq_nil_or_concat (segments text)).resolve_left (segments_ne_nil hne)
  rw [List.concat_eq_append] at hsplit
  have hliteral : ∀ c, last = .literal c → Text.isBlank c = false := by
    rintro c rfl
    refine hlast c ?_
    rw [← hsource, hsplit]
    simp [Segment.source]
  rw [hsplit, List.mapM_append] at hparts
  obtain ⟨others, -, hparts⟩ := exists_of_bind_eq_ok hparts
  obtain ⟨lasts, hlasts, hparts⟩ := exists_of_bind_eq_ok hparts
  obtain rfl := Except.ok.inj hparts
  rw [List.mapM_cons, List.mapM_nil] at hlasts
  obtain ⟨part, hpart, hlasts⟩ := exists_of_bind_eq_ok hlasts
  obtain rfl : [part] = lasts := Except.ok.inj hlasts
  have hmem : last ∈ segments text := hsplit ▸ List.mem_append_right front List.mem_cons_self
  obtain ⟨hpartNe, -, hend⟩ := ends_of_text htight hmem hliteral hpart
  intro c hc
  refine hend c ?_
  rwa [List.flatten_append, List.flatten_singleton, List.getLast?_append_of_ne_nil _ hpartNe] at hc

/-- A text without blanks around it stands for a text without blanks around it, if that holds of
what its placeholders stand for. -/
theorem tight_of_substitute (htight : FillsTightly lookup text) (hne : text ≠ "")
    (htrim : Text.trim text = text) {filled : String} (h : substitute lookup text = .ok filled) :
    filled ≠ "" ∧ Text.trim filled = filled := by
  obtain ⟨parts, hparts, rfl⟩ := exists_of_map_eq_ok h
  have hhead := Text.head?_strip Text.isBlank text
  have hlast := Text.getLast?_strip Text.isBlank text
  rw [← Text.trim, htrim] at hhead hlast
  obtain ⟨hfull, hstart⟩ := start_of_mapM htight hne hhead hparts
  have hend := end_of_mapM htight hne hlast hparts
  refine ⟨?_, Text.strip_eq_self ?_ ?_⟩
  · rwa [Ne, String.ofList_eq_empty_iff]
  · rwa [String.toList_ofList]
  · rwa [String.toList_ofList]

end Template

end Makewright
