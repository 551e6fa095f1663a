import Makewright.Proofs.Downward

/-!
# Spellings of targets

The full spelling of a target that was read from a reference is read anywhere, and with the same
name. It is read as the same target exactly if there are no blanks around the package
(`Target.parse_toString`): blanks that come into sight when outer slashes are dropped, or when a
component next to them is cancelled, stay in the package that is read, and are dropped when the
package is read again (`Target.parse_toString_shifts`).
-/

set_option autoImplicit false

namespace Makewright

namespace Text

/-- A character stands nowhere in a text, or there is a last place where it does. -/
theorem cutLast?_cases (c : Char) (s : List Char) : c ∉ s ∧ cutLast? c s = none ∨
    ∃ before after, s = before ++ c :: after ∧ c ∉ after ∧
      cutLast? c s = some (before, after) := by
  by_cases hc : c ∈ s
  · obtain ⟨after, before, hsplit, hafter⟩ := List.eq_append_cons_of_mem (List.mem_reverse.2 hc)
    have htext : s = before.reverse ++ c :: after.reverse := by
      simpa using congrArg List.reverse hsplit
    rw [← List.mem_reverse] at hafter
    exact .inr ⟨_, _, htext, hafter, by rw [htext, cutLast?_append hafter]⟩
  · exact .inl ⟨hc, cutLast?_eq_none hc⟩

theorem eq_append_of_afterFront? {front s rest : List Char} (h : afterFront? front s = some rest) :
    s = front ++ rest := by
  induction front generalizing s with
  | nil => simpa [afterFront?] using h
  | cons f front ih =>
    cases s with
    | nil => cases h
    | cons c more =>
      rw [afterFront?] at h
      split_ifs at h with hc
      rw [hc, ih h, List.cons_append]

/-- Dropping some of the texts drops parts of what they make. -/
theorem intercalate_sublist {α : Type} (sep : List α) {xs ys : List (List α)}
    (h : xs.Sublist ys) : (sep.intercalate xs).Sublist (sep.intercalate ys) := by
  induction h with
  | slnil => exact .refl _
  | @cons xs ys y h ih =>
    by_cases hys : ys = []
    · rw [hys, List.sublist_nil] at h
      simp [h]
    · rw [List.intercalate_cons_of_ne_nil hys]
      exact ih.trans (List.sublist_append_right _ _)
  | @cons_cons xs ys x h ih =>
    by_cases hxs : xs = []
    · by_cases hys : ys = []
      · rw [hxs, hys]
      · rw [hxs, List.intercalate_singleton, List.intercalate_cons_of_ne_nil hys, List.append_assoc]
        exact List.sublist_append_left _ _
    · have hys : ys ≠ [] := fun hys => hxs (List.sublist_nil.1 (hys ▸ h))
      rw [List.intercalate_cons_of_ne_nil hxs, List.intercalate_cons_of_ne_nil hys]
      exact (List.Sublist.refl _).append ih

end Text

/-! ## Normal forms are parts of paths -/

namespace Path

variable {rooted : Bool} {settled parts : List (List Char)} {path : List Char}

/-- Settling a component puts it in front, or drops something. -/
theorem settle_sublist (settled : List (List Char)) (part : List Char) :
    (settle false settled part).Sublist (part :: settled) := by
  by_cases hpart : part = up
  · subst hpart
    cases settled with
    | nil => exact .refl _
    | cons last earlier =>
      by_cases hlast : last = up
      · simp [settle, hlast]
      · simp only [settle, if_neg hlast, if_true]
        exact ((List.sublist_cons_self last earlier).trans (List.sublist_cons_self up _))
  · rw [settle_of_ne_up hpart]

theorem foldl_settle_sublist (parts settled : List (List Char)) :
    (parts.foldl (settle false) settled).Sublist (parts.reverse ++ settled) := by
  induction parts generalizing settled with
  | nil => exact .refl _
  | cons part rest ih =>
    rw [List.foldl_cons, List.reverse_cons, List.append_assoc]
    exact (ih _).trans ((List.Sublist.refl _).append (settle_sublist settled part))

/-- The normal form of a relative path is what is left of the path when parts of it are dropped. -/
theorem normalizeList_sublist (hroot : rootSlashes path = 0)
    (hsettled : settledComponents path ≠ []) : (normalizeList path).Sublist path := by
  have hparts : (settledComponents path).Sublist (components path) := by
    have hfold := (foldl_settle_sublist (components path) []).reverse
    rw [List.append_nil, List.reverse_reverse] at hfold
    rw [settledComponents, hroot]
    exact hfold
  have hsplit : (settledComponents path).Sublist (path.splitOn '/') :=
    hparts.trans List.filter_sublist
  rw [normalizeList_relative hroot, if_neg hsettled]
  simpa only [List.intercalate_splitOn] using Text.intercalate_sublist ['/'] hsplit

end Path

namespace Target

open Makewright.Path

variable {text package reference current : String} {t : Target}

/-! ## Packages -/

/-- What a text is read as, unless that is the root package: the normal form of a relative path that
is a part of the trimmed text. -/
theorem exists_bare_of_normalizePackage (h : normalizePackage text = .ok package)
    (hne : package ≠ "") : ∃ bare, isAbsolute bare = false ∧
      bare.toList.Sublist (Text.trim text).toList ∧ package = Path.normalize bare ∧
      package ≠ "." ∧ startsUpward package = false := by
  unfold normalizePackage at h
  simp only at h
  split_ifs at h with hempty hup hdot
  · exact absurd (Except.ok.inj h).symm hne
  · exact absurd (Except.ok.inj h).symm hne
  · obtain rfl := Except.ok.inj h
    refine ⟨_, ?_, ?_, rfl, hdot, by simpa using hup⟩
    · have hhead := Text.head?_strip (· == '/') (Text.trim text)
      rw [isAbsolute, beq_eq_false_iff_ne]
      exact fun hslash => by simpa using hhead '/' hslash
    · rw [Text.strip, String.toList_ofList]
      exact Text.stripList_sublist _ _

/-- A package is what is left of the trimmed text that it is read from when parts are dropped. -/
theorem normalizePackage_sublist (h : normalizePackage text = .ok package) :
    package.toList.Sublist (Text.trim text).toList := by
  by_cases hne : package = ""
  · rw [hne]
    exact List.nil_sublist _
  · obtain ⟨bare, hrelative, hbare, rfl, hdot, -⟩ := exists_bare_of_normalizePackage h hne
    rw [Ne, normalize_eq_dot_iff hrelative] at hdot
    rw [Path.normalize, String.toList_ofList]
    exact (normalizeList_sublist (rootSlashes_of_isAbsolute hrelative) hdot).trans hbare

/-- A package is read back as it is exactly if there are no blanks around it. -/
theorem normalizePackage_eq_self_iff (h : normalizePackage text = .ok package) :
    normalizePackage package = .ok package ↔ Text.trim package = package := by
  constructor
  · intro hself
    have htrim : (Text.trim package).toList.Sublist package.toList := by
      rw [Text.trim, Text.strip, String.toList_ofList]
      exact Text.stripList_sublist _ _
    exact String.toList_injective (htrim.antisymm (normalizePackage_sublist hself))
  · intro htrim
    have htidy := isTidy_normalizePackage h
    have hbare : Text.strip (· == '/') package = package := by
      refine Text.strip_eq_self ?_ ?_
      · exact fun c hc => beq_false_of_ne fun hslash => htidy.head?_ne (hslash ▸ hc)
      · exact fun c hc => beq_false_of_ne fun hslash => htidy.getLast?_ne (hslash ▸ hc)
    unfold normalizePackage
    simp only [htrim, hbare]
    by_cases hempty : package = ""
    · simp [hempty]
    · obtain ⟨-, -, -, -, hdot, hup⟩ := exists_bare_of_normalizePackage h hempty
      rw [htidy.normalize_eq hempty, hup]
      simp [hempty, hdot]

/-! ## References -/

/-- The name that a reference gives: it is not empty, ends in no blank and holds no colon. -/
structure IsReadName (name : String) : Prop where
  ne_empty : name ≠ ""
  ends : ∀ c, name.toList.getLast? = some c → Text.isBlank c = false
  noColon : ':' ∉ name.toList

/-- A reference ends in the name that is split off, and the name holds no colon. -/
theorem splitReference_spec (current : String) (rooted : Bool) (body : List Char) :
    (splitReference current rooted body).2 <:+ body ∧
      ':' ∉ (splitReference current rooted body).2 := by
  have hname : (splitReference current rooted body).2 =
      ((Text.cutLast? ':' body).getD ((Text.cutLast? '/' body).getD ([], body))).2 := by
    unfold splitReference
    cases Text.cutLast? ':' body with
    | none => simp only [Option.getD_none, apply_ite Prod.snd, ite_self]
    | some parts => simp only [Option.getD_some, apply_ite Prod.snd, ite_self]
  rw [hname]
  rcases Text.cutLast?_cases ':' body with ⟨hnone, hcut⟩ | ⟨before, after, rfl, hafter, hcut⟩
  · rw [hcut]
    rcases Text.cutLast?_cases '/' body with ⟨-, hslash⟩ | ⟨before, after, rfl, -, hslash⟩
    · rw [hslash]
      exact ⟨List.suffix_rfl, hnone⟩
    · rw [hslash]
      refine ⟨(List.suffix_cons '/' after).trans (List.suffix_append before _), ?_⟩
      exact fun hmem => hnone (List.mem_append_right before (List.mem_cons_of_mem '/' hmem))
  · rw [hcut]
    exact ⟨(List.suffix_cons ':' after).trans (List.suffix_append before _), hafter⟩

/-- What a reference is read as is split off from an end of it. -/
theorem exists_split_of_parse (h : parse reference current = .ok t) :
    ∃ rooted body, body <:+ (Text.trim reference).toList ∧
      t.name.toList = (splitReference current rooted body).2 ∧ t.name ≠ "" ∧
      normalizePackage (String.ofList (splitReference current rooted body).1) = .ok t.package := by
  unfold parse at h
  cases hfront : Text.afterFront? ['/', '/'] (Text.trim reference).toList with
  | none =>
    simp only [hfront] at h
    split_ifs at h with hempty hname
    obtain ⟨package, hpackage, rfl⟩ := exists_of_map_eq_ok h
    refine ⟨_, _, List.suffix_rfl, String.toList_ofList, ?_, hpackage⟩
    simpa [String.ofList_eq_empty_iff] using hname
  | some rest =>
    simp only [hfront] at h
    split_ifs at h with hempty hname
    obtain ⟨package, hpackage, rfl⟩ := exists_of_map_eq_ok h
    refine ⟨_, rest, ?_, String.toList_ofList, ?_, hpackage⟩
    · rw [Text.eq_append_of_afterFront? hfront]
      exact List.suffix_append _ _
    · simpa [String.ofList_eq_empty_iff] using hname

theorem isReadName_of_parse (h : parse reference current = .ok t) : IsReadName t.name := by
  obtain ⟨rooted, body, hbody, hname, hne, -⟩ := exists_split_of_parse h
  obtain ⟨hsuffix, hcolon⟩ := splitReference_spec current rooted body
  rw [← hname] at hsuffix hcolon
  refine ⟨hne, ?_, hcolon⟩
  intro c hc
  obtain ⟨front, htext⟩ := hsuffix.trans hbody
  refine Text.getLast?_strip Text.isBlank reference c ?_
  rw [← Text.trim, ← htext, List.getLast?_append_of_ne_nil _ (List.ne_nil_of_mem
    (List.mem_of_getLast? hc)), hc]

/-- The full spelling of a target with such a name is taken apart in any package. -/
theorem parse_toString_eq (h : IsReadName t.name) (current : String) :
    parse t.toString current = (normalizePackage t.package).map (⟨·, t.name⟩) := by
  have htext : t.toString.toList = '/' :: '/' :: (t.package.toList ++ ':' :: t.name.toList) := by
    simp [Target.toString]
  have hne : t.name.toList ≠ [] := by simpa [String.toList_eq_nil_iff] using h.ne_empty
  -- it begins with a slash and ends as its name does, so there is nothing to trim
  have htrim : Text.trim t.toString = t.toString := by
    refine Text.strip_eq_self ?_ ?_
    · intro c hc
      rw [htext, List.head?_cons, Option.some.injEq] at hc
      rw [← hc]
      decide
    · intro c hc
      refine h.ends c ?_
      rw [← hc, htext, ← List.cons_append, ← List.cons_append, List.append_cons,
        List.getLast?_append_of_ne_nil _ hne]
  have hfront : Text.afterFront? ['/', '/'] t.toString.toList =
      some (t.package.toList ++ ':' :: t.name.toList) := by
    rw [htext]
    rfl
  have hsplit : splitReference current true (t.package.toList ++ ':' :: t.name.toList) =
      (t.package.toList, t.name.toList) := by
    simp [splitReference, Text.cutLast?_append h.noColon]
  unfold parse
  simp only [htrim, hfront, hsplit]
  simp [htext, hne]

/-- Whatever a reference is read as, its full spelling is read as the same target exactly if there
are no blanks around the package. It does not matter in which package it stands. -/
theorem parse_toString (h : parse reference current = .ok t) (other : String) :
    parse t.toString other = (normalizePackage t.package).map (⟨·, t.name⟩) ∧
      (parse t.toString other = .ok t ↔ Text.trim t.package = t.package) := by
  obtain ⟨rooted, body, -, -, -, hpackage⟩ := exists_split_of_parse h
  have hread := parse_toString_eq (isReadName_of_parse h) other
  refine ⟨hread, ?_⟩
  rw [hread, ← normalizePackage_eq_self_iff hpackage]
  constructor
  · intro hok
    obtain ⟨package, hself, htarget⟩ := exists_of_map_eq_ok hok
    rw [hself, ← htarget]
  · intro hself
    rw [hself]
    rfl

/-- A reference with blanks, slashes and dots is read as a target that reads back in any package. -/
theorem parse_toString_sample :
    parse " shapes/../lib /.//x/ : a/b " "" = .ok ⟨"lib /x", " a/b"⟩ ∧
      parse (Target.toString ⟨"lib /x", " a/b"⟩) "shapes" =
        (normalizePackage "lib /x").map (⟨·, " a/b"⟩) ∧
      (parse (Target.toString ⟨"lib /x", " a/b"⟩) "shapes" = .ok ⟨"lib /x", " a/b"⟩ ↔
        Text.trim "lib /x" = "lib /x") := by
  have h : parse " shapes/../lib /.//x/ : a/b " "" = .ok ⟨"lib /x", " a/b"⟩ := by
    decide +kernel
  exact ⟨h, parse_toString h "shapes"⟩

/-- The blank behind a slash stays in the package, and when the full spelling is read, it does not.
With two dots behind the blank, the full spelling is refused. -/
theorem parse_toString_shifts :
    parse "/ a:n" "" = .ok ⟨" a", "n"⟩ ∧
      parse (Target.toString ⟨" a", "n"⟩) "" = .ok ⟨"a", "n"⟩ ∧
      parse "/ ../a:n" "" = .ok ⟨" ../a", "n"⟩ ∧
      parse (Target.toString ⟨" ../a", "n"⟩) "" = .error (.escapes "../a") := by
  decide +kernel

end Target

end Makewright
