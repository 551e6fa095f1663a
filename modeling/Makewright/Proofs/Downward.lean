import Makewright.Proofs.Target
import Makewright.Resource

/-!
# Paths that lead down

A relative path leads down if it names a place strictly below the one that it is seen from. Walking
its components tells whether it does: a name leads one level down and the parent component one up, and
the walk must never leave the place where it starts, nor end there (`Path.leadsDown_iff`). A file
that is put below a root has the components of the normal form of the root in front of its own
(`Resource.toList_fullPath`).
-/

set_option autoImplicit false

namespace Makewright

namespace Path

variable {path : List Char} {parts settled : List (List Char)}

/-- How far below its start a walk along components ends, if it is at some depth already and never
leaves the start. -/
def depth? : Nat → List (List Char) → Option Nat
  | n, [] => some n
  | n, part :: rest =>
    if part = up then
      match n with
      | 0 => none
      | n + 1 => depth? n rest
    else depth? (n + 1) rest

/-- The path is relative and not empty, and its normal form is neither a dot nor does it lead
upward. -/
structure LeadsDown (path : String) : Prop where
  ne_empty : path ≠ ""
  relative : isAbsolute path = false
  ne_dot : Path.normalize path ≠ "."
  inside : up ∉ components (Path.normalize path).toList

instance (path : String) : Decidable (LeadsDown path) :=
  decidable_of_iff (path ≠ "" ∧ isAbsolute path = false ∧ Path.normalize path ≠ "." ∧
      up ∉ components (Path.normalize path).toList)
    ⟨fun h => ⟨h.1, h.2.1, h.2.2.1, h.2.2.2⟩, fun h => ⟨h.1, h.2, h.3, h.4⟩⟩

/-! ## Settled components -/

/-- A component that leads upward from the start stays. -/
theorem up_mem_foldl_settle (h : up ∈ settled) : up ∈ parts.foldl (settle false) settled := by
  induction parts generalizing settled with
  | nil => exact h
  | cons part rest ih =>
    refine ih ?_
    by_cases hpart : part = up
    · subst hpart
      cases settled with
      | nil => cases h
      | cons last earlier =>
        by_cases hlast : last = up
        · simp [settle, hlast]
        · simpa [settle, hlast] using (List.mem_cons.1 h).resolve_left (Ne.symm hlast)
    · rw [settle_of_ne_up hpart]
      exact List.mem_cons_of_mem part h

/-- Names settle into as many components as the walk is deep, and a walk that leaves its start
settles into one that leads upward. -/
theorem foldl_settle_depth (parts : List (List Char)) (h : up ∉ settled) :
    match depth? settled.length parts with
    | some n => up ∉ parts.foldl (settle false) settled ∧
        (parts.foldl (settle false) settled).length = n
    | none => up ∈ parts.foldl (settle false) settled := by
  induction parts generalizing settled with
  | nil => exact ⟨h, rfl⟩
  | cons part rest ih =>
    rw [List.foldl_cons]
    by_cases hpart : part = up
    · subst hpart
      -- a step back: out of the directory, or to the component in front
      cases settled with
      | nil =>
        have hleaves : depth? 0 (up :: rest) = none := by simp [depth?]
        rw [List.length_nil, hleaves]
        exact up_mem_foldl_settle (List.mem_singleton_self up)
      | cons last earlier =>
        obtain ⟨hlast, hearlier⟩ := List.ne_and_not_mem_of_not_mem_cons h
        have hback : depth? (last :: earlier).length (up :: rest) = depth? earlier.length rest := by
          simp [depth?]
        have hsettle : settle false (last :: earlier) up = earlier := by
          simp [settle, Ne.symm hlast]
        rw [hback, hsettle]
        exact ih hearlier
    · have hmore : up ∉ part :: settled := List.not_mem_cons_of_ne_of_not_mem (Ne.symm hpart) h
      have hdeeper : depth? settled.length (part :: rest) = depth? (part :: settled).length rest := by
        simp [depth?, hpart]
      rw [hdeeper, settle_of_ne_up hpart]
      exact ih hmore

theorem components_normalizeList (hroot : rootSlashes path = 0) :
    components (normalizeList path) = settledComponents path := by
  rw [normalizeList_relative hroot]
  split
  · next hsettled => rw [hsettled]; rfl
  · exact components_intercalate fun part hpart => isComponent_of_mem_settled hpart

/-! ## Leading down -/

variable {text : String}

theorem rootSlashes_of_isAbsolute (h : isAbsolute text = false) :
    rootSlashes text.toList = 0 := by
  have hhead : text.toList.head? ≠ some '/' := by simpa [isAbsolute] using h
  exact rootSlashes_replicate_append (Nat.zero_le 2) hhead

/-- Only a relative path that settles to nothing has a dot as its normal form. -/
theorem normalize_eq_dot_iff (h : isAbsolute text = false) :
    Path.normalize text = "." ↔ settledComponents text.toList = [] := by
  have hroot := rootSlashes_of_isAbsolute h
  constructor
  · intro hdot
    have hnormal := congrArg String.toList hdot
    rw [Path.normalize, String.toList_ofList] at hnormal
    rw [← components_normalizeList hroot, hnormal]
    rfl
  · intro hsettled
    rw [Path.normalize, normalizeList_relative hroot, if_pos hsettled]

theorem LeadsDown.rootSlashes_eq (h : LeadsDown text) : rootSlashes text.toList = 0 :=
  rootSlashes_of_isAbsolute h.relative

theorem normalize_ne_empty (path : String) : Path.normalize path ≠ "" := by
  rw [Path.normalize, Ne, String.ofList_eq_empty_iff]
  exact normalizeList_ne_nil _

theorem IsTidy.normalize_eq {path : String} (h : IsTidy path.toList) (hne : path ≠ "") :
    Path.normalize path = path := by
  rw [Path.normalize, h.normalizeList_eq (by rwa [Ne, String.toList_eq_nil_iff]),
    String.ofList_toList]

/-- The normal form of a path that leads down consists of names. -/
theorem LeadsDown.isTidy (h : LeadsDown text) :
    IsTidy (Path.normalize text).toList ∧ Path.normalize text ≠ "" := by
  have hsettled := components_normalizeList h.rootSlashes_eq
  have hne := mt (normalize_eq_dot_iff h.relative).2 h.ne_dot
  have hinside := h.inside
  rw [Path.normalize, String.toList_ofList, hsettled] at hinside
  constructor
  · rw [Path.normalize, String.toList_ofList, normalizeList_relative h.rootSlashes_eq, if_neg hne]
    refine isTidy_intercalate fun part hpart => ?_
    obtain ⟨hpartNe, hdot, hslash⟩ := isComponent_of_mem_settled hpart
    exact ⟨hpartNe, hdot, fun hup => hinside (hup ▸ hpart), hslash⟩
  · exact normalize_ne_empty text

/-- A tidy path leads down. -/
theorem IsTidy.leadsDown (h : IsTidy text.toList) (hne : text ≠ "") : LeadsDown text := by
  have hlist : text.toList ≠ [] := by rwa [Ne, String.toList_eq_nil_iff]
  have hnormal := h.normalize_eq hne
  refine ⟨hne, by simpa [isAbsolute] using h.head?_ne, ?_, ?_⟩
  · rw [hnormal]
    rintro rfl
    exact h.components_ne_nil hlist rfl
  · rw [hnormal]
    exact fun hup => (h.isPlain up hup).ne_up rfl

/-- A relative path leads down exactly if the walk along its components stays inside and ends below
its start. -/
theorem leadsDown_iff (hrelative : isAbsolute text = false) :
    LeadsDown text ↔ ∃ n, depth? 0 (components text.toList) = some (n + 1) := by
  have hroot := rootSlashes_of_isAbsolute hrelative
  have hsettled : settledComponents text.toList =
      ((components text.toList).foldl (settle false) []).reverse := by
    rw [settledComponents, hroot]
    rfl
  have hwalk := foldl_settle_depth (components text.toList) (List.not_mem_nil (a := up))
  -- what the walk says of the settled components is said of the normal form
  have hdot := normalize_eq_dot_iff hrelative
  have hinside : up ∈ components (Path.normalize text).toList ↔
      up ∈ settledComponents text.toList := by
    rw [Path.normalize, String.toList_ofList, components_normalizeList hroot]
  constructor
  · intro h
    have hne := mt hdot.2 h.ne_dot
    have hup := mt hinside.2 h.inside
    rw [hsettled, List.mem_reverse] at hup
    rw [hsettled, List.reverse_eq_nil_iff] at hne
    cases hdepth : depth? 0 (components text.toList) with
    | none =>
      -- a walk that leaves its start settles into one that leads upward
      simp only [List.length_nil, hdepth] at hwalk
      exact absurd hwalk hup
    | some n =>
      simp only [List.length_nil, hdepth] at hwalk
      cases n with
      | zero => exact absurd (List.length_eq_zero_iff.1 hwalk.2) hne
      | succ n => exact ⟨n, rfl⟩
  · rintro ⟨n, hdepth⟩
    simp only [List.length_nil, hdepth] at hwalk
    obtain ⟨hup, hlength⟩ := hwalk
    refine ⟨?_, hrelative, ?_, ?_⟩
    · rintro rfl
      cases hdepth
    · rw [Ne, hdot, hsettled, List.reverse_eq_nil_iff]
      rintro hnone
      rw [hnone] at hlength
      cases hlength
    · rw [hinside, hsettled, List.mem_reverse]
      exact hup

end Path

namespace Resource

open Path

variable {root path : String}

/-- The components of the normal form of the root stand in front of those of the path. -/
theorem toList_fullPath (hroot : isAbsolute root = false) (h : IsTidy path.toList)
    (hne : path ≠ "") : (ofRootPath root path).fullPath.toList =
      List.intercalate ['/'] (settledComponents root.toList ++ components path.toList) := by
  have hlist : path.toList ≠ [] := by rwa [Ne, String.toList_eq_nil_iff]
  have hpath := h.normalize_eq hne
  have hslashes := rootSlashes_of_isAbsolute hroot
  by_cases hsettled : settledComponents root.toList = []
  · -- the root is the source tree
    have hnone : (ofRootPath root path).fullPath = path := by
      have hdot := (normalize_eq_dot_iff hroot).2 hsettled
      by_cases hempty : root.isEmpty <;> simp [ofRootPath, fullPath, hempty, hdot, hpath]
    rw [hnone, hsettled, List.nil_append, ← h.eq_intercalate]
  · have hnormal : (Path.normalize root).toList =
        List.intercalate ['/'] (settledComponents root.toList) := by
      rw [Path.normalize, String.toList_ofList, normalizeList_relative hslashes, if_neg hsettled]
    obtain ⟨before, c, hc, hlast⟩ := exists_last_of_settledComponents hsettled
    have hempty : root.isEmpty = false := by
      rw [String.isEmpty_eq_false_iff]
      rintro rfl
      exact hsettled rfl
    have hdot := mt (normalize_eq_dot_iff hroot).1 hsettled
    have hnormalNe := normalize_ne_empty root
    have hfull : (ofRootPath root path).fullPath = join (Path.normalize root) path := by
      simp [ofRootPath, fullPath, hempty, hdot, hnormalNe, hpath]
    rw [hfull, toList_join, if_neg h.head?_ne, hnormal, if_neg (by simp [hlast, hc]),
      Path.intercalate_append hsettled (h.components_ne_nil hlist), ← h.eq_intercalate]

end Resource

end Makewright
