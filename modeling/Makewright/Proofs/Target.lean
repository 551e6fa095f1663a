import Makewright.Proofs.Location
import Makewright.Proofs.Outcome
import Makewright.Proofs.Text
import Makewright.Target

/-!
# Packages that targets name

A reference to a target names its package in normal form (`Target.isTidy_parse`): components with
slashes between them, of which none leads upward. So different packages are different directories,
and the package can be told from the place of its directory (`Location.settled_child_tidy`).
-/

set_option autoImplicit false

namespace Makewright

namespace Path

variable {parts : List (List Char)} {path : List Char}

/-- The path consists of its components with slashes between them, and none of them leads
upward. -/
structure IsTidy (path : List Char) : Prop where
  eq_intercalate : path = List.intercalate ['/'] (components path)
  isPlain : ∀ part ∈ components path, IsPlain part

theorem isTidy_nil : IsTidy [] :=
  ⟨rfl, nofun⟩

theorem isTidy_intercalate (h : ∀ part ∈ parts, IsPlain part) :
    IsTidy (List.intercalate ['/'] parts) := by
  have hparts := components_intercalate fun part hpart => (h part hpart).isComponent
  exact ⟨by rw [hparts], by rwa [hparts]⟩

theorem IsTidy.head?_ne (h : IsTidy path) : path.head? ≠ some '/' := by
  rw [h.eq_intercalate]
  exact head?_intercalate_ne fun part hpart => (h.isPlain part hpart).isComponent

theorem IsTidy.rootSlashes_eq (h : IsTidy path) : rootSlashes path = 0 :=
  rootSlashes_replicate_append (Nat.zero_le 2) h.head?_ne

/-- A component that names a file is a tidy path. -/
theorem IsPlain.isTidy {part : List Char} (h : IsPlain part) : IsTidy part := by
  have hparts : ∀ other ∈ [part], IsPlain other := List.forall_mem_singleton.2 h
  simpa using isTidy_intercalate hparts

theorem intercalate_append {xs ys : List (List Char)} (hxs : xs ≠ []) (hys : ys ≠ []) :
    List.intercalate ['/'] (xs ++ ys) =
      List.intercalate ['/'] xs ++ '/' :: List.intercalate ['/'] ys := by
  rw [Text.intercalate_append ['/'] hxs hys, List.singleton_append]

theorem IsTidy.components_ne_nil (h : IsTidy path) (hne : path ≠ []) : components path ≠ [] := by
  intro hnil
  apply hne
  rw [h.eq_intercalate, hnil]
  rfl

/-- A tidy path behind another one. -/
theorem IsTidy.append {front : List Char} (hfront : IsTidy front) (hfrontNe : front ≠ [])
    (h : IsTidy path) (hne : path ≠ []) : IsTidy (front ++ '/' :: path) := by
  have hplain : ∀ part ∈ components front ++ components path, IsPlain part :=
    List.forall_mem_append.2 ⟨hfront.isPlain, h.isPlain⟩
  have hparts := isTidy_intercalate hplain
  rwa [intercalate_append (hfront.components_ne_nil hfrontNe) (h.components_ne_nil hne),
    ← hfront.eq_intercalate, ← h.eq_intercalate] at hparts

/-- A tidy path ends in a component that names a file. -/
theorem IsTidy.exists_last (h : IsTidy path) (hne : path ≠ []) :
    ∃ front last, path = front ++ last ∧ IsPlain last ∧
      ∀ other, IsPlain other → IsTidy (front ++ other) := by
  obtain ⟨earlier, last, hlast⟩ :=
    (List.eq_nil_or_concat (components path)).resolve_left (h.components_ne_nil hne)
  rw [List.concat_eq_append] at hlast
  have hplain := h.isPlain
  rw [hlast, List.forall_mem_append, List.forall_mem_singleton] at hplain
  have htidy : ∀ other, IsPlain other → IsTidy (List.intercalate ['/'] (earlier ++ [other])) :=
    fun other hother => isTidy_intercalate
      (List.forall_mem_append.2 ⟨hplain.1, List.forall_mem_singleton.2 hother⟩)
  have hpath : path = List.intercalate ['/'] (earlier ++ [last]) := by
    rw [← hlast]
    exact h.eq_intercalate
  by_cases hearlier : earlier = []
  · subst hearlier
    exact ⟨[], last, by simpa using hpath, hplain.2, by simpa using htidy⟩
  · refine ⟨List.intercalate ['/'] earlier ++ ['/'], last, ?_, hplain.2, ?_⟩
    · rw [hpath, intercalate_append_singleton hearlier]
    · intro other hother
      rw [← intercalate_append_singleton hearlier]
      exact htidy other hother

/-- A tidy path does not end in a slash. -/
theorem IsTidy.getLast?_ne {path : List Char} (h : IsTidy path) : path.getLast? ≠ some '/' := by
  by_cases hne : path = []
  · simp [hne]
  · obtain ⟨front, last, rfl, hlast, -⟩ := h.exists_last hne
    rw [List.getLast?_append_of_ne_nil _ hlast.ne_nil]
    exact fun hslash => hlast.noSlash (List.mem_of_getLast? hslash)

theorem IsTidy.append_mark (h : IsTidy path) (hne : path ≠ []) {suffix : List Char}
    (hslash : '/' ∉ suffix) {c : Char} (hc : c ∈ suffix) (hdot : c ≠ '.') :
    IsTidy (path ++ suffix) := by
  obtain ⟨front, last, rfl, hlast, hother⟩ := h.exists_last hne
  rw [List.append_assoc]
  apply hother
  refine .of_mark ?_ (List.mem_append_right last hc) hdot
  exact fun hmem => (List.mem_append.1 hmem).elim hlast.noSlash hslash

theorem foldl_settle_of_forall {rooted : Bool} {parts settled : List (List Char)}
    (h : ∀ part ∈ parts, part ≠ up) :
    parts.foldl (settle rooted) settled = parts.reverse ++ settled := by
  induction parts generalizing settled with
  | nil => rfl
  | cons part rest ih =>
    obtain ⟨hpart, hrest⟩ := List.forall_mem_cons.1 h
    rw [List.foldl_cons, settle_of_ne_up hpart, ih hrest]
    simp

/-- A tidy path is in normal form. -/
theorem IsTidy.normalizeList_eq (h : IsTidy path) (hne : path ≠ []) :
    normalizeList path = path := by
  have hsettled : settledComponents path = components path := by
    rw [settledComponents, foldl_settle_of_forall fun part hpart => (h.isPlain part hpart).ne_up]
    simp
  unfold normalizeList
  rw [hsettled, h.rootSlashes_eq, List.replicate_zero, List.nil_append, ← h.eq_intercalate]
  exact if_neg (by simpa using hne)

/-- In a relative path the components that lead upward come first. They are held last first, so if
there is one, the last one is. -/
theorem getLast?_settle {settled : List (List Char)} {part : List Char}
    (h : up ∈ settled → settled.getLast? = some up) (hup : up ∈ settle false settled part) :
    (settle false settled part).getLast? = some up := by
  by_cases hpart : part = up
  · subst hpart
    unfold settle at hup ⊢
    rw [if_pos rfl] at hup ⊢
    cases settled with
    | nil => rfl
    | cons last earlier =>
      -- a step up is kept on top of steps up only; any other component is taken off by it
      by_cases hlast : last = up
      · simp only [if_pos hlast] at hup ⊢
        rw [List.getLast?_cons_cons]
        exact h (hlast ▸ List.mem_cons_self)
      · simp only [if_neg hlast] at hup ⊢
        have hbefore := h (List.mem_cons_of_mem last hup)
        obtain ⟨first, rest, rfl⟩ := List.exists_cons_of_ne_nil (List.ne_nil_of_mem hup)
        rwa [List.getLast?_cons_cons] at hbefore
  · rw [settle_of_ne_up hpart] at hup ⊢
    have hold : up ∈ settled := (List.mem_cons.1 hup).resolve_left (Ne.symm hpart)
    obtain ⟨first, rest, rfl⟩ := List.exists_cons_of_ne_nil (List.ne_nil_of_mem hold)
    rw [List.getLast?_cons_cons]
    exact h hold

theorem getLast?_foldl_settle {settled : List (List Char)}
    (h : up ∈ settled → settled.getLast? = some up)
    (hup : up ∈ parts.foldl (settle false) settled) :
    (parts.foldl (settle false) settled).getLast? = some up := by
  induction parts generalizing settled with
  | nil => exact h hup
  | cons part rest ih => exact ih (getLast?_settle h) hup

theorem isComponent_of_mem_settled {part : List Char} (h : part ∈ settledComponents path) :
    IsComponent part := by
  rcases mem_foldl_settle (List.mem_reverse.1 h) with hcomponent | hnone
  · exact isComponent_of_mem hcomponent
  · cases hnone

/-- The normal form of a relative path consists of its settled components. -/
theorem normalizeList_relative (hroot : rootSlashes path = 0) :
    normalizeList path = if settledComponents path = [] then ['.']
      else List.intercalate ['/'] (settledComponents path) := by
  unfold normalizeList
  rw [hroot, List.replicate_zero, List.nil_append]
  by_cases hsettled : settledComponents path = []
  · simp [hsettled]
  · obtain ⟨before, c, -, hlast⟩ := exists_last_of_settledComponents hsettled
    rw [if_neg (by simp [hlast]), if_neg hsettled]

/-- A relative path that does not start upward is tidy in its normal form, unless that is a dot. -/
theorem isTidy_normalizeList (hroot : rootSlashes path = 0)
    (hup : up.isPrefixOf (normalizeList path) = false) (hdot : normalizeList path ≠ ['.']) :
    IsTidy (normalizeList path) := by
  rw [normalizeList_relative hroot] at hup hdot ⊢
  have hne : settledComponents path ≠ [] := fun hnone => hdot (if_pos hnone)
  rw [if_neg hne] at hup ⊢
  refine isTidy_intercalate fun part hpart => ?_
  obtain ⟨hpartNe, hpartDot, hslash⟩ := isComponent_of_mem_settled hpart
  refine ⟨hpartNe, hpartDot, ?_, hslash⟩
  rintro rfl
  -- the first component leads upward then
  have hfirst : (settledComponents path).head? = some up := by
    unfold settledComponents at hpart ⊢
    rw [hroot] at hpart ⊢
    rw [List.head?_reverse]
    exact getLast?_foldl_settle nofun (List.mem_reverse.1 hpart)
  obtain ⟨rest, hrest⟩ := List.head?_eq_some_iff.1 hfirst
  rw [hrest] at hup
  cases rest with
  | nil => simp [up] at hup
  | cons second others =>
    rw [List.intercalate_cons_cons] at hup
    simp [up] at hup

end Path

namespace Location

open Makewright.Path

variable {l : Location}

/-- Components that do not lead upward are put behind the settled ones. -/
theorem settled_append {slashes : Nat} {front back : List String} (h : ".." ∉ back) :
    (Location.mk slashes (front ++ back)).settled =
      (Location.mk slashes front).settled ++ back := by
  induction back using List.reverseRecOn with
  | nil => rw [List.append_nil, List.append_nil]
  | append_singleton back part ih =>
    rw [List.mem_append, List.mem_singleton, not_or] at h
    rw [← List.append_assoc, ← List.append_assoc, ← ih h.1, settled, List.foldl_append,
      List.foldl_cons, List.foldl_nil, if_neg (Ne.symm h.2)]
    rfl

/-- The place of a directory that is named by a tidy path. -/
theorem settled_child_tidy {path : String} (h : IsTidy path.toList) :
    (l.child path).settled = l.settled ++ (components path.toList).map String.ofList := by
  have hparse : parse path = ⟨0, (components path.toList).map String.ofList⟩ := by
    rw [parse, h.rootSlashes_eq]
  rw [child, hparse]
  refine settled_append fun hup => ?_
  obtain ⟨part, hpart, hdots⟩ := List.mem_map.1 hup
  refine (h.isPlain part hpart).ne_up ?_
  rw [← String.toList_ofList (l := part), hdots]
  rfl

end Location

namespace Target

open Makewright.Path

/-- A package is tidy in its normal form. -/
theorem isTidy_normalizePackage {text package : String}
    (h : normalizePackage text = .ok package) : IsTidy package.toList := by
  unfold normalizePackage at h
  have hhead := Text.head?_strip (· == '/') (Text.trim text)
  simp only at h
  generalize Text.strip (· == '/') (Text.trim text) = bare at h hhead
  have hroot : rootSlashes ([] ++ bare.toList) = 0 := by
    refine rootSlashes_replicate_append (Nat.zero_le 2) ?_
    intro hslash
    simpa using hhead '/' hslash
  split_ifs at h with hempty hup hdot
  · cases h
    exact isTidy_nil
  · cases h
    exact isTidy_nil
  · cases h
    rw [Path.normalize, String.toList_ofList]
    refine isTidy_normalizeList hroot ?_ ?_
    · rw [Bool.not_eq_true, startsUpward, Path.normalize, String.toList_ofList] at hup
      exact hup
    · intro hsingle
      exact hdot (by rw [Path.normalize, hsingle])

/-- The package of a target that is named by a reference is tidy. -/
theorem isTidy_parse {reference current : String} {t : Target}
    (h : parse reference current = .ok t) : IsTidy t.package.toList := by
  unfold parse at h
  simp only at h
  split_ifs at h
  obtain ⟨package, hpackage, rfl⟩ := exists_of_map_eq_ok h
  exact isTidy_normalizePackage hpackage

end Target

end Makewright
