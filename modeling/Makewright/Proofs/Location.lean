import Makewright.Location
import Makewright.Proofs.Path

/-!
# Locations and the texts that name them

A location that is read from a text is well-formed (`wellFormed_parse`), and the text of a
well-formed location names the same location again (`parse_render`). A plain name seen from a
location is one component more behind it.
-/

set_option autoImplicit false

namespace Makewright

namespace Path

variable {parts : List (List Char)} {text : List Char}

/-- The component is kept when a path is taken apart. -/
structure IsComponent (part : List Char) : Prop where
  ne_nil : part ≠ []
  ne_dot : part ≠ ['.']
  noSlash : '/' ∉ part

theorem IsPlain.isComponent {part : List Char} (h : IsPlain part) : IsComponent part :=
  ⟨h.ne_nil, h.ne_dot, h.noSlash⟩

theorem isComponent_of_mem {part : List Char} (h : part ∈ components text) : IsComponent part := by
  obtain ⟨hsplit, hkept⟩ := List.mem_filter.1 h
  simp only [Bool.and_eq_true, Bool.not_eq_true', List.isEmpty_eq_false_iff, bne_iff_ne] at hkept
  exact ⟨hkept.1, hkept.2, Text.not_mem_of_mem_splitOn hsplit⟩

theorem rootSlashes_le (text : List Char) : rootSlashes text ≤ 2 := by
  unfold rootSlashes
  split <;> decide

/-- Leading slashes add no component. -/
theorem components_replicate_append (n : Nat) :
    components (List.replicate n '/' ++ text) = components text := by
  induction n with
  | zero => rfl
  | succ n ih =>
    rw [List.replicate_succ, List.cons_append, components, List.splitOn_cons_eq_if_modifyHead,
      if_pos (beq_self_eq_true _)]
    exact ih

theorem components_intercalate (h : ∀ part ∈ parts, IsComponent part) :
    components (List.intercalate ['/'] parts) = parts := by
  rcases eq_or_ne parts [] with rfl | hne
  · rfl
  · rw [components, List.splitOn_intercalate '/' (fun part hpart => (h part hpart).noSlash) hne]
    refine List.filter_eq_self.2 fun part hpart => ?_
    simp [(h part hpart).ne_nil, (h part hpart).ne_dot]

/-- What stands between the slashes of a path does not start with one. -/
theorem head?_intercalate_ne (h : ∀ part ∈ parts, IsComponent part) :
    (List.intercalate ['/'] parts).head? ≠ some '/' := by
  cases parts with
  | nil => simp
  | cons first rest =>
    have hfirst := h first List.mem_cons_self
    obtain ⟨c, others, rfl⟩ := List.exists_cons_of_ne_nil hfirst.ne_nil
    have hc : c ≠ '/' := fun hslash => hfirst.noSlash (hslash ▸ List.mem_cons_self)
    cases rest <;> simpa [List.intercalate_cons_cons] using hc

theorem rootSlashes_replicate_append {n : Nat} (hn : n ≤ 2) (h : text.head? ≠ some '/') :
    rootSlashes (List.replicate n '/' ++ text) = n := by
  have htext : ∀ rest, text ≠ '/' :: rest := by
    rintro rest rfl
    exact h rfl
  match n, hn with
  | 0, _ => cases text <;> simp_all [rootSlashes]
  | 1, _ => cases text <;> simp_all [rootSlashes]
  | 2, _ => cases text <;> simp_all [rootSlashes]

end Path

namespace Location

open Makewright.Path

variable {l : Location} {name : String}

/-- The location is as one is read from a text. -/
structure WellFormed (l : Location) : Prop where
  slashes_le : l.slashes ≤ 2
  isComponent : ∀ part ∈ l.parts.map String.toList, IsComponent part

theorem wellFormed_parse (text : String) : (parse text).WellFormed := by
  refine ⟨rootSlashes_le _, fun part hpart => ?_⟩
  rw [parse, List.map_map] at hpart
  obtain ⟨component, hcomponent, rfl⟩ := List.mem_map.1 hpart
  simpa using isComponent_of_mem hcomponent

/-- What a text names, seen from a well-formed location, is well-formed. -/
theorem WellFormed.child (h : l.WellFormed) (text : String) : (l.child text).WellFormed := by
  have hparse := wellFormed_parse text
  unfold Location.child join
  split_ifs
  · exact hparse
  · refine ⟨h.slashes_le, fun part hpart => ?_⟩
    rw [List.map_append] at hpart
    rcases List.mem_append.1 hpart with hpart | hpart
    · exact h.isComponent part hpart
    · exact hparse.isComponent part hpart

theorem WellFormed.noSlash_name (h : l.WellFormed) : '/' ∉ l.name.toList := by
  rw [name, List.getLastD_eq_getLast?]
  cases hlast : l.parts.getLast? with
  | none => exact List.not_mem_nil
  | some part =>
    exact (h.isComponent _ (List.mem_map_of_mem (List.mem_of_getLast? hlast))).noSlash

/-- The text of a well-formed location names it. -/
theorem parse_render (h : l.WellFormed) : parse l.render = l := by
  have hrender : l.render =
      if (String.ofList (List.replicate l.slashes '/') ++ "/".intercalate l.parts).isEmpty then "."
      else String.ofList (List.replicate l.slashes '/') ++ "/".intercalate l.parts := rfl
  generalize htext : String.ofList (List.replicate l.slashes '/') ++ "/".intercalate l.parts = text
    at hrender
  have hlist : text.toList =
      List.replicate l.slashes '/' ++ List.intercalate ['/'] (l.parts.map String.toList) := by
    rw [← htext, String.toList_append, String.toList_ofList, String.toList_intercalate]
    rfl
  have hparse : parse text = l := by
    rw [parse, hlist, components_replicate_append, components_intercalate h.isComponent,
      rootSlashes_replicate_append h.slashes_le (head?_intercalate_ne h.isComponent), List.map_map]
    simp [Function.comp_def]
  rw [hrender]
  by_cases hempty : text.isEmpty
  · -- only the relative location without components has no text of its own
    rw [if_pos hempty, ← hparse, String.isEmpty_iff.1 hempty]
    rfl
  · rw [if_neg hempty]
    exact hparse

/-! ## Plain names -/

theorem parse_plain (h : IsPlain name.toList) : parse name = ⟨0, [name]⟩ := by
  have hroot : rootSlashes ([] ++ name.toList) = 0 := rootSlashes_append h
  have hparts : components ([] ++ name.toList) = [name.toList] := components_append (Or.inl rfl) h
  rw [List.nil_append] at hroot hparts
  rw [parse, hroot, hparts]
  simp

theorem child_plain (h : IsPlain name.toList) :
    l.child name = ⟨l.slashes, l.parts ++ [name]⟩ := by
  rw [child, parse_plain h]
  rfl

theorem settled_child_plain (h : IsPlain name.toList) :
    (l.child name).settled = l.settled ++ [name] := by
  have hne : name ≠ ".." := by
    rintro rfl
    exact h.ne_up rfl
  rw [Location.child_plain h, settled, List.foldl_append, List.foldl_cons, List.foldl_nil,
    if_neg hne]
  rfl

/-- Plain names seen from one location lead to different places on every disk. -/
theorem child_plain_injective {other : String} (h : IsPlain name.toList)
    (hother : IsPlain other.toList) (hplace : (l.child name).settled = (l.child other).settled) :
    l.child name = l.child other := by
  rw [settled_child_plain h, settled_child_plain hother] at hplace
  rw [List.singleton_inj.1 (List.append_inj' hplace rfl).2]

end Location

end Makewright
