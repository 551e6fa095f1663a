import Makewright.Proofs.Settings

/-!
# Directories and what lies in them

A path lies within a directory if its components start with those of the directory (`Path.Within`).
The components of what a node generates are those of the normal form of a root, of the package of the
node and of a name (`Node.Confined.components_generated`), so that it lies within another directory
below the same root exactly if it does so seen from the root.
-/

set_option autoImplicit false

namespace Makewright

namespace Path

variable {front path : List Char} {directory place other name : String}

/-- The path names the directory or a place in it, component by component. -/
def Within (directory path : String) : Prop :=
  components directory.toList <+: components path.toList

instance (directory path : String) : Decidable (Within directory path) :=
  inferInstanceAs (Decidable (_ <+: _))

/-- Neither directory lies within the other, as they are in normal form. -/
structure Apart (a b : String) : Prop where
  left : ¬ Within (Path.normalize a) (Path.normalize b)
  right : ¬ Within (Path.normalize b) (Path.normalize a)

/-- Two directories that something lies within are not apart. -/
theorem Within.not_apart (h : Within (Path.normalize directory) place)
    (hother : Within (Path.normalize other) place) : ¬ Apart directory other := by
  rintro ⟨hleft, hright⟩
  rcases List.prefix_or_prefix_of_prefix h hother with hwithin | hwithin
  · exact hleft hwithin
  · exact hright hwithin

/-! ## Components of paths that are put together -/

theorem components_normalize (h : isAbsolute place = false) :
    components (Path.normalize place).toList = settledComponents place.toList := by
  rw [Path.normalize, String.toList_ofList, components_normalizeList (rootSlashes_of_isAbsolute h)]

/-- A name behind a tidy path is one component more. -/
theorem components_join (h : IsTidy directory.toList) (hname : IsPlain name.toList) :
    components (join directory name).toList = components directory.toList ++ [name.toList] := by
  rw [h.toList_join hname.isTidy.isAbsolute_eq]
  split
  · next hempty => rw [hempty, hname.components_eq]; rfl
  · rw [components_append_cons, hname.components_eq]

/-- What is written behind a tidy path belongs to its last component. -/
theorem IsTidy.exists_components_append (h : IsTidy path) (hne : path ≠ []) (suffix : List Char)
    (hslash : '/' ∉ suffix) {c : Char} (hc : c ∈ suffix) (hdot : c ≠ '.') :
    ∃ earlier last, components path = earlier ++ [last] ∧
      components (path ++ suffix) = earlier ++ [last ++ suffix] := by
  obtain ⟨earlier, last, hlast⟩ :=
    (List.eq_nil_or_concat (components path)).resolve_left (h.components_ne_nil hne)
  rw [List.concat_eq_append] at hlast
  have hplain := h.isPlain
  rw [hlast, List.forall_mem_append, List.forall_mem_singleton] at hplain
  -- with a mark that is no dot, the longer component is neither a dot nor leads upward
  have hmarked : IsPlain (last ++ suffix) := by
    refine .of_mark ?_ (List.mem_append_right last hc) hdot
    exact fun hmem => (List.mem_append.1 hmem).elim hplain.2.noSlash hslash
  have hpath : path ++ suffix = List.intercalate ['/'] (earlier ++ [last ++ suffix]) := by
    rw [h.eq_intercalate, hlast]
    by_cases hearlier : earlier = []
    · simp [hearlier]
    · rw [intercalate_append_singleton hearlier, intercalate_append_singleton hearlier]
      simp only [List.append_assoc]
  refine ⟨earlier, last, hlast, ?_⟩
  rw [hpath, components_intercalate]
  simp only [List.forall_mem_append, List.forall_mem_singleton]
  exact ⟨fun part hpart => (hplain.1 part hpart).isComponent, hmarked.isComponent⟩

end Path

open Path

/-- Below a relative root, a tidy path keeps its components. -/
theorem Resource.components_fullPath {root path : String} (hroot : isAbsolute root = false)
    (h : IsTidy path.toList) (hne : path ≠ "") :
    components (ofRootPath root path).fullPath.toList =
      components (Path.normalize root).toList ++ components path.toList := by
  rw [toList_fullPath hroot h hne, components_normalize hroot, components_intercalate]
  intro part hpart
  rcases List.mem_append.1 hpart with hpart | hpart
  · exact isComponent_of_mem_settled hpart
  · exact isComponent_of_mem hpart

namespace Node.Confined

variable {node : Node} (h : node.Confined)

include h

/-- The components of a generated file: those of the root, those of the package and the name. -/
theorem components_generated {root name : String} (hroot : isAbsolute root = false)
    (hname : IsPlain name.toList) : components (node.target.generated root name).fullPath.toList =
      components (Path.normalize root).toList ++
        (components node.target.package.toList ++ [name.toList]) := by
  have hne : name ≠ "" := fun hempty => hname.ne_nil (String.toList_eq_nil_iff.2 hempty)
  rw [Target.generated, Resource.components_fullPath hroot
    (h.package.isTidy_join hname.isTidy hne) (join_ne_empty _ hne), components_join h.package hname]

theorem components_userTarget : components node.userTarget.toList =
    components node.target.package.toList ++ [node.target.name.toList] := by
  rw [h.userTarget_eq, components_join h.package h.name]

/-- The components of an object: those of the root and those of the source, of which the last one is
longer. -/
theorem exists_components_object {dirs : GeneratedDirs} (hroot : isAbsolute dirs.objectDir = false)
    {c : Compilation} (hc : node.body.compilation? = some c) {r : Resource}
    (hr : r ∈ c.sources.toList) : ∃ earlier last,
      components r.path.toList = earlier ++ [last] ∧
      components (Compilation.objectFor dirs r).fullPath.toList =
        components (Path.normalize dirs.objectDir).toList ++ (earlier ++ [last ++ ".o".toList]) := by
  have hsource := h.sources c hc r hr
  have hne : r.path.toList ≠ [] := by
    rw [Ne, String.toList_eq_nil_iff]
    exact hsource.ne_empty
  obtain ⟨earlier, last, hlast, hobject⟩ := hsource.isTidy.exists_components_append hne
    ".o".toList (by decide) (c := 'o') (by decide) (by decide)
  refine ⟨earlier, last, hlast, ?_⟩
  rw [Compilation.objectFor, Resource.components_fullPath hroot hsource.isTidy_object (by simp),
    String.toList_append, hobject]

end Node.Confined

end Makewright
