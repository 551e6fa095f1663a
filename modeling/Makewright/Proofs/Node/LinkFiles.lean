import Makewright.Proofs.Node.Outputs
import Makewright.Proofs.Node.Reading

/-!
# The names of link inputs

A link command takes in objects of sources and shared libraries under their names without a version.
The last component of such a file says which of the two it is and, for an object, in which language
the source is written (`isFunctional_isLinkFile`). So no file comes with two tags, and two files
with one full path are one file (`IsLinkFile.eq_of_fullPath`).
-/

set_option autoImplicit false

namespace Makewright

variable {dirs : GeneratedDirs} {r : Resource} {tag : Language}

/-- The resource is a file that link commands take in: the object of a source, tagged with its
language, or a shared library under its name without a version. -/
inductive IsLinkFile (dirs : GeneratedDirs) : Resource → Language → Prop
  | object {source : Resource} {tag : Language}
    (hsource : Language.ofSource? source.path = some tag) :
    IsLinkFile dirs (Compilation.objectFor dirs source) tag
  | shared (target : Target) :
    IsLinkFile dirs (target.generated dirs.pkgfileDir (SharedSpec.baseName target)) .none

namespace IsLinkFile

/-- What the last component of a link input tells about it. -/
inductive Named (dirs : GeneratedDirs) (r : Resource) (tag : Language) : Prop
  | object (path : String) (part : List Char) (hroot : r = Resource.ofRootPath dirs.objectDir path)
      (htag : Language.ofSource? (String.ofList part) = some tag)
      (hname : Path.basename r.fullPath = String.ofList (part ++ ['.', 'o']))
  | shared (path : String) (stem : List Char)
      (hroot : r = Resource.ofRootPath dirs.pkgfileDir path) (htag : tag = .none)
      (hname : Path.basename r.fullPath = String.ofList (stem ++ ['.', 's', 'o']))

theorem named (h : IsLinkFile dirs r tag) : Named dirs r tag := by
  cases h with
  | @object source _ hsource =>
    obtain ⟨front, part, hpath, hfront, hpart, htag⟩ :=
      Language.exists_plain_of_ofSource? hsource
    have hobject : source.path ++ ".o" = String.ofList (front ++ (part ++ ['.', 'o'])) := by
      rw [hpath]
      refine String.toList_injective ?_
      simp
    have hplain : Path.IsPlain (part ++ ['.', 'o']) := by
      have ho : 'o' ∈ part ++ ['.', 'o'] := by simp
      refine ⟨List.ne_nil_of_mem ho, ?_, ?_, ?_⟩
      · intro h
        rw [h] at ho
        simp at ho
      · intro h
        rw [h] at ho
        simp [Path.up] at ho
      · simp [hpart.noSlash]
    refine .object _ part rfl htag ?_
    rw [Compilation.objectFor, hobject, Resource.basename_fullPath _ hfront hplain]
  | shared target =>
    obtain ⟨front, stem, hfront, hstem⟩ := SharedSpec.exists_stem target
    obtain ⟨hpart, hpath⟩ := hstem "" (by simp)
    rw [String.append_empty] at hpath
    refine .shared _ stem rfl rfl ?_
    rw [Target.generated, hpath, Resource.basename_fullPath _ hfront hpart]
    simp

end IsLinkFile

/-- The last components of an object and of a shared library differ. -/
theorem object_ne_shared {part stem : List Char} :
    String.ofList (part ++ ['.', 'o']) ≠ String.ofList (stem ++ ['.', 's', 'o']) := by
  intro h
  have hlist := String.ofList_injective h
  have hreverse := congrArg List.reverse hlist
  simp at hreverse

/-- The last component of an object is made from one last component of a source only. -/
theorem object_injective {part other : List Char}
    (h : String.ofList (part ++ ['.', 'o']) = String.ofList (other ++ ['.', 'o'])) :
    part = other :=
  List.append_cancel_right (String.ofList_injective h)

/-- No link input comes with two tags. -/
theorem isFunctional_isLinkFile (dirs : GeneratedDirs) :
    FileSet.IsFunctional (IsLinkFile dirs) := by
  intro r a b ha hb
  cases ha.named with
  | object path part _ htag hname =>
    cases hb.named with
    | object path' other _ htag' hname' =>
      obtain rfl := object_injective (hname.symm.trans hname')
      exact Option.some.inj (htag.symm.trans htag')
    | shared path' stem _ _ hname' => exact absurd (hname.symm.trans hname') object_ne_shared
  | shared path stem _ htag hname =>
    cases hb.named with
    | object path' part _ _ hname' => exact absurd (hname'.symm.trans hname) object_ne_shared
    | shared path' other _ htag' _ => rw [htag, htag']

/-- Below relative directories, link inputs can be told from their full paths. -/
theorem IsLinkFile.eq_of_fullPath {other : Resource} {tag' : Language}
    (hobjects : Path.isAbsolute dirs.objectDir = false)
    (hpackages : Path.isAbsolute dirs.pkgfileDir = false) (h : IsLinkFile dirs r tag)
    (hother : IsLinkFile dirs other tag') (hpath : r.fullPath = other.fullPath) : r = other := by
  have hname := congrArg Path.basename hpath
  cases h.named with
  | object path part hroot _ hpart =>
    cases hother.named with
    | object path' part' hroot' _ _ =>
      rw [hroot, hroot'] at hpath ⊢
      exact Resource.eq_of_fullPath hobjects hpath
    | shared path' stem _ _ hstem =>
      exact absurd (hpart.symm.trans (hname.trans hstem)) object_ne_shared
  | shared path stem hroot _ hstem =>
    cases hother.named with
    | object path' part _ _ hpart =>
      exact absurd (hpart.symm.trans (hname.symm.trans hstem)) object_ne_shared
    | shared path' stem' hroot' _ _ =>
      rw [hroot, hroot'] at hpath ⊢
      exact Resource.eq_of_fullPath hpackages hpath

end Makewright
