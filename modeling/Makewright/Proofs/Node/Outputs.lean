import Makewright.Node.Recipe
import Makewright.Node.Basic
import Makewright.Proofs.Path
import Mathlib.Data.List.Nodup

/-!
# The files of a shared library

The linked file of a shared library and the symbolic links to it lie in one directory. So the text
that a symbolic link is made with, which is the last component of the file before it, leads to that
file when it is followed from the directory of the link (`reads_sibling`).
-/

set_option autoImplicit false

namespace Makewright

/-- The root of a resource does not end in a slash unless it is slashes only. -/
theorem Resource.isBare_root (root path : String) :
    Path.IsBare (ofRootPath root path).root.toList := by
  have hempty : Path.IsBare [] := Or.inl ⟨0, rfl⟩
  unfold ofRootPath
  by_cases hroot : root.isEmpty
  · simpa [hroot] using hempty
  · by_cases hdot : Path.normalize root = "."
    · simpa [hroot, hdot] using hempty
    · simp only [hroot, hdot, if_false, Bool.false_eq_true]
      rw [Path.normalize, String.toList_ofList]
      exact Path.normalizeList_isBare _

/-- Resources under one root whose paths have one front lie in one directory. -/
theorem Resource.exists_directory (root : String) {front : List Char}
    (hfront : Path.IsFront front) :
    ∃ directory, Path.IsDirectory directory ∧ ∀ part, Path.IsPlain part →
      (ofRootPath root (String.ofList (front ++ part))).fullPath =
        String.ofList (directory ++ part) ∧
      (ofRootPath root (String.ofList (front ++ part))).basename = String.ofList part := by
  obtain ⟨inner, hinner, hnormal⟩ := Path.exists_directory hfront
  have hpath : ∀ {part}, Path.IsPlain part →
      Path.normalize (String.ofList (front ++ part)) = String.ofList (inner ++ part) := by
    intro part hpart
    rw [Path.normalize, String.toList_ofList, hnormal part hpart]
  have hbasename : ∀ part, Path.IsPlain part →
      (ofRootPath root (String.ofList (front ++ part))).basename = String.ofList part := by
    intro part hpart
    exact (congrArg Path.basename (hpath hpart)).trans
      (Path.basename_append hinner.isFront hpart.noSlash)
  -- the root does not depend on the path
  have hroot : ∀ path, (ofRootPath root path).root = (ofRootPath root "").root := fun _ => rfl
  by_cases hempty : (ofRootPath root "").root.isEmpty
  · refine ⟨inner, hinner, fun part hpart => ⟨?_, hbasename part hpart⟩⟩
    rw [fullPath, hroot, if_pos hempty]
    exact hpath hpart
  · refine ⟨_, Path.isDirectory_join (isBare_root root "") hinner, fun part hpart =>
      ⟨?_, hbasename part hpart⟩⟩
    rw [fullPath, hroot, if_neg hempty, ← Path.join_append hpart.noSlash]
    exact congrArg _ (hpath hpart)

/-- The last component of a resource is that of its full path. -/
theorem Resource.basename_fullPath (root : String) {front part : List Char}
    (hfront : Path.IsFront front) (hpart : Path.IsPlain part) :
    Path.basename (ofRootPath root (String.ofList (front ++ part))).fullPath =
      String.ofList part := by
  obtain ⟨directory, hdirectory, hfiles⟩ := exists_directory root hfront
  rw [(hfiles part hpart).1, Path.basename_append hdirectory.isFront hpart.noSlash]

/-- Below a relative root, a resource can be told from its full path. -/
theorem Resource.eq_of_fullPath {root p q : String} (hroot : Path.isAbsolute root = false)
    (h : (ofRootPath root p).fullPath = (ofRootPath root q).fullPath) :
    ofRootPath root p = ofRootPath root q := by
  have hbare : Path.isAbsolute (ofRootPath root p).root = false := by
    unfold ofRootPath
    by_cases hempty : root.isEmpty
    · simp only [hempty, if_true]
      rfl
    · by_cases hdot : Path.normalize root = "."
      · simp only [hempty, hdot]
        rfl
      · simp only [hempty, hdot, if_false, Bool.false_eq_true]
        exact Path.isAbsolute_normalize hroot
  -- both resources have one root
  have hsame : (ofRootPath root q).root = (ofRootPath root p).root := rfl
  have hpath : (ofRootPath root p).path = (ofRootPath root q).path := by
    unfold fullPath at h
    rw [hsame] at h
    by_cases hempty : (ofRootPath root p).root.isEmpty
    · rwa [if_pos hempty, if_pos hempty] at h
    · rw [if_neg hempty, if_neg hempty] at h
      refine Path.join_injective hbare ?_ h
      simpa [String.toList_eq_nil_iff] using hempty
  exact congrArg (Resource.mk (ofRootPath root p).root) hpath

namespace SharedSpec

variable {dirs : GeneratedDirs} {target : Target} {spec : SharedSpec}

/-- The numbers of a version consist of digits. -/
theorem isDigit_of_mem_number {n : VersionNumber} {c : Char} (h : c ∈ n.val.toList) :
    Text.isDigit c = true := by
  have hproperty := n.property
  rw [Text.isUnsigned, Bool.and_eq_true] at hproperty
  exact List.all_eq_true.1 hproperty.2 c h

theorem number_ne_nil (n : VersionNumber) : n.val.toList ≠ [] := by
  have hproperty := n.property
  rw [Text.isUnsigned, Bool.and_eq_true] at hproperty
  simpa using hproperty.1

/-- No other character stands among the digits of a version. -/
theorem not_mem_number {c : Char} (hc : Text.isDigit c = false) (n : VersionNumber) :
    c ∉ n.val.toList := by
  intro hmem
  rw [isDigit_of_mem_number hmem] at hc
  cases hc

theorem noSlash_number (n : VersionNumber) : '/' ∉ n.val.toList :=
  not_mem_number (by decide) n

/-- The names of the linked file and of the links to it. -/
def names (target : Target) (spec : SharedSpec) : List String :=
  match spec.version with
  | none => [spec.linkedName target]
  | some _ => [spec.linkedName target, spec.soname target, baseName target]

theorem outputs_eq (dirs : GeneratedDirs) (target : Target) (spec : SharedSpec) :
    spec.outputs dirs target = (spec.names target).map (target.generated dirs.pkgfileDir) := by
  unfold outputs aliases names
  cases spec.version <;> rfl

/-- Every name is that of the library with something behind it. -/
theorem exists_suffix_of_mem_names {name : String} (h : name ∈ spec.names target) :
    ∃ suffix : String, '/' ∉ suffix.toList ∧ name = baseName target ++ suffix := by
  cases hversion : spec.version with
  | none =>
    simp only [names, linkedName, hversion, List.mem_singleton] at h
    exact ⟨"", by simp, by rw [h, String.append_empty]⟩
  | some v =>
    have hmajor := noSlash_number v.major
    have hminor := noSlash_number v.minor
    have hrelease := noSlash_number v.release
    simp only [names, linkedName, soname, hversion, List.mem_cons, List.not_mem_nil,
      or_false] at h
    rcases h with rfl | rfl | rfl
    · refine ⟨"." ++ (v.major.val ++ ("." ++ (v.minor.val ++ ("." ++ v.release.val)))), ?_, ?_⟩
      · simp [hmajor, hminor, hrelease]
      · simp only [String.append_assoc]
    · refine ⟨"." ++ v.major.val, ?_, ?_⟩
      · simp [hmajor]
      · rw [String.append_assoc]
    · exact ⟨"", by simp, by rw [String.append_empty]⟩

/-- A name of the library names a file. -/
theorem isPlain_of_mem_names (htarget : '/' ∉ target.name.toList) {name : String}
    (h : name ∈ spec.names target) : Path.IsPlain name.toList := by
  obtain ⟨suffix, hsuffix, rfl⟩ := exists_suffix_of_mem_names h
  refine .of_mark ?_ (c := 'l') ?_ (by decide)
  · simp [baseName, htarget, hsuffix]
  · simp [baseName]

theorem names_of_version {v : Version} (h : spec.version = some v) (target : Target) :
    spec.names target = [spec.linkedName target, spec.soname target, baseName target] := by
  rw [names, h]

/-- Each name is longer than the one that it stands for. -/
theorem nodup_names (target : Target) (spec : SharedSpec) : (spec.names target).Nodup := by
  cases h : spec.version with
  | none =>
    rw [names, h]
    exact List.nodup_singleton _
  | some v =>
    rw [names_of_version h]
    refine .of_map String.length ?_
    have hdot : ".".length = 1 := rfl
    simp only [linkedName, soname, h, List.map_cons, List.map_nil, String.length_append, hdot,
      List.nodup_cons, List.mem_cons, List.not_mem_nil, or_false, not_false_eq_true,
      List.nodup_nil, and_true]
    omega

/-- The name of every output is that of the library with something behind it. -/
theorem exists_suffix {r : Resource} (hr : r ∈ spec.outputs dirs target) :
    ∃ suffix : String, '/' ∉ suffix.toList ∧
      r = target.generated dirs.pkgfileDir (baseName target ++ suffix) := by
  rw [outputs_eq] at hr
  obtain ⟨name, hname, rfl⟩ := List.mem_map.1 hr
  obtain ⟨suffix, hsuffix, rfl⟩ := exists_suffix_of_mem_names hname
  exact ⟨suffix, hsuffix, rfl⟩

/-- Behind its package, the name of a library has a last component that names a file, also with
something behind the name. -/
theorem exists_stem (target : Target) :
    ∃ front stem, Path.IsFront front ∧ ∀ suffix : String, '/' ∉ suffix.toList →
      Path.IsPlain (stem ++ (".so".toList ++ suffix.toList)) ∧
      Path.join target.package (baseName target ++ suffix) =
        String.ofList (front ++ (stem ++ (".so".toList ++ suffix.toList))) := by
  obtain ⟨before, last, hname, hbefore, hlast⟩ := Path.exists_front ("lib" ++ target.name).toList
  refine ⟨_, last, Path.isFront_join (a := target.package) hbefore, ?_⟩
  intro suffix hsuffix
  have hpart : Path.IsPlain (last ++ (".so".toList ++ suffix.toList)) := by
    refine .of_mark ?_ (c := 's') ?_ (by decide)
    · simp [hlast, hsuffix]
    · simp
  have hbase : baseName target ++ suffix =
      String.ofList (before ++ (last ++ (".so".toList ++ suffix.toList))) := by
    refine String.toList_injective ?_
    rw [String.toList_ofList, baseName, String.toList_append, String.toList_append, hname]
    simp
  refine ⟨hpart, ?_⟩
  rw [hbase, Path.join_append hpart.noSlash]

/-- All outputs lie in one directory, each with a last component of its own. -/
theorem exists_directory (dirs : GeneratedDirs) (target : Target) (spec : SharedSpec) :
    ∃ directory, Path.IsDirectory directory ∧ ∀ r ∈ spec.outputs dirs target, ∃ part, '/' ∉ part ∧
      r.fullPath = String.ofList (directory ++ part) ∧ r.basename = String.ofList part := by
  obtain ⟨front, stem, hfront, hstem⟩ := exists_stem target
  obtain ⟨directory, hdirectory, hfiles⟩ := Resource.exists_directory dirs.pkgfileDir hfront
  refine ⟨directory, hdirectory, ?_⟩
  intro r hr
  obtain ⟨suffix, hsuffix, rfl⟩ := exists_suffix hr
  obtain ⟨hpart, hpath⟩ := hstem suffix hsuffix
  refine ⟨_, hpart.noSlash, ?_⟩
  rw [Target.generated, hpath]
  exact hfiles _ hpart

/-- Files with different names are different files. -/
theorem nodup_outputs (dirs : GeneratedDirs) (spec : SharedSpec) (target : Target) :
    ((spec.outputs dirs target).map Resource.fullPath).Nodup := by
  obtain ⟨front, stem, hfront, hstem⟩ := exists_stem target
  obtain ⟨directory, -, hfiles⟩ := Resource.exists_directory dirs.pkgfileDir hfront
  have hpath : ∀ suffix : String, '/' ∉ suffix.toList →
      (target.generated dirs.pkgfileDir (baseName target ++ suffix)).fullPath.toList =
        directory ++ (stem ++ (".so".toList ++ suffix.toList)) := by
    intro suffix hsuffix
    obtain ⟨hpart, hjoin⟩ := hstem suffix hsuffix
    rw [Target.generated, hjoin, (hfiles _ hpart).1, String.toList_ofList]
  rw [outputs_eq, List.map_map]
  refine (nodup_names target spec).map_on ?_
  intro x hx y hy hsame
  obtain ⟨first, hfirst, rfl⟩ := exists_suffix_of_mem_names hx
  obtain ⟨second, hsecond, rfl⟩ := exists_suffix_of_mem_names hy
  have hlists := congrArg String.toList hsame
  rw [Function.comp_apply, Function.comp_apply, hpath first hfirst, hpath second hsecond] at hlists
  have hsuffix : first.toList = second.toList := by simpa using hlists
  rw [String.toList_injective hsuffix]

/-- The last component of an output leads to it from the directory of any other output. -/
theorem reads_sibling {made r : Resource} (hmade : made ∈ spec.outputs dirs target)
    (hr : r ∈ spec.outputs dirs target) :
    Word.reads? made.fullPath (.sibling r) = some r.fullPath := by
  obtain ⟨directory, hdirectory, hfiles⟩ := exists_directory dirs target spec
  obtain ⟨part, hpart, hmadePath, -⟩ := hfiles made hmade
  obtain ⟨other, hother, hrPath, hbasename⟩ := hfiles r hr
  rw [Word.reads?, hmadePath, hbasename, hrPath, Path.join_dirname hdirectory hpart hother]

end SharedSpec

end Makewright
