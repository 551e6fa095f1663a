import Makewright.Proofs.Node.Containment

/-!
# Private build directories

A package with its own configure script is built in a directory below the one for objects, which its
rule empties. Nothing that another node generates lies in there as long as the directories for
generated files do not lie in each other and the other node keeps clear of the directory that is
named like the build directory, be it seen from the root of the workspace
(`Node.Confined.not_within_buildDir`).
-/

set_option autoImplicit false

namespace Makewright

open Path

variable {dirs : GeneratedDirs} {node other : Node} {name : String}

/-- The directory that a package with its own configure script is copied from. -/
def Body.sourceDir? : Body → Option String
  | .autoconf spec => some spec.sourceDir
  | _ => none

/-- Every directory for generated files is that of the objects or lies apart from it. -/
structure GeneratedDirs.SideBySide (dirs : GeneratedDirs) : Prop where
  genfileDir : Path.normalize dirs.objectDir = Path.normalize dirs.genfileDir ∨
    Apart dirs.objectDir dirs.genfileDir
  pkgfileDir : Path.normalize dirs.objectDir = Path.normalize dirs.pkgfileDir ∨
    Apart dirs.objectDir dirs.pkgfileDir

/-- The directory that is named like the build directory of a target, seen from the root of the
workspace. -/
def Target.buildPath (target : Target) : String :=
  join target.package (target.name ++ ".build")

/-- The path of the other node is neither in the build directory of a node nor in the directory of
the workspace that is named like it, and no source of the other node is there. -/
structure Node.KeepsClear (dirs : GeneratedDirs) (node other : Node) : Prop where
  path : ¬ Within node.target.buildPath other.userTarget
  sources : ∀ c ∈ other.body.compilation?, ∀ r ∈ c.sources.toList,
    ¬ Within node.target.buildPath r.path
  generated : ¬ Within (AutoconfSpec.buildDir dirs node.target).fullPath other.userTarget

instance : Decidable (node.KeepsClear dirs other) :=
  decidable_of_iff (_ ∧ _ ∧ _) ⟨fun ⟨hpath, hsources, hgenerated⟩ => ⟨hpath, hsources, hgenerated⟩,
    fun h => ⟨h.path, h.sources, h.generated⟩⟩

namespace SharedSpec

/-- No name of a library ends like that of a build directory. -/
theorem getLast?_ne_of_mem_names {target : Target} {spec : SharedSpec}
    (h : name ∈ spec.names target) : name.toList.getLast? ≠ some 'd' := by
  have hnumber : ∀ (front : String) (n : VersionNumber),
      (front ++ n.val).toList.getLast? ≠ some 'd' := by
    intro front n hlast
    rw [String.toList_append, List.getLast?_append_of_ne_nil _ (number_ne_nil n)] at hlast
    exact absurd (isDigit_of_mem_number (List.mem_of_getLast? hlast)) (by decide)
  have hbase : (baseName target).toList.getLast? ≠ some 'd' := by
    rw [baseName, String.toList_append, List.getLast?_append_of_ne_nil _ (by decide)]
    decide
  cases hversion : spec.version with
  | none =>
    simp only [names, linkedName, hversion, List.mem_singleton] at h
    exact h ▸ hbase
  | some v =>
    simp only [names, linkedName, soname, hversion, List.mem_cons, List.not_mem_nil,
      or_false] at h
    rcases h with rfl | rfl | rfl
    · exact hnumber _ v.release
    · exact hnumber _ v.major
    · exact hbase

end SharedSpec

/-- A name that is made like that of a build directory is that of the build directory of the target,
or its own. -/
theorem Target.Names.cases_build {target : Target} (h : target.Names name) {start : String}
    (hname : name = start ++ ".build") :
    name = target.name ∨ name = target.name ++ ".build" := by
  have hlast : name.toList.getLast? = some 'd' := by simp [hname]
  cases h with
  | self => exact .inl rfl
  | build => exact .inr rfl
  | done => simp at hlast
  | library hlibrary => exact absurd hlast (SharedSpec.getLast?_ne_of_mem_names hlibrary)

namespace Node.Confined

variable (h : node.Confined) (hother : other.Confined)

include h

theorem components_buildPath : components node.target.buildPath.toList =
    components node.target.package.toList ++ [(node.target.name ++ ".build").toList] :=
  components_join h.package (h.isPlain_of_names .build)

theorem components_buildDir (hdirs : dirs.Relative) :
    components (AutoconfSpec.buildDir dirs node.target).fullPath.toList =
      components (Path.normalize dirs.objectDir).toList ++
        components node.target.buildPath.toList := by
  rw [h.components_buildPath]
  exact h.components_generated hdirs.objectDir (h.isPlain_of_names .build)

/-- The build directory lies in the directory for objects. -/
theorem within_buildDir (hdirs : dirs.Relative) :
    Within (Path.normalize dirs.objectDir) (AutoconfSpec.buildDir dirs node.target).fullPath := by
  rw [Within, h.components_buildDir hdirs]
  exact List.prefix_append _ _

/-- The build directory lies in a directory that is apart from that of the objects at no time. -/
theorem not_within_of_apart (hdirs : dirs.Relative) {source : String}
    (hsource : ¬ Within source (Path.normalize dirs.objectDir))
    (hobjects : ¬ Within (Path.normalize dirs.objectDir) source) :
    ¬ Within source (AutoconfSpec.buildDir dirs node.target).fullPath := by
  intro hwithin
  rcases List.prefix_or_prefix_of_prefix hwithin (h.within_buildDir hdirs) with hin | hin
  · exact hsource hin
  · exact hobjects hin

include hother

/-- What lies in the build directory and is generated below some root lies below the root as it does
below the directory for objects. -/
theorem within_of_generated (hdirs : dirs.Relative) {root : String}
    (hroot : isAbsolute root = false)
    (hbeside : Path.normalize dirs.objectDir = Path.normalize root ∨ Apart dirs.objectDir root)
    (hname : IsPlain name.toList)
    (hwithin : Within (AutoconfSpec.buildDir dirs node.target).fullPath
      (other.target.generated root name).fullPath) :
    Within node.target.buildPath (join other.target.package name) := by
  have hobjects : Within (Path.normalize dirs.objectDir)
      (other.target.generated root name).fullPath := (h.within_buildDir hdirs).trans hwithin
  have hgenerated := hother.components_generated hroot hname
  rcases hbeside with hsame | hapart
  · -- below one root, both are compared as seen from it
    rw [Within, h.components_buildDir hdirs, hgenerated, hsame] at hwithin
    rw [Within, components_join hother.package hname]
    exact (List.prefix_append_right_inj _).1 hwithin
  · -- nothing lies in two directories that are apart
    have hin : Within (Path.normalize root) (other.target.generated root name).fullPath := by
      rw [Within, hgenerated]
      exact List.prefix_append _ _
    exact absurd hapart (hobjects.not_apart hin)

/-- No file or directory with a name of the other target is in the directory that is named like the
build directory. -/
theorem not_within_file (hclear : node.KeepsClear dirs other) (hne : other.target ≠ node.target)
    (hname : other.target.Names name) :
    ¬ Within node.target.buildPath (join other.target.package name) := by
  intro hwithin
  have hpath := hclear.path
  rw [Within, hother.components_userTarget] at hpath
  rw [Within, components_join hother.package (hother.isPlain_of_names hname),
    List.prefix_concat_iff] at hwithin
  rcases hwithin with heq | hin
  · rw [h.components_buildPath] at heq
    obtain ⟨hpackage, hlast⟩ := List.append_inj' heq rfl
    have hbuild : name = node.target.name ++ ".build" :=
      String.toList_injective (List.singleton_inj.1 hlast).symm
    rcases hname.cases_build hbuild with hself | hmarked
    · rw [h.components_buildPath, hpackage, ← hbuild, hself] at hpath
      exact hpath (List.prefix_refl _)
    · -- both targets have one name and one package
      have hsamePackage : other.target.package = node.target.package := by
        refine String.toList_injective ?_
        rw [hother.package.eq_intercalate, h.package.eq_intercalate, hpackage]
      have hsameName : other.target.name = node.target.name := by
        have hmarks := congrArg String.toList (hmarked.symm.trans hbuild)
        simp only [String.toList_append] at hmarks
        exact String.toList_injective (List.append_cancel_right hmarks)
      exact hne (congrArg₂ Target.mk hsamePackage hsameName)
  · exact hpath (hin.trans (List.prefix_append _ _))

/-- No object of the other node is in the build directory. -/
theorem not_within_object (hdirs : dirs.Relative) (hclear : node.KeepsClear dirs other)
    {c : Compilation} (hc : other.body.compilation? = some c) {r : Resource}
    (hr : r ∈ c.sources.toList) : ¬ Within (AutoconfSpec.buildDir dirs node.target).fullPath
      (Compilation.objectFor dirs r).fullPath := by
  intro hwithin
  obtain ⟨earlier, last, hsource, hobject⟩ := hother.exists_components_object hdirs.objectDir hc hr
  have hclearSource := hclear.sources c hc r hr
  rw [Within, hsource] at hclearSource
  rw [Within, h.components_buildDir hdirs, hobject, List.prefix_append_right_inj,
    List.prefix_concat_iff] at hwithin
  rcases hwithin with heq | hin
  · -- the name of an object ends in another letter than that of a build directory
    rw [h.components_buildPath] at heq
    have hlast := List.singleton_inj.1 (List.append_inj' heq rfl).2
    have hends := congrArg List.getLast? hlast
    simp at hends
  · exact hclearSource (hin.trans (List.prefix_append _ _))

/-- Nothing that another node generates lies in the build directory of a node, as long as no
directory for generated files lies in another one and the other node keeps clear. -/
theorem not_within_buildDir (hdirs : dirs.Relative) (hbeside : dirs.SideBySide)
    (hclear : node.KeepsClear dirs other) (hne : other.target ≠ node.target) {path : String}
    (hpath : other.Generates dirs path) :
    ¬ Within (AutoconfSpec.buildDir dirs node.target).fullPath path := by
  have hroots : ∀ root ∈ [dirs.objectDir, dirs.genfileDir, dirs.pkgfileDir],
      isAbsolute root = false ∧
        (Path.normalize dirs.objectDir = Path.normalize root ∨ Apart dirs.objectDir root) := by
    simp only [List.forall_mem_cons]
    exact ⟨⟨hdirs.objectDir, .inl trivial⟩, ⟨hdirs.genfileDir, hbeside.genfileDir⟩,
      ⟨hdirs.pkgfileDir, hbeside.pkgfileDir⟩, by simp⟩
  cases hpath with
  | rule => exact hclear.generated
  | object hc hr => exact h.not_within_object hother hdirs hclear hc hr
  | file hroot hname =>
    obtain ⟨hrelative, hplace⟩ := hroots _ hroot
    intro hwithin
    exact h.not_within_file hother hclear hne hname (h.within_of_generated hother hdirs hrelative
      hplace (hother.isPlain_of_names hname) hwithin)

end Node.Confined

end Makewright
