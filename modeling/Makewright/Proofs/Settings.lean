import Makewright.Proofs.Node.Confined
import Makewright.Proofs.Outcome

/-!
# Directories that are configured

Reading the section `paths` ends with an error under one of its keys or with four relative
directories (`Settings.readDirs_ends`). A directory is refused for the way in which its text starts
only: `..` in front is, and `..` behind a name is not. So it leads down exactly if the walk along the
components of the text that is configured does, and what is generated does so too then. A text of
slashes, a dot and a text that climbs back behind a name are accepted and lead nowhere down
(`Settings.readDirs_climbs`).
-/

set_option autoImplicit false

namespace Makewright

open Path

/-- The directories for generated files and for fetched sources, in the order of their keys. -/
def GeneratedDirs.all (dirs : GeneratedDirs) : List String :=
  [dirs.objectDir, dirs.genfileDir, dirs.sourceDir, dirs.pkgfileDir]

/-- The directories for generated files are relative. -/
structure GeneratedDirs.Relative (dirs : GeneratedDirs) : Prop where
  objectDir : isAbsolute dirs.objectDir = false
  genfileDir : isAbsolute dirs.genfileDir = false
  pkgfileDir : isAbsolute dirs.pkgfileDir = false

namespace Path

/-- Dropping slashes behind a path leaves its components. -/
theorem components_dropRight (s : List Char) :
    components (Text.dropRight (· == '/') s) = components s := by
  induction s using List.reverseRecOn with
  | nil => rfl
  | append_singleton s c ih =>
    by_cases hc : c = '/'
    · have hdrop : Text.dropRight (· == '/') (s ++ [c]) = Text.dropRight (· == '/') s := by
        simp [Text.dropRight, hc]
      rw [hdrop, ih, hc, components_append_slash]
    · have hdrop : Text.dropRight (· == '/') (s ++ [c]) = s ++ [c] := by
        simp [Text.dropRight, hc]
      rw [hdrop]

/-- Behind a directory that leads down, a path leads down. -/
theorem IsBelow.leadsDown {root path : String} (hroot : LeadsDown root)
    (h : IsBelow (Path.normalize root) path) : LeadsDown path := by
  obtain ⟨rest, hne, hrest, hpath⟩ := h
  obtain ⟨htidy, hrootNe⟩ := hroot.isTidy
  have hlist : (Path.normalize root).toList ≠ [] := by rwa [Ne, String.toList_eq_nil_iff]
  refine IsTidy.leadsDown ?_ ?_
  · rw [hpath]
    exact htidy.append hlist hrest hne
  · rintro rfl
    simp at hpath

end Path

namespace Settings

/-- The keys of the directories, each with its default. -/
def dirKeys : List (String × String) :=
  [("object_dir", ".gen-obj"), ("genfile_dir", ".gen-files"), ("source_dir", ".gen-src"),
   ("pkgfile_dir", ".gen-pkg")]

/-- The directory is what is read for a key: the text that is configured, or the default, without
the slashes behind it. It is relative, and it leads down exactly if the walk along the text does. -/
structure Configures (entries : List (Value × Value)) (key : String × String) (dir : String) :
    Prop where
  configured : ∃ path, text "paths" entries key.1 key.2 = .ok path ∧
    dir = String.ofList (Text.dropRight (· == '/') path.toList) ∧
    (LeadsDown dir ↔ ∃ n, depth? 0 (components path.toList) = some (n + 1))
  relative : isAbsolute dir = false

theorem text_ends (name : String) (entries : List (Value × Value)) (key default : String) :
    Ends (fun path => text name entries key default = .ok path)
      (fun e => ∃ fault, e = .under (keyName name key) fault) (text name entries key default) := by
  cases h : text name entries key default with
  | ok path => rfl
  | error e =>
    unfold text at h
    split at h
    · split at h
      · exact ⟨_, (Except.error.inj h).symm⟩
      · cases h
    · exact ⟨_, (Except.error.inj h).symm⟩

theorem table_ends (data : List (Value × Value)) (name : String) :
    Ends (fun entries => table data name = .ok entries) (fun e => ∃ fault, e = .under name fault)
      (table data name) := by
  cases h : table data name with
  | ok entries => rfl
  | error e =>
    unfold table at h
    split at h
    · cases h
    · cases h
    · cases h
    · exact ⟨_, (Except.error.inj h).symm⟩

theorem directory_ends (entries : List (Value × Value)) (key : String × String) :
    Ends (Configures entries key) (fun e => ∃ fault, e = .under (keyName "paths" key.1) fault)
      (directory entries key.1 key.2) := by
  refine Ends.bind ((text_ends "paths" entries key.1 key.2).mono ?_ fun _ he => he)
  intro path hpath
  simp only
  split
  · exact ⟨_, rfl⟩
  · next haccepted =>
    simp only [Bool.or_eq_true, not_or, Bool.not_eq_true] at haccepted
    refine ⟨⟨path, hpath, rfl, ?_⟩, haccepted.1⟩
    -- the slashes that are dropped belong to no component
    rw [leadsDown_iff haccepted.1, String.toList_ofList, components_dropRight]

end Settings

/-- The name of the rule that builds a confined node is its name behind its package. -/
theorem Node.Confined.userTarget_eq {node : Node} (h : node.Confined) :
    node.userTarget = join node.target.package node.target.name := by
  refine String.toList_injective ?_
  rw [h.package.toList_join h.name.isTidy.isAbsolute_eq, Node.userTarget, Target.fullPath]
  by_cases hempty : node.target.package = ""
  · simp [hempty]
  · simp [hempty]

/-- If the directories lead down, so does everything that a confined node generates. -/
theorem Node.Confined.leadsDown {node : Node} (h : node.Confined) {dirs : GeneratedDirs}
    (hdirs : dirs.LeadDown) {path : String} (hpath : node.Generates dirs path) :
    LeadsDown path := by
  have hroots : ∀ root ∈ [dirs.objectDir, dirs.genfileDir, dirs.pkgfileDir], LeadsDown root := by
    simp only [List.forall_mem_cons]
    exact ⟨hdirs.objectDir, hdirs.genfileDir, hdirs.pkgfileDir, by simp⟩
  rcases h.isMadeBelow hdirs hpath with rfl | ⟨root, hroot, hbelow⟩
  · have hname : node.target.name ≠ "" := fun hempty =>
      h.name.ne_nil (String.toList_eq_nil_iff.2 hempty)
    rw [h.userTarget_eq]
    exact (h.package.isTidy_join h.name.isTidy hname).leadsDown (join_ne_empty _ hname)
  · exact hbelow.leadsDown (hroots root hroot)

namespace Settings

/-- The directories are what is read for their keys, if the section is read. -/
def ConfiguresAll (data : List (Value × Value)) (dirs : GeneratedDirs) : Prop :=
  ∃ entries, table data "paths" = .ok entries ∧
    List.Forall₂ (Configures entries) dirKeys dirs.all

/-- The error names the section for the directories or a key of it. -/
def NamesDirs (e : BuildError) : Prop :=
  ∃ name ∈ "paths" :: dirKeys.map (fun key => keyName "paths" key.1), ∃ fault, e = .under name fault

theorem readDirs_spec (data : List (Value × Value)) :
    Ends (ConfiguresAll data) NamesDirs (readDirs data) := by
  have hdirectory : ∀ entries, ∀ key ∈ dirKeys, ∀ {good : String → Prop},
      (∀ dir, Configures entries key dir → good dir) →
        Ends good NamesDirs (directory entries key.1 key.2) := by
    intro entries key hmem good hgood
    refine (directory_ends entries key).mono hgood ?_
    rintro e ⟨fault, rfl⟩
    exact ⟨_, List.mem_cons_of_mem _ (List.mem_map_of_mem hmem), fault, rfl⟩
  refine Ends.bind ((table_ends data "paths").mono ?_ ?_)
  · intro entries hentries
    refine Ends.bind (hdirectory entries ("object_dir", ".gen-obj") (by simp [dirKeys]) ?_)
    intro objectDir hobjects
    refine Ends.bind (hdirectory entries ("genfile_dir", ".gen-files") (by simp [dirKeys]) ?_)
    intro genfileDir hgenerated
    refine Ends.bind (hdirectory entries ("source_dir", ".gen-src") (by simp [dirKeys]) ?_)
    intro sourceDir hsources
    refine Ends.bind (hdirectory entries ("pkgfile_dir", ".gen-pkg") (by simp [dirKeys]) ?_)
    intro pkgfileDir hpackages
    exact ⟨entries, hentries,
      .cons hobjects (.cons hgenerated (.cons hsources (.cons hpackages .nil)))⟩
  · rintro e ⟨fault, rfl⟩
    exact ⟨"paths", List.mem_cons_self, fault, rfl⟩

/-- Settings that are read have relative directories. -/
theorem relative_of_ofMap {data : List (Value × Value)} {settings : Settings}
    (h : ofMap data = .ok settings) : settings.dirs.Relative := by
  obtain ⟨globals, -, h⟩ := exists_of_bind_eq_ok h
  obtain ⟨dirs, hdirs, h⟩ := exists_of_bind_eq_ok h
  obtain ⟨toolchain, -, h⟩ := exists_of_bind_eq_ok h
  obtain rfl := Except.ok.inj h
  obtain ⟨entries, -, hall⟩ := (readDirs_spec data).of_eq_ok hdirs
  simp only [dirKeys, GeneratedDirs.all, List.forall₂_cons] at hall
  obtain ⟨hobjects, hgenerated, -, hpackages, -⟩ := hall
  exact ⟨hobjects.relative, hgenerated.relative, hpackages.relative⟩

/-- Reading the directories fails with an error that names the section or a key of it, or it gives
four relative directories. They lead down exactly if the texts that are configured do, and then so
does everything that is generated. -/
theorem readDirs_ends (data : List (Value × Value)) :
    Ends
      (fun dirs => ConfiguresAll data dirs ∧
        (dirs.LeadDown → ∀ node : Node, node.Confined → ∀ path ∈ node.generatedPaths dirs,
          LeadsDown path))
      NamesDirs (readDirs data) := by
  refine (readDirs_spec data).mono ?_ fun _ he => he
  intro dirs hconfigured
  refine ⟨hconfigured, ?_⟩
  intro hdirs node hnode path hpath
  exact hnode.leadsDown hdirs (Node.generates_of_mem_generatedPaths path hpath)

/-- The text is accepted as the directory for objects, though it does not lead down. -/
def AcceptsClimbing (text : String) : Prop :=
  ∃ dirs, readDirs [(.string "paths", .map [(.string "object_dir", .string text)])] = .ok dirs ∧
    ¬ LeadsDown dirs.objectDir

/-- Texts that climb back behind a name or behind a dot, a dot and a slash are accepted. -/
theorem readDirs_climbs : AcceptsClimbing "build/../.." ∧ AcceptsClimbing "build/.." ∧
    AcceptsClimbing "./.." ∧ AcceptsClimbing "." ∧ AcceptsClimbing "/" :=
  ⟨⟨_, rfl, by decide⟩, ⟨_, rfl, by decide⟩, ⟨_, rfl, by decide⟩, ⟨_, rfl, by decide⟩,
    ⟨_, rfl, by decide⟩⟩

end Settings

end Makewright
