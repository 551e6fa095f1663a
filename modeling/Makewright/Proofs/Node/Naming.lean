import Makewright.Proofs.Makefile.Legible
import Makewright.Proofs.Node.Generates

/-!
# The names that a node gives

The files that a node makes are named after its package, its name and its sources, with letters,
digits and a few marks around them. If these are made of characters that some predicate accepts, and
the predicate is an `Alphabet`, then so are the names of everything that the node makes
(`Node.Named.generates`).
-/

set_option autoImplicit false

namespace Makewright

open Make

variable {p : Char → Bool} {dirs : GeneratedDirs} {node : Node}

/-- The predicate accepts the characters that names are put together with. -/
structure Alphabet (p : Char → Bool) : Prop where
  letter : ∀ c, c.isAlphanum = true ∨ c ∈ ['.', '/', '-'] → p c = true
  digit : ∀ c, Text.isDigit c = true → p c = true

/-- The directories for what is compiled, generated and linked are made of these characters. -/
structure GeneratedDirs.Named (p : Char → Bool) (dirs : GeneratedDirs) : Prop where
  objectDir : IsMadeOf p dirs.objectDir
  genfileDir : IsMadeOf p dirs.genfileDir
  pkgfileDir : IsMadeOf p dirs.pkgfileDir

/-- The target of a node and the files that its rules read are made of these characters. -/
structure Node.Named (p : Char → Bool) (node : Node) : Prop where
  package : ∀ c ∈ node.target.package.toList, p c = true
  name : IsMadeOf p node.target.name
  files : ∀ path ∈ node.inputFiles, IsMadeOf p path

theorem Make.IsMadeOf.mono {q : Char → Bool} (hpq : ∀ c, p c = true → q c = true) {text : String}
    (h : IsMadeOf p text) : IsMadeOf q text :=
  ⟨h.ne_empty, fun c hc => hpq c (h.all c hc)⟩

theorem GeneratedDirs.Named.mono {q : Char → Bool} (hpq : ∀ c, p c = true → q c = true)
    (h : dirs.Named p) : dirs.Named q :=
  ⟨h.objectDir.mono hpq, h.genfileDir.mono hpq, h.pkgfileDir.mono hpq⟩

theorem Node.Named.mono {q : Char → Bool} (hpq : ∀ c, p c = true → q c = true)
    (h : node.Named p) : node.Named q where
  package c hc := hpq c (h.package c hc)
  name := h.name.mono hpq
  files path hpath := (h.files path hpath).mono hpq

namespace Alphabet

/-- A predicate that refuses only some marks is an alphabet. -/
theorem of_marks (marks : List Char) (h : ∀ c, p c = false → c ∈ marks)
    (hmarks : ∀ d ∈ marks,
      d.isAlphanum = false ∧ d ∉ ['.', '/', '-'] ∧ Text.isDigit d = false) : Alphabet p := by
  refine ⟨?_, ?_⟩
  · intro c hc
    by_contra hp
    obtain ⟨halpha, hmark, -⟩ := hmarks c (h c (by simpa using hp))
    rcases hc with hc | hc
    · exact absurd hc (by simp [halpha])
    · exact hmark hc
  · intro c hc
    by_contra hp
    obtain ⟨-, -, hdigit⟩ := hmarks c (h c (by simpa using hp))
    exact absurd hc (by simp [hdigit])

theorem isVerbatim : Alphabet isVerbatim := by
  apply of_marks (marks ++ blanks)
  · intro c hc
    by_contra hmem
    simp only [List.mem_append, not_or] at hmem
    exact absurd hc (by simp [Make.isVerbatim, isBlank, hmem])
  · decide

theorem isPlain : Alphabet isPlain := by
  apply of_marks (Shell.specials ++ blanks ++ [':', '=', '%'])
  · intro c hc
    by_contra hmem
    simp only [List.mem_append, not_or] at hmem
    exact absurd hc (by simp_all [Make.isPlain, isInert, Shell.isBare, isBlank])
  · decide

theorem isMadeOf (h : Alphabet p) {text : String} (htext : text ≠ "" ∧
    ∀ c ∈ text.toList, c.isAlphanum = true ∨ c ∈ ['.', '/', '-']) : IsMadeOf p text :=
  ⟨htext.1, fun c hc => h.letter c (htext.2 c hc)⟩

theorem slash (h : Alphabet p) : p '/' = true :=
  h.letter '/' (by decide)

theorem dot (h : Alphabet p) : p '.' = true :=
  h.letter '.' (by decide)

theorem versionNumber (h : Alphabet p) (n : VersionNumber) : IsMadeOf p n.val := by
  have hdigits := n.property
  rw [Text.isUnsigned, Bool.and_eq_true, List.all_eq_true] at hdigits
  refine ⟨?_, fun c hc => h.digit c (hdigits.2 c hc)⟩
  simpa [String.toList_eq_nil_iff] using hdigits.1

end Alphabet

/-! ## Names -/

section Names

variable (hp : Alphabet p)

include hp

theorem isMadeOf_normalize {path : String} (h : ∀ c ∈ path.toList, p c = true) :
    IsMadeOf p (Path.normalize path) := by
  refine ⟨?_, ?_⟩
  · intro hempty
    rw [Path.normalize, ← String.toList_eq_nil_iff, String.toList_ofList] at hempty
    exact Path.normalizeList_ne_nil _ hempty
  · intro c hc
    rw [Path.normalize, String.toList_ofList] at hc
    rcases Path.mem_normalizeList hc with hc | rfl | rfl
    · exact h c hc
    · exact hp.slash
    · exact hp.dot

theorem isMadeOf_join {a b : String} (ha : ∀ c ∈ a.toList, p c = true) (hb : IsMadeOf p b) :
    IsMadeOf p (Path.join a b) := by
  refine ⟨Path.join_ne_empty a hb.ne_empty, ?_⟩
  intro c hc
  rcases Path.mem_join hc with hc | hc | rfl
  · exact ha c hc
  · exact hb.all c hc
  · exact hp.slash

/-- A generated file is made of the same characters as its root and its path. -/
theorem isMadeOf_ofRootPath {root path : String} (hroot : IsMadeOf p root)
    (hpath : ∀ c ∈ path.toList, p c = true) :
    IsMadeOf p (Resource.ofRootPath root path).fullPath := by
  have hbelow : IsMadeOf p (Resource.ofRootPath root path).path := isMadeOf_normalize hp hpath
  have habove : ∀ c ∈ (Resource.ofRootPath root path).root.toList, p c = true := by
    have hempty : root.isEmpty = false := by simpa using hroot.ne_empty
    have hnormal := (isMadeOf_normalize hp hroot.all).all
    rw [Resource.ofRootPath, hempty]
    generalize Path.normalize root = normal at hnormal
    intro c hc
    by_cases hdot : normal = "."
    · simp [hdot] at hc
    · exact hnormal c (by simpa [hdot] using hc)
  unfold Resource.fullPath
  split
  · exact hbelow
  · exact isMadeOf_join hp habove hbelow

end Names

theorem Make.IsMadeOf.append {a b : String} (ha : IsMadeOf p a) (hb : IsMadeOf p b) :
    IsMadeOf p (a ++ b) := by
  refine ⟨?_, ?_⟩
  · intro hempty
    rw [← String.toList_eq_nil_iff, String.toList_append] at hempty
    exact ha.ne_nil (List.append_eq_nil_iff.1 hempty).1
  · intro c hc
    rw [String.toList_append] at hc
    rcases List.mem_append.1 hc with hc | hc
    · exact ha.all c hc
    · exact hb.all c hc

/-- The path of a file below its root has no characters of its own. -/
theorem all_path {r : Resource} (h : IsMadeOf p r.fullPath) : ∀ c ∈ r.path.toList, p c = true := by
  intro c hc
  apply h.all
  unfold Resource.fullPath
  split
  · exact hc
  · rw [Path.toList_join]
    split_ifs
    · exact hc
    · exact List.mem_append_right _ hc
    · exact List.mem_append_right _ (List.mem_cons_of_mem _ hc)

theorem all_basename {r : Resource} (h : IsMadeOf p r.fullPath) :
    ∀ c ∈ r.basename.toList, p c = true := by
  intro c hc
  apply all_path h
  unfold Resource.basename Path.basename at hc
  split at hc
  · exact hc
  · next before after hcut =>
    rw [String.toList_ofList] at hc
    rw [Text.cutLast?_eq_some hcut]
    simp [hc]

theorem all_dirname (hp : Alphabet p) {r : Resource} (h : IsMadeOf p r.fullPath) :
    ∀ c ∈ r.dirname.toList, p c = true := by
  intro c hc
  unfold Resource.dirname Path.dirname at hc
  split at hc
  · simp at hc
  · next before after hcut =>
    have hbefore : ∀ c ∈ before, p c = true := by
      intro c hc
      apply all_path h
      rw [Text.cutLast?_eq_some hcut]
      exact List.mem_append_left _ hc
    split at hc
    · rw [String.toList_ofList] at hc
      rcases List.mem_append.1 hc with hc | hc
      · exact hbefore c hc
      · exact List.mem_singleton.1 hc ▸ hp.slash
    · rw [String.toList_ofList, Path.dirname.dropRightSlashes, List.mem_reverse] at hc
      exact hbefore c (List.mem_reverse.1 ((List.dropWhile_sublist _).subset hc))

/-! ## The files of a node -/

theorem isMadeOf_object (hp : Alphabet p) (hdirs : dirs.Named p) {source : Resource}
    (h : IsMadeOf p source.fullPath) : IsMadeOf p (Compilation.objectFor dirs source).fullPath := by
  have hsuffix : IsMadeOf p ".o" := hp.isMadeOf (by decide)
  apply isMadeOf_ofRootPath hp hdirs.objectDir
  intro c hc
  rw [String.toList_append] at hc
  rcases List.mem_append.1 hc with hc | hc
  · exact all_path h c hc
  · exact hsuffix.all c hc

/-- The object files of sources are made of the same characters. -/
theorem isMadeOf_objects (hp : Alphabet p) (hdirs : dirs.Named p) {c : Compilation}
    (h : ∀ path ∈ c.inputFiles, IsMadeOf p path) :
    ∀ entry ∈ c.sources.entries, IsMadeOf p (Compilation.objectFor dirs entry.1).fullPath := by
  intro entry hentry
  apply isMadeOf_object hp hdirs
  apply h
  exact List.mem_append_left _ (FileSet.mem_paths.2 ⟨entry.1, List.mem_map_of_mem hentry, rfl⟩)

/-- The name of a target and its package are made of these characters. -/
structure Target.Named (p : Char → Bool) (target : Target) : Prop where
  package : ∀ c ∈ target.package.toList, p c = true
  name : IsMadeOf p target.name

instance (p : Char → Bool) (target : Target) : Decidable (target.Named p) :=
  decidable_of_iff ((∀ c ∈ target.package.toList, p c = true) ∧ IsMadeOf p target.name)
    ⟨fun h => ⟨h.1, h.2⟩, fun h => ⟨h.1, h.2⟩⟩

theorem Node.Named.target (h : node.Named p) : node.target.Named p :=
  ⟨h.package, h.name⟩

theorem Node.Named.source (h : node.Named p) {c : Compilation}
    (hc : node.body.compilation? = some c) {r : Resource} (hr : r ∈ c.sources.toList) :
    IsMadeOf p r.fullPath := by
  have hpath : r.fullPath ∈ c.inputFiles :=
    List.mem_append_left _ (FileSet.mem_paths.2 ⟨r, hr, rfl⟩)
  refine h.files _ ?_
  unfold Node.inputFiles
  cases hbody : node.body <;> rw [hbody] at hc <;> cases hc
  · exact hpath
  · exact hpath
  · exact List.mem_append_left _ hpath

namespace Target.Named

variable {target : Target} (h : target.Named p) (hp : Alphabet p)

include h hp

theorem fullPath : IsMadeOf p target.fullPath := by
  unfold Target.fullPath
  split
  · exact h.name
  · next hne =>
    have hfront : IsMadeOf p (target.package ++ "/") := by
      refine ⟨by simp, ?_⟩
      intro c hc
      rw [String.toList_append] at hc
      rcases List.mem_append.1 hc with hc | hc
      · exact h.package c hc
      · exact List.mem_singleton.1 hc ▸ hp.slash
    exact hfront.append h.name

theorem baseName : IsMadeOf p (SharedSpec.baseName target) :=
  (IsMadeOf.append (hp.isMadeOf (by decide)) h.name).append (hp.isMadeOf (by decide))

theorem soname (spec : SharedSpec) : IsMadeOf p (spec.soname target) := by
  have hdot : IsMadeOf p "." := hp.isMadeOf (by decide)
  unfold SharedSpec.soname
  split
  · exact h.baseName hp
  · next v _ => exact ((h.baseName hp).append hdot).append (hp.versionNumber v.major)

theorem linkedName (spec : SharedSpec) : IsMadeOf p (spec.linkedName target) := by
  have hdot : IsMadeOf p "." := hp.isMadeOf (by decide)
  unfold SharedSpec.linkedName
  split
  · exact h.baseName hp
  · next v _ =>
    have hmajor := ((h.baseName hp).append hdot).append (hp.versionNumber v.major)
    have hminor := (hmajor.append hdot).append (hp.versionNumber v.minor)
    exact (hminor.append hdot).append (hp.versionNumber v.release)

theorem generated {root name : String} (hroot : IsMadeOf p root) (hname : IsMadeOf p name) :
    IsMadeOf p (target.generated root name).fullPath :=
  isMadeOf_ofRootPath hp hroot (isMadeOf_join hp h.package hname).all

theorem executable (hroot : IsMadeOf p dirs.pkgfileDir) :
    IsMadeOf p (Node.executable dirs target).fullPath :=
  h.generated hp hroot h.name

theorem stamp (hroot : IsMadeOf p dirs.genfileDir) :
    IsMadeOf p (AutoconfSpec.stamp dirs target).fullPath :=
  h.generated hp hroot (h.name.append (hp.isMadeOf (by decide)))

theorem buildDir (hroot : IsMadeOf p dirs.objectDir) :
    IsMadeOf p (AutoconfSpec.buildDir dirs target).fullPath :=
  h.generated hp hroot (h.name.append (hp.isMadeOf (by decide)))

theorem outputDir (hroot : IsMadeOf p dirs.genfileDir) :
    IsMadeOf p (AutoconfSpec.outputDir dirs target).fullPath :=
  h.generated hp hroot h.name

theorem names {name : String} (hname : target.Names name) : IsMadeOf p name := by
  cases hname with
  | self => exact h.name
  | build => exact h.name.append (hp.isMadeOf (by decide))
  | done => exact h.name.append (hp.isMadeOf (by decide))
  | @library spec _ hname =>
    unfold SharedSpec.names at hname
    split at hname
    · exact List.mem_singleton.1 hname ▸ h.linkedName hp spec
    · simp only [List.mem_cons, List.not_mem_nil, or_false] at hname
      rcases hname with rfl | rfl | rfl
      · exact h.linkedName hp spec
      · exact h.soname hp spec
      · exact h.baseName hp

theorem outputs (hroot : IsMadeOf p dirs.pkgfileDir) (spec : SharedSpec) {r : Resource}
    (hr : r ∈ spec.outputs dirs target) : IsMadeOf p r.fullPath := by
  rw [SharedSpec.outputs_eq] at hr
  obtain ⟨name, hname, rfl⟩ := List.mem_map.1 hr
  exact h.generated hp hroot (h.names hp (.library hname))

end Target.Named

/-- Everything that the node generates is made of the same characters. -/
theorem Node.Named.generates (h : node.Named p) (hp : Alphabet p) (hdirs : dirs.Named p)
    {path : String} (hpath : node.Generates dirs path) : IsMadeOf p path := by
  have hroots : ∀ root ∈ [dirs.objectDir, dirs.genfileDir, dirs.pkgfileDir], IsMadeOf p root := by
    simp only [List.forall_mem_cons]
    exact ⟨hdirs.objectDir, hdirs.genfileDir, hdirs.pkgfileDir, by simp⟩
  cases hpath with
  | rule => exact h.target.fullPath hp
  | object hc hr => exact isMadeOf_object hp hdirs (h.source hc hr)
  | file hroot hname => exact h.target.generated hp (hroots _ hroot) (h.target.names hp hname)

end Makewright
