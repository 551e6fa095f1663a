import Makewright.Proofs.Node.Containment
import Makewright.Proofs.Node.SharedLibrary

/-!
# Where a shared library is installed

The installed place of a library leaves out a leading directory of its package. Texts are compared
and cut for that, with the slash behind the directory as part of the comparison, and this is the
relation of directories: a text is in front of a package, up to a slash or its end, exactly if its
components are the first ones of the package (`Path.isAtOrBelow_iff`), and what is left after the
cut are the other components (`Path.dropWhile_drop_intercalate`). So a directory to leave out is
accepted exactly if the package lies within it, and the library and the links to it are installed
below the directory for libraries at the components that remain
(`Description.readSharedLibrary_strips`).
-/

set_option autoImplicit false

namespace Makewright

namespace Path

open Text

variable {parts rest : List (List Char)}

theorem intercalate_eq_nil_iff (h : ∀ part ∈ parts, IsComponent part) :
    List.intercalate ['/'] parts = [] ↔ parts = [] := by
  constructor
  · intro hnil
    rw [← components_intercalate h, hnil]
    rfl
  · rintro rfl
    rfl

/-- Behind a slash, components are written as each of them behind a slash. -/
theorem cons_intercalate (h : parts ≠ []) :
    '/' :: List.intercalate ['/'] parts = parts.flatMap ('/' :: ·) := by
  induction parts with
  | nil => exact absurd rfl h
  | cons first others ih =>
    cases others with
    | nil => simp
    | cons second more =>
      rw [List.intercalate_cons_cons, List.flatMap_cons, ← ih (List.cons_ne_nil _ _)]
      simp

/-- A text stands in front of a path, up to a slash or the end, exactly if its components are the
first ones of the path. -/
theorem isAtOrBelow_iff {directory place : String}
    (hdirectory : directory.toList = List.intercalate ['/'] (components directory.toList))
    (hplace : place.toList = List.intercalate ['/'] (components place.toList))
    (hne : directory ≠ "") : isAtOrBelow directory place = true ↔ Within directory place := by
  unfold isAtOrBelow
  rw [Bool.or_eq_true, beq_iff_eq, List.isPrefixOf_iff_prefix, Within]
  constructor
  · rintro (rfl | ⟨rest, hrest⟩)
    · exact List.prefix_refl _
    · have hcut : place.toList = directory.toList ++ '/' :: rest := by simpa using hrest.symm
      rw [hcut, components_append_cons]
      exact List.prefix_append _ _
  · rintro ⟨rest, hrest⟩
    by_cases hnil : rest = []
    · left
      apply String.toList_injective
      rw [hdirectory, hplace, ← hrest, hnil, List.append_nil]
    · right
      -- a slash follows the directory in the text only if it has a component
      have hparts : components directory.toList ≠ [] := by
        intro hempty
        rw [hempty] at hdirectory
        exact hne (String.toList_eq_nil_iff.1 hdirectory)
      refine ⟨List.intercalate ['/'] rest, ?_⟩
      rw [hplace, ← hrest, intercalate_append hparts hnil, ← hdirectory]
      simp

/-- What is left of a path without its first components and the slash behind them. -/
theorem dropWhile_drop_intercalate (h : ∀ part ∈ parts ++ rest, IsComponent part) :
    ((List.intercalate ['/'] (parts ++ rest)).drop
      (List.intercalate ['/'] parts).length).dropWhile (· == '/') =
        List.intercalate ['/'] rest := by
  obtain ⟨hparts, hrest⟩ := List.forall_mem_append.1 h
  have hbare : (List.intercalate ['/'] rest).dropWhile (· == '/') =
      List.intercalate ['/'] rest := by
    refine dropWhile_eq_self fun c hc => ?_
    have hhead := head?_intercalate_ne hrest
    rw [hc] at hhead
    simpa using hhead
  rcases eq_or_ne parts [] with rfl | hpartsNe
  · exact hbare
  · rcases eq_or_ne rest [] with rfl | hrestNe
    · simp
    · rw [intercalate_append hpartsNe hrestNe, List.drop_left]
      exact hbare

/-- The directory of a file that is named behind a tidy path. -/
theorem dirname_join {directory name : String} (h : IsTidy directory.toList)
    (hname : '/' ∉ name.toList) : dirname (join directory name) = directory := by
  have hrelative : isAbsolute name = false := by
    rw [isAbsolute, beq_eq_false_iff_ne]
    exact fun hslash => hname (List.mem_of_head? hslash)
  have hjoin := h.toList_join hrelative
  unfold dirname
  rw [hjoin]
  by_cases hempty : directory = ""
  · rw [if_pos hempty, cutLast?_eq_none hname, hempty]
  · have hlist : directory.toList ≠ [] := by rwa [Ne, String.toList_eq_nil_iff]
    obtain ⟨before, last, hlast⟩ := (List.eq_nil_or_concat directory.toList).resolve_left hlist
    rw [List.concat_eq_append] at hlast
    have hslash : last ≠ '/' := by
      rintro rfl
      exact h.getLast?_ne (by simp [hlast])
    have hall : directory.toList.all (· == '/') = false := by simp [hlast, hslash]
    have hdrop : dirname.dropRightSlashes directory.toList = directory.toList := by
      simp [dirname.dropRightSlashes, hlast, hslash]
    rw [if_neg hempty, cutLast?_append hname]
    simp only [hall, hdrop, Bool.false_eq_true, if_false, String.ofList_toList]

end Path

open Path

namespace SharedSpec

variable {dirs : GeneratedDirs} {target : Target} {spec : SharedSpec}
  {parts rest : List (List Char)}

/-- A file is installed at the components of its directory that are not left out. -/
theorem toList_installDir {file : Resource} (h : ∀ part ∈ parts ++ rest, IsComponent part)
    (hdirectory : file.dirname.toList = List.intercalate ['/'] (parts ++ rest))
    (hstrip : spec.stripDir.toList = List.intercalate ['/'] parts) :
    (spec.installDir file).toList = libDir.toList ++ rest.flatMap ('/' :: ·) := by
  obtain ⟨hparts, hrest⟩ := List.forall_mem_append.1 h
  have hempty : spec.stripDir = "" ↔ parts = [] := by
    rw [← String.toList_eq_nil_iff, hstrip, intercalate_eq_nil_iff hparts]
  -- what is put behind the directory for libraries
  obtain ⟨place, hplace, hinstall⟩ : ∃ place : String,
      place.toList = List.intercalate ['/'] rest ∧
        spec.installDir file = if place.isEmpty then libDir else join libDir place := by
    unfold installDir
    by_cases hnone : parts = []
    · have hbare : spec.stripDir.isEmpty = true := by simpa using hempty.2 hnone
      refine ⟨file.dirname, by simpa [hnone] using hdirectory, ?_⟩
      simp [hbare]
    · have hbare : spec.stripDir.isEmpty = false := by simpa using mt hempty.1 hnone
      have hfront : isAtOrBelow spec.stripDir file.dirname = true := by
        refine (isAtOrBelow_iff ?_ ?_ (mt hempty.1 hnone)).2 ?_
        · rw [hstrip, components_intercalate hparts]
        · rw [hdirectory, components_intercalate h]
        · rw [Within, hstrip, hdirectory, components_intercalate hparts, components_intercalate h]
          exact List.prefix_append parts rest
      refine ⟨String.ofList ((file.dirname.toList.drop spec.stripDir.toList.length).dropWhile
        (· == '/')), ?_, ?_⟩
      · rw [String.toList_ofList, hdirectory, hstrip, dropWhile_drop_intercalate h]
      · simp [hbare, hfront]
  have hnil : place = "" ↔ rest = [] := by
    rw [← String.toList_eq_nil_iff, hplace, intercalate_eq_nil_iff hrest]
  rw [hinstall]
  by_cases hnone : rest = []
  · rw [if_pos (by simpa using hnil.2 hnone), hnone]
    simp
  · have hhead := head?_intercalate_ne hrest
    rw [if_neg (by simpa using mt hnil.1 hnone), toList_join, hplace, if_neg hhead,
      if_neg (by decide), cons_intercalate hnone]

/-- The linked file and the links to it lie in the package of the target. -/
theorem dirname_of_mem_outputs (hpackage : IsTidy target.package.toList)
    (htarget : '/' ∉ target.name.toList) {r : Resource} (h : r ∈ spec.outputs dirs target) :
    r.root = (spec.linked dirs target).root ∧ r.dirname = target.package := by
  rw [outputs_eq] at h
  obtain ⟨name, hname, rfl⟩ := List.mem_map.1 h
  have hplain := isPlain_of_mem_names htarget hname
  have hne : name ≠ "" := fun hempty => hplain.ne_nil (String.toList_eq_nil_iff.2 hempty)
  have hnormal := (hpackage.isTidy_join hplain.isTidy hne).normalize_eq (join_ne_empty _ hne)
  refine ⟨rfl, ?_⟩
  rw [Target.generated, Resource.dirname, Resource.ofRootPath, hnormal,
    dirname_join hpackage hplain.noSlash]

end SharedSpec

/-- The directory that the installed place leaves out: the one that the attribute names, where
slashes around it do not count, or the whole package without the attribute. -/
def Target.leftOut (target : Target) : Option String → String
  | none => target.package
  | some text => Path.normalize (Text.strip (· == '/') text)

namespace Path

/-- A relative path in normal form is a dot or its components between slashes. -/
theorem toList_normalize_relative {text : String} (h : isAbsolute text = false)
    (hdot : Path.normalize text ≠ ".") : (Path.normalize text).toList =
      List.intercalate ['/'] (components (Path.normalize text).toList) := by
  have hsettled := mt (normalize_eq_dot_iff h).2 hdot
  rw [components_normalize h, Path.normalize, String.toList_ofList,
    normalizeList_relative (rootSlashes_of_isAbsolute h), if_neg hsettled]

end Path

namespace Description

variable {settings : Settings} {d : Description} {given : Option String}

/-- A directory is left out if the package lies within it, and it is refused otherwise. -/
theorem readStripDir_eq (hpackage : IsTidy d.target.package.toList)
    (hgiven : d.optional settings "install_strip_prefix" = .ok given) :
    d.readStripDir settings = if Within (d.target.leftOut given) d.target.package then
        .ok (String.ofList (List.intercalate ['/'] (components (d.target.leftOut given).toList)))
      else .error (d.fault "install_strip_prefix"
        (.notFrontOfPackage (d.target.leftOut given) d.target.package)) := by
  unfold readStripDir
  rw [hgiven]
  cases given with
  | none =>
    have hwhole : Within d.target.package d.target.package := List.prefix_refl _
    rw [Target.leftOut, if_pos hwhole, ← hpackage.eq_intercalate, String.ofList_toList]
    rfl
  | some text =>
    have hhead := Text.head?_strip (· == '/') text
    rw [Target.leftOut]
    simp only [bind, Except.bind]
    generalize Text.strip (· == '/') text = bare at hhead ⊢
    have hrelative : isAbsolute bare = false := by
      rw [isAbsolute, beq_eq_false_iff_ne]
      intro hslash
      simpa using hhead '/' hslash
    have hnormal : Path.normalize (if bare.isEmpty then "." else bare) = Path.normalize bare := by
      split
      · next hempty => rw [String.isEmpty_iff.1 hempty]; rfl
      · rfl
    rw [hnormal]
    by_cases hdot : Path.normalize bare = "."
    · -- the root, which every package lies within
      have hparts : components ".".toList = [] := rfl
      have hroot : Within "." d.target.package := List.nil_prefix
      rw [hdot, if_pos hroot, hparts]
      rfl
    · have hempty : (Path.normalize bare).isEmpty = false := by
        simpa using normalize_ne_empty bare
      have hwithin := isAtOrBelow_iff (toList_normalize_relative hrelative hdot)
        hpackage.eq_intercalate (normalize_ne_empty bare)
      rw [if_neg hdot, hempty, Bool.false_or, ← toList_normalize_relative hrelative hdot,
        String.ofList_toList]
      simp only [hwithin]

/-- Everything of a shared library but the directory that its installed place leaves out is read. -/
structure ReadsBesidesStripDir (settings : Settings) (d : Description) : Prop where
  common : ∃ dependencies, d.readCommon settings sharedAttributes = .ok dependencies
  compilation : ∃ compiled, d.readCompilation settings = .ok compiled
  version : ∃ version, d.readVersion settings = .ok version
  symbols : ∃ symbols, d.readExportedSymbols settings = .ok symbols

/-- A shared library is read exactly if the package lies within the directory to leave out, when
everything else of it is read, and otherwise that directory is reported. The linked file is
installed below the directory for libraries at the components of the package that remain, of which
there are none if no directory is given, and the links lie beside the linked file. -/
theorem readSharedLibrary_strips (settings : Settings) (d : Description)
    (hpackage : Target.normalizePackage d.target.package = .ok d.target.package)
    (hname : '/' ∉ d.target.name.toList)
    (hgiven : d.optional settings "install_strip_prefix" = .ok given) :
    ((∃ node, d.readSharedLibrary settings = .ok node) ↔
      d.ReadsBesidesStripDir settings ∧ Within (d.target.leftOut given) d.target.package) ∧
    (d.ReadsBesidesStripDir settings → ¬ Within (d.target.leftOut given) d.target.package →
      d.readSharedLibrary settings = .error (d.fault "install_strip_prefix"
        (.notFrontOfPackage (d.target.leftOut given) d.target.package))) ∧
    ∀ node, d.readSharedLibrary settings = .ok node → ∃ c spec rest,
      node.target = d.target ∧ node.body = .sharedLibrary c spec ∧
      components d.target.package.toList =
        components (d.target.leftOut given).toList ++ rest ∧
      (given = none → rest = []) ∧
      ∀ dirs, (spec.installDir (spec.linked dirs d.target)).toList =
          SharedSpec.libDir.toList ++ rest.flatMap ('/' :: ·) ∧
        ∀ link ∈ spec.aliases dirs d.target, link.root = (spec.linked dirs d.target).root ∧
          link.dirname = (spec.linked dirs d.target).dirname := by
  have htidy := Target.isTidy_normalizePackage hpackage
  have hstrip := readStripDir_eq htidy hgiven
  refine ⟨?accepted, ?refused, ?installed⟩
  case accepted =>
    constructor
    · rintro ⟨node, hnode⟩
      obtain ⟨_, _, _, _, _, _, hcommon, hcompilation, hversion, hread, hsymbols, -⟩ :=
        readSharedLibrary_eq_ok_iff.1 hnode
      refine ⟨⟨⟨_, hcommon⟩, ⟨_, hcompilation⟩, ⟨_, hversion⟩, ⟨_, hsymbols⟩⟩, ?_⟩
      rw [hstrip] at hread
      by_contra hout
      rw [if_neg hout] at hread
      cases hread
    · rintro ⟨⟨⟨_, hcommon⟩, ⟨⟨_, _⟩, hcompilation⟩, ⟨_, hversion⟩, ⟨_, hsymbols⟩⟩, hwithin⟩
      rw [if_pos hwithin] at hstrip
      exact ⟨_, readSharedLibrary_eq_ok_iff.2 ⟨_, _, _, _, _, _, hcommon, hcompilation, hversion,
        hstrip, hsymbols, rfl⟩⟩
  case refused =>
    rintro ⟨⟨_, hcommon⟩, ⟨_, hcompilation⟩, ⟨_, hversion⟩, -⟩ hout
    unfold readSharedLibrary
    rw [hcommon, hcompilation, hversion, hstrip, if_neg hout]
    rfl
  case installed =>
    intro node hnode
    obtain ⟨_, c, _, version, stripDir, symbols, -, -, -, hread, -, rfl⟩ :=
      readSharedLibrary_eq_ok_iff.1 hnode
    rw [hstrip] at hread
    split_ifs at hread with hwithin
    obtain ⟨rest, hrest⟩ := hwithin
    refine ⟨c, ⟨version, stripDir, symbols⟩, rest, rfl, rfl, hrest.symm, ?_, fun dirs => ?_⟩
    · rintro rfl
      exact List.append_right_eq_self.1 hrest
    · have hmem : (SharedSpec.mk version stripDir symbols).linked dirs d.target ∈
          (SharedSpec.mk version stripDir symbols).outputs dirs d.target := List.mem_cons_self
      obtain ⟨-, hlinked⟩ := SharedSpec.dirname_of_mem_outputs htidy hname hmem
      have hcomponents : ∀ part ∈ components (d.target.leftOut given).toList ++ rest,
          IsComponent part := by
        rw [hrest]
        exact fun part hpart => isComponent_of_mem hpart
      constructor
      · refine SharedSpec.toList_installDir hcomponents ?_ ?_
        · rw [hlinked, hrest]
          exact htidy.eq_intercalate
        · rw [← Except.ok.inj hread, String.toList_ofList]
      · intro link hlink
        obtain ⟨hroot, hdirname⟩ := SharedSpec.dirname_of_mem_outputs htidy hname
          (List.mem_cons_of_mem _ hlink)
        exact ⟨hroot, hdirname.trans hlinked.symm⟩

/-- A whole component of the package is left out, and a part of one is refused. -/
theorem readSharedLibrary_strips_sample :
    (∃ node c spec, (libraryWith [("install_strip_prefix",
        .string " /third_party/ ")]).readSharedLibrary plainSettings = .ok node ∧
        node.body = .sharedLibrary c spec ∧
        spec.installDir (spec.linked plainSettings.dirs node.target) =
          "$(DESTDIR)$(LIBDIR)/zlib") ∧
      (libraryWith [("install_strip_prefix", .string "third")]).readSharedLibrary plainSettings =
        .error ((libraryWith [("install_strip_prefix", .string "third")]).fault
          "install_strip_prefix" (.notFrontOfPackage "third" "third_party/zlib")) := by
  have hpackage : Target.normalizePackage "third_party/zlib" = .ok "third_party/zlib" := by
    decide +kernel
  constructor
  · have hgiven : (libraryWith [("install_strip_prefix", .string " /third_party/ ")]).optional
        plainSettings "install_strip_prefix" = .ok (some "/third_party/") :=
      eq_ok_of_toOption (by decide +kernel)
    obtain ⟨haccepted, -, hinstalled⟩ := readSharedLibrary_strips plainSettings
      (libraryWith [("install_strip_prefix", .string " /third_party/ ")]) hpackage (by decide)
      hgiven
    obtain ⟨node, hnode⟩ := haccepted.2
      ⟨⟨⟨.none, rfl⟩, ⟨_, rfl⟩, ⟨none, rfl⟩, ⟨none, rfl⟩⟩, by decide +kernel⟩
    obtain ⟨c, spec, rest, htarget, hbody, hrest, -, hplace⟩ := hinstalled node hnode
    refine ⟨node, c, spec, hnode, hbody, ?_⟩
    rw [htarget]
    have hpackageParts : components "third_party/zlib".toList =
        ["third_party".toList] ++ ["zlib".toList] := by decide +kernel
    have hfrontParts : components
        (Target.leftOut ⟨"third_party/zlib", "z"⟩ (some "/third_party/")).toList =
          ["third_party".toList] := by decide +kernel
    have hremains : ["zlib".toList] = rest :=
      List.append_cancel_left (hpackageParts.symm.trans (hrest.trans (hfrontParts ▸ rfl)))
    apply String.toList_injective
    rw [(hplace plainSettings.dirs).1, ← hremains]
    decide
  · have hgiven : (libraryWith [("install_strip_prefix", .string "third")]).optional plainSettings
        "install_strip_prefix" = .ok (some "third") := eq_ok_of_toOption (by decide +kernel)
    obtain ⟨-, hrefused, -⟩ := readSharedLibrary_strips plainSettings
      (libraryWith [("install_strip_prefix", .string "third")]) hpackage (by decide) hgiven
    exact hrefused ⟨⟨.none, rfl⟩, ⟨_, rfl⟩, ⟨none, rfl⟩, ⟨none, rfl⟩⟩ (by decide +kernel)

end Description

end Makewright
