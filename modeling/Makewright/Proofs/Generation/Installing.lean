import Makewright.Proofs.Generation.Selection
import Makewright.Proofs.Graph.Packages
import Makewright.Proofs.Installation
import Makewright.Proofs.Makefile.Commands
import Makewright.Proofs.Node.Lines

/-!
# Installing everything

What a node installs is an `Installation`: a copy of its executable, or a copy of its shared library
with the symbolic links to it. Make and a shell make of the lines of a node just the commands of its
installation (`Node.mapM_installPart`), so that carrying out the install rule of a selection leaves
every copy and every link in its place (`Context.generate_installs`).

Nothing compares the places that the nodes install to, and an executable leaves its package behind.
So this takes nodes whose places are apart: of two executables of one name only the later one stays,
and a library in a directory named like another library cannot be installed at all
(`Context.generate_installs_over`).
-/

set_option autoImplicit false

namespace Makewright

open Make Install

variable {values : Values} {dirs : GeneratedDirs} {node : Node}

/-- The text that make hands on for a text in a line of the install rule. -/
def Make.Values.installText (values : Values) (text : String) : String :=
  String.ofList ((expand (values.making installTarget) text.toList).getD [])

/-- The variables for the directories to install to mean nothing to a shell. -/
structure Make.Values.NameTree (values : Values) : Prop where
  destination : ∀ c ∈ values.get "DESTDIR", isInert c = true
  binDir : values.get "BINDIR" ≠ [] ∧ ∀ c ∈ values.get "BINDIR", isInert c = true
  libDir : values.get "LIBDIR" ≠ [] ∧ ∀ c ∈ values.get "LIBDIR", isInert c = true

/-- What a node installs. -/
def Node.installation? (values : Values) (dirs : GeneratedDirs) (node : Node) :
    Option Installation :=
  match node.body with
  | .binary _ =>
    some ⟨(executable dirs node.target).fullPath, values.installText binDir, node.target.name, []⟩
  | .sharedLibrary _ spec =>
    let file := spec.linked dirs node.target
    some ⟨file.fullPath, values.installText (spec.installDir file), file.basename,
      (spec.aliases dirs node.target).map Resource.basename⟩
  | .library _ | .autoconf _ | .listing _ => none

/-- What some nodes install, in their order. -/
def installations (values : Values) (dirs : GeneratedDirs) (nodes : List Node) :
    List Installation :=
  nodes.filterMap (Node.installation? values dirs)

/-- Carry out the recipe of a rule on a disk, as make and a shell read it. -/
def Rule.carryOut (rule : Rule) (machine : Shell.Machine) (values : Values) (cwd : Location)
    (disk : Tree) : Option Tree := do
  let vectors ← rule.commands.mapM fun command =>
    lineVectors machine values rule.target command.toList
  vectors.flatten.foldlM (Tree.run cwd) disk

/-- Carrying out the install rule leaves a copy of what each node makes, with the links to it. -/
def Makefile.Installs (m : Makefile) (machine : Shell.Machine) (values : Values) (cwd : Location)
    (disk : Tree) (dirs : GeneratedDirs) (nodes : List Node) : Prop :=
  ∃ after, m.install.carryOut machine values cwd disk = some after ∧
    ∀ node ∈ nodes, ∀ i, node.installation? values dirs = some i → i.Lasts cwd disk after

/-! ## Names -/

/-- The last component of what a target generates is the name. -/
theorem Target.basename_generated (target : Target) (root : String) {name : String}
    (h : Path.IsPlain name.toList) : (target.generated root name).basename = name := by
  have hfront : Path.IsFront (Path.join target.package (String.ofList [])).toList :=
    Path.isFront_join (.inl rfl)
  have hjoin : Path.join target.package name =
      String.ofList ((Path.join target.package (String.ofList [])).toList ++ name.toList) := by
    rw [← Path.join_append h.noSlash, List.nil_append, String.ofList_toList]
  obtain ⟨directory, -, hfiles⟩ := Resource.exists_directory root hfront
  rw [Target.generated, hjoin, (hfiles _ h).2, String.ofList_toList]

namespace SharedSpec

variable {target : Target} {spec : SharedSpec}

/-- The links are named behind the linked file. -/
theorem names_eq (dirs : GeneratedDirs) (h : Path.IsPlain target.name.toList) :
    spec.names target = (spec.linked dirs target).basename
      :: (spec.aliases dirs target).map Resource.basename := by
  have hbasename : ∀ name ∈ spec.names target,
      (Resource.basename ∘ target.generated dirs.pkgfileDir) name = id name := by
    intro name hname
    rw [Function.comp_apply, id_eq,
      target.basename_generated dirs.pkgfileDir (isPlain_of_mem_names h.noSlash hname)]
  have hnames : (spec.outputs dirs target).map Resource.basename = spec.names target := by
    rw [outputs_eq, List.map_map, List.map_congr_left hbasename, List.map_id]
  rw [← hnames, outputs, List.map_cons]

end SharedSpec

/-! ## Lines -/

namespace Make

variable {value : String → List Char} {destination directory : String}

/-- Make expands the text to one that names a directory to a shell. -/
structure Directs (value : String → List Char) (destination directory : String) : Prop where
  expands : Expands value destination.toList directory.toList
  ne_empty : directory ≠ ""
  inert : ∀ c ∈ directory.toList, isInert c = true

namespace Directs

theorem means (h : Directs value destination directory) :
    Means value (.plain destination) [.word directory] :=
  .word h.expands h.ne_empty h.inert

theorem plain {path : String} (h : IsFileName path) : Directs value path path := by
  have hinert : ∀ c ∈ path.toList, isInert c = true := fun c hc => isInert_of_isPlain (h.all c hc)
  exact ⟨.plain (not_mem_of_isInert hinert (by decide)), h.ne_empty, hinert⟩

theorem append (h : Directs value destination directory) {path : String} (hpath : IsFileName path) :
    Directs value (destination ++ path) (directory ++ path) := by
  have hplain : Directs value path path := plain hpath
  refine ⟨?_, by simp [h.ne_empty], ?_⟩
  · rw [String.toList_append, String.toList_append]
    exact h.expands.append hplain.expands
  · rw [String.toList_append]
    exact List.forall_mem_append.2 ⟨h.inert, hplain.inert⟩

theorem place (h : Directs value destination directory) {name : String} (hname : IsFileName name) :
    Directs value (destination ++ "/" ++ name) (directory ++ "/" ++ name) :=
  (h.append ⟨by decide, by decide⟩).append hname

/-- A directory below the destination directory. -/
theorem below {name : String} (hname : ')' ∉ name.toList)
    (hdestination : ∀ c ∈ value "DESTDIR", isInert c = true)
    (hne : value name ≠ []) (hinert : ∀ c ∈ value name, isInert c = true) :
    Directs value ("$(DESTDIR)" ++ ("$(" ++ name ++ ")"))
      (String.ofList (value "DESTDIR" ++ value name)) := by
  have hreference : ')' ∉ "DESTDIR".toList := by decide
  have htext : "$(" ++ "DESTDIR" ++ ")" = "$(DESTDIR)" := by decide
  have hfirst : Expands value "$(DESTDIR)".toList (value "DESTDIR") :=
    htext ▸ .reference value hreference
  refine ⟨?_, ?_, ?_⟩
  · rw [String.toList_append, String.toList_ofList (l := value "DESTDIR" ++ value name)]
    exact hfirst.append (.reference value hname)
  · rw [ne_eq, ← String.toList_eq_nil_iff, String.toList_ofList]
    exact fun h => hne (List.append_eq_nil_iff.1 h).2
  · rw [String.toList_ofList]
    exact List.forall_mem_append.2 ⟨hdestination, hinert⟩

end Directs

/-- The text that a shell reads as a directory is the one that make hands on. -/
theorem Directs.installText (h : Directs (values.making installTarget) destination directory) :
    values.installText destination = directory := by
  rw [Values.installText, h.expands.expand_eq, Option.getD_some, String.ofList_toList]

theorem directs_variable (name : String) (hname : ')' ∉ name.toList)
    (hother : name ≠ "@" ∧ name ≠ "@D") (h : values.NameTree)
    (hvalue : values.get name ≠ [] ∧ ∀ c ∈ values.get name, isInert c = true) :
    ∃ directory, Directs (values.making installTarget) ("$(DESTDIR)" ++ ("$(" ++ name ++ ")"))
      directory := by
  have hdestination : values.making installTarget "DESTDIR" = values.get "DESTDIR" :=
    making_of_ne (by decide) values installTarget
  refine ⟨_, .below hname ?_ ?_ ?_⟩
  · rw [hdestination]
    exact h.destination
  · rw [making_of_ne hother]
    exact hvalue.1
  · rw [making_of_ne hother]
    exact hvalue.2

/-- The directory for executables. -/
theorem directs_binDir (h : values.NameTree) :
    Directs (values.making installTarget) Node.binDir (values.installText Node.binDir) := by
  obtain ⟨directory, hdirectory⟩ := directs_variable "BINDIR" (by decide) (by decide) h h.binDir
  have htext : "$(DESTDIR)" ++ ("$(" ++ "BINDIR" ++ ")") = Node.binDir := by decide
  rw [htext] at hdirectory
  rwa [hdirectory.installText]

/-- The directory that a shared library is installed to. -/
theorem directs_installDir (h : values.NameTree) (spec : SharedSpec) {file : Resource}
    (hfile : IsFileName file.fullPath) :
    Directs (values.making installTarget) (spec.installDir file)
      (values.installText (spec.installDir file)) := by
  obtain ⟨root, hroot⟩ := directs_variable "LIBDIR" (by decide) (by decide) h h.libDir
  have htext : "$(DESTDIR)" ++ ("$(" ++ "LIBDIR" ++ ")") = SharedSpec.libDir := by decide
  rw [htext] at hroot
  -- the directory is the root itself, a place below it, or a place of its own
  have hexists : ∃ directory,
      Directs (values.making installTarget) (spec.installDir file) directory := by
    obtain ⟨directory, hmem, heq⟩ := installDir_eq spec file
    rw [heq]
    split
    · exact ⟨root, hroot⟩
    · next hne =>
      have hname : IsFileName directory :=
        ⟨by simpa using hne, fun c hc => all_dirname .isPlain hfile c (hmem c hc)⟩
      have hend : (SharedSpec.libDir.isEmpty || SharedSpec.libDir.toList.getLast? == some '/') =
          false := by
        decide
      unfold Path.join
      rw [hend]
      split
      · exact ⟨directory, .plain hname⟩
      · exact ⟨_, hroot.place hname⟩
  obtain ⟨directory, hdirectory⟩ := hexists
  rwa [hdirectory.installText]

variable (machine : Shell.Machine)

/-- The line that makes a directory. -/
theorem lineVectors_directory
    (h : Directs (values.making installTarget) destination directory) :
    lineVectors machine values installTarget
        (Word.line [.plain "mkdir", .plain "-p", .plain destination]).toList =
      some [["mkdir", "-p", directory]] := by
  have hname : Opens (values.making installTarget) (.plain "mkdir") (["mkdir"].map .word) :=
    .name (by decide) (by decide)
  have hmore : Hands (values.making installTarget) ([.plain "-p"] ++ [.plain destination])
      (["-p"] ++ [directory]) :=
    (Hands.plains ["-p"] (by decide)).append (.single h.means)
  exact lineVectors_eq_single hname (by decide) hmore machine

/-- The line that installs a file. -/
theorem lineVectors_installFile
    (h : Directs (values.making installTarget) destination directory) {file : Resource}
    (hfile : IsFileName file.fullPath) (hname : IsFileName file.basename) :
    lineVectors machine values installTarget
        (Word.line (Node.installFile destination file)).toList =
      some [["install", "-m", "0755", file.fullPath, directory ++ "/" ++ file.basename]] := by
  have hopens : Opens (values.making installTarget) (.plain "install") (["install"].map .word) :=
    .name (by decide) (by decide)
  have hmore : Hands (values.making installTarget)
      ([.plain "-m", .plain "0755"] ++ [.file file]
        ++ [.plain (destination ++ "/" ++ file.basename)])
      (["-m", "0755"] ++ [file.fullPath] ++ [directory ++ "/" ++ file.basename]) :=
    ((Hands.plains ["-m", "0755"] (by decide)).append (.file hfile)).append
      (.single (h.place hname).means)
  exact lineVectors_eq_single hopens (by decide) hmore machine

/-- The lines that make the links, each to the file before it. -/
theorem mapM_installAliases
    (h : Directs (values.making installTarget) destination directory) {previous : Resource}
    {links : List Resource} (hnames : ∀ r ∈ previous :: links, IsFileName r.basename) :
    (Node.installAliases destination previous links).mapM (fun words =>
        lineVectors machine values installTarget (Word.line words).toList) =
      some (((previous.basename :: links.map Resource.basename).zip
        (links.map Resource.basename)).map fun pair =>
          [["ln", "-sf", pair.1, directory ++ "/" ++ pair.2]]) := by
  induction links generalizing previous with
  | nil => rfl
  | cons link rest ih =>
    rw [List.forall_mem_cons] at hnames
    have hlink : IsFileName link.basename := hnames.2 link List.mem_cons_self
    have hopens : Opens (values.making installTarget) (.plain "ln") (["ln"].map .word) :=
      .name (by decide) (by decide)
    have hmore : Hands (values.making installTarget)
        ([.plain "-sf"] ++ [.plain previous.basename]
          ++ [.plain (destination ++ "/" ++ link.basename)])
        (["-sf"] ++ [previous.basename] ++ [directory ++ "/" ++ link.basename]) :=
      ((Hands.plains ["-sf"] (by decide)).append (.name hnames.1)).append
        (.single (h.place hlink).means)
    have hline := lineVectors_eq_single hopens (by decide) hmore machine
    have hrest := ih hnames.2
    rw [Node.installAliases, List.mapM_cons]
    simp only [List.cons_append, List.nil_append] at hline
    rw [hline, hrest]
    rfl

end Make

/-! ## The lines of a node -/

namespace Node

/-- The name of every output is one of those of the library. -/
theorem basename_mem_names {spec : SharedSpec} (h : Path.IsPlain node.target.name.toList)
    {r : Resource} (hr : r ∈ spec.outputs dirs node.target) :
    r.basename ∈ spec.names node.target := by
  rw [SharedSpec.names_eq dirs h, ← List.map_cons]
  exact List.mem_map_of_mem hr

/-- Make and a shell make of the lines of a node the commands of its installation, one of each
line. -/
theorem mapM_installPart (hvalues : values.NameTree) (hroot : IsFileName dirs.pkgfileDir)
    (hplain : Path.IsPlain node.target.name.toList)
    (hnamed : (node.installation? values dirs).isSome → node.target.Named isPlain)
    (machine : Shell.Machine) :
    (node.installPart dirs).2.mapM (fun words =>
        lineVectors machine values installTarget (Word.line words).toList) =
      some ((node.installation? values dirs).toList.flatMap fun i => i.commands.map ([·])) := by
  unfold installation? at hnamed ⊢
  unfold installPart
  cases hbody : node.body with
  | library c | autoconf spec | listing prerequisites => rfl
  | binary c =>
    rw [hbody] at hnamed
    have hnamed := hnamed rfl
    have hfile : IsFileName (executable dirs node.target).fullPath :=
      hnamed.executable .isPlain hroot
    have hname : (executable dirs node.target).basename = node.target.name :=
      node.target.basename_generated dirs.pkgfileDir hplain
    have hdirectory := directs_binDir hvalues
    have hinstall := lineVectors_installFile machine hdirectory hfile (hname ▸ hnamed.name)
    rw [hname] at hinstall
    simp only [List.mapM_cons, List.mapM_nil]
    rw [lineVectors_directory machine hdirectory, hinstall]
    rfl
  | sharedLibrary c spec =>
    rw [hbody] at hnamed
    have hnamed := hnamed rfl
    have hfiles : ∀ r ∈ spec.outputs dirs node.target, IsFileName r.fullPath := fun r hr =>
      hnamed.outputs .isPlain hroot spec hr
    have hnames : ∀ r ∈ spec.outputs dirs node.target, IsFileName r.basename := by
      intro r hr
      have hcomponent :=
        SharedSpec.isPlain_of_mem_names hplain.noSlash (basename_mem_names hplain hr)
      exact ⟨mt String.toList_eq_nil_iff.2 hcomponent.ne_nil, all_basename (hfiles r hr)⟩
    -- the directory, the file, and the chain of links to it
    have hdirectory := directs_installDir hvalues spec (hfiles _ List.mem_cons_self)
    have hinstall := lineVectors_installFile machine hdirectory (hfiles _ List.mem_cons_self)
      (hnames _ List.mem_cons_self)
    have hlinks := mapM_installAliases machine hdirectory hnames
    simp only [List.mapM_append, List.mapM_cons, List.mapM_nil]
    rw [lineVectors_directory machine hdirectory, hinstall, hlinks]
    simp [Installation.commands, Installation.pairs]

/-- What a node installs is well-formed. -/
theorem wellFormed_installation (hvalues : values.NameTree) (hroot : IsFileName dirs.pkgfileDir)
    (hnamed : node.target.Named isPlain) (hplain : Path.IsPlain node.target.name.toList)
    {i : Installation} (hi : node.installation? values dirs = some i) : i.WellFormed := by
  unfold installation? at hi
  cases hbody : node.body with
  | library c | autoconf spec | listing prerequisites => simp [hbody] at hi
  | binary c =>
    simp only [hbody, Option.some.injEq] at hi
    subst hi
    exact ⟨(directs_binDir hvalues).ne_empty, List.forall_mem_singleton.2 hplain,
      List.nodup_singleton _⟩
  | sharedLibrary c spec =>
    simp only [hbody, Option.some.injEq] at hi
    subst hi
    have hfile := hnamed.outputs .isPlain hroot spec List.mem_cons_self
    -- the file and its links are named by the names of the library
    have hnames : spec.names node.target = (spec.linked dirs node.target).basename
        :: (spec.aliases dirs node.target).map Resource.basename :=
      SharedSpec.names_eq dirs hplain
    refine ⟨(directs_installDir hvalues spec hfile).ne_empty, ?_, ?_⟩
    · rw [← hnames]
      exact fun name hname => SharedSpec.isPlain_of_mem_names hplain.noSlash hname
    · rw [← hnames]
      exact SharedSpec.nodup_names node.target spec

end Node

/-! ## The install rule -/

section Rule

variable {ctx : Context} {session : Session} {roots : List Target} {packages : List String}
  {g : Graph} {nodes : List Node}

/-- What is made of the items one by one is made of all of them. -/
theorem mapM_flatMap {α β γ : Type} {items : List α} {f : α → List β} {g : β → Option γ}
    {h : α → List γ} (hitem : ∀ item ∈ items, (f item).mapM g = some (h item)) :
    (items.flatMap f).mapM g = some (items.flatMap h) := by
  induction items with
  | nil => rfl
  | cons item rest ih =>
    rw [List.forall_mem_cons] at hitem
    rw [List.flatMap_cons, List.mapM_append, hitem.1, ih hitem.2]
    rfl

/-- The commands of the installations of some nodes, each from a line of its own. -/
theorem flatten_commands (values : Values) (dirs : GeneratedDirs) (nodes : List Node) :
    (nodes.flatMap fun node => (node.installation? values dirs).toList.flatMap fun i =>
        i.commands.map ([·])).flatten =
      (installations values dirs nodes).flatMap Installation.commands := by
  induction nodes with
  | nil => rfl
  | cons node rest ih =>
    rw [List.flatMap_cons, List.flatten_append, ih]
    unfold installations
    cases hi : node.installation? values dirs with
    | none => simp [hi]
    | some i =>
      have hlines : (i.commands.map ([·])).flatten = i.commands := by
        rw [← List.flatMap_def, List.flatMap_singleton']
      simp [hi, hlines]

/-- Carrying out the install rule of some nodes is carrying out the commands of their
installations. -/
theorem carryOut_installRecipe (hvalues : values.NameTree) (hroot : IsFileName dirs.pkgfileDir)
    (hplain : ∀ node ∈ nodes, Path.IsPlain node.target.name.toList)
    (hnamed : ∀ node ∈ nodes,
      (node.installation? values dirs).isSome → node.target.Named isPlain)
    (machine : Shell.Machine) (cwd : Location) (disk : Tree) :
    (Makefile.installRecipe dirs nodes).rule.carryOut machine values cwd disk =
      ((installations values dirs nodes).flatMap Installation.commands).foldlM (Tree.run cwd)
        disk := by
  have hvectors := mapM_flatMap fun node hnode =>
    Node.mapM_installPart hvalues hroot (hplain node hnode) (hnamed node hnode) machine
  have hcommands : (Makefile.installRecipe dirs nodes).rule.commands =
      (nodes.flatMap fun node => (node.installPart dirs).2).map Word.line := rfl
  rw [Rule.carryOut, hcommands, List.mapM_map, Function.comp_def, Recipe.rule_target,
    Makefile.installRecipe, hvectors, Option.bind_eq_bind, Option.bind_some, flatten_commands]

/-- Let the directory for what is linked and the targets that install something be named by plain
characters, and let the variables for the directories to install to be plain as well. Then carrying
out the install rule of a selection succeeds on every disk that holds the files to install, outside
of their new places, and lets them be made there, if the places of the nodes are apart. Every node
finds a copy of its own file at its place, and every link leads to it link by link. -/
theorem Context.generate_installs {text : String} {after later : Session}
    (hfresh : session.packages = [])
    (h : ctx.generate roots packages session = .ok text after)
    (hload : Loading.load ctx roots packages ⟨.empty, session⟩ = .ok () ⟨g, later⟩)
    (hvalues : values.NameTree) (hroot : IsFileName ctx.workspace.settings.dirs.pkgfileDir)
    (hnamed : ∀ node ∈ g.nodes,
      (node.installation? values ctx.workspace.settings.dirs).isSome → node.target.Named isPlain)
    (machine : Shell.Machine) (cwd : Location) (disk : Tree)
    (hready : disk.Ready cwd (installations values ctx.workspace.settings.dirs g.nodes))
    (hapart : Apart cwd (installations values ctx.workspace.settings.dirs g.nodes)) :
    ∃ m settled, ctx.Makes session roots packages g m settled ∧ text = m.serialize ∧
      m.Installs machine values cwd disk ctx.workspace.settings.dirs g.nodes := by
  obtain ⟨g', m, settled, hmakes, rfl⟩ := generate_eq_ok_iff.1 ⟨after, h⟩
  obtain rfl : g = g' := by
    obtain ⟨later', hload'⟩ := hmakes.loads
    rw [hload, EStateM.Result.ok.injEq, Loading.mk.injEq] at hload'
    exact hload'.2.1
  refine ⟨m, settled, hmakes, rfl, ?_⟩
  obtain ⟨nodes, hresolve, hm⟩ := Makefile.assembled_of_ofGraph hmakes.made
  have hperm := (Makefile.closures_of_resolve hresolve).perm
  have hplain := Loading.isPlain_name_of_load hfresh hload
  -- what is installed does not depend on the order of the nodes
  have hinstallations : (installations values ctx.workspace.settings.dirs g.nodes).Perm
      (installations values ctx.workspace.settings.dirs nodes) := hperm.symm.filterMap _
  have hwell : ∀ i ∈ installations values ctx.workspace.settings.dirs nodes, i.WellFormed := by
    intro i hi
    obtain ⟨node, hnode, hinstalls⟩ := List.mem_filterMap.1 hi
    have hmem := hperm.subset hnode
    exact Node.wellFormed_installation hvalues hroot (hnamed node hmem (by rw [hinstalls]; rfl))
      (hplain node hmem) hinstalls
  obtain ⟨final, hrun, hlasts⟩ := exists_run_installations hwell
    (hready.mono hinstallations.symm.subset) (hapart.perm hinstallations)
  refine ⟨final, ?_, ?_⟩
  · rw [hm.install, carryOut_installRecipe hvalues hroot
      (fun node hnode => hplain node (hperm.subset hnode))
      (fun node hnode => hnamed node (hperm.subset hnode))]
    exact hrun
  · intro node hnode i hi
    exact hlasts i (List.mem_filterMap.2 ⟨node, hperm.symm.subset hnode, hi⟩)

end Rule

/-! ## Workspaces -/

namespace Context

/-- The session at the start of a pass over a workspace with these directories and build files. -/
def workspaceSession (files : List (List String × String)) : Session :=
  .new ⟨⟨(["work"], .directory) ::
    files.flatMap fun (package, text) =>
      ((package.inits.drop 1).map fun front => (["work"] ++ front, .directory))
        ++ [(["work"] ++ package ++ ["BUILD.toml"], .file text)]⟩, []⟩ []

/-- A disk with some files, each of which holds its own path, and the directories around them. -/
def diskOf (files : List (List String)) : Tree := fun place =>
  if files.contains place then some (.file ("/".intercalate place))
  else if files.any place.isPrefixOf then some .directory
  else none

/-- The directories that the samples install to. -/
def sampleValues : Values :=
  [("DESTDIR", "/stage".toList), ("BINDIR", "/usr/bin".toList), ("LIBDIR", "/usr/lib".toList)]

/-- An executable and a shared library with a version. -/
def sharedSession : Session :=
  workspaceSession
    [([], "[[targets]]\nkind='cc_binary'\nname='draw'"),
      (["shapes"], "[[targets]]\nkind='cc_shared_library'\nname='area'\nversion='1.2.3'")]

/-- What is installed of the executable and the library. -/
def sharedInstallations : List Installation :=
  [⟨".gen-pkg/draw", "/stage/usr/bin", "draw", []⟩,
    ⟨".gen-pkg/shapes/libarea.so.1.2.3", "/stage/usr/lib", "libarea.so.1.2.3",
      ["libarea.so.1", "libarea.so"]⟩]

/-- The disk of the sample, on which an older executable is installed. -/
def sharedDisk : Tree :=
  diskOf [["work", ".gen-pkg", "draw"], ["work", ".gen-pkg", "shapes", "libarea.so.1.2.3"],
    ["stage", "usr", "bin", "draw"]]

/-- The executable and the library are installed, with the links to the library. -/
theorem generate_installs_sample :
    ∃ text after g later, sharedSession.packages = [] ∧
      Loading.sampleContext.generate [] ["", "shapes"] sharedSession = .ok text after ∧
      Loading.load Loading.sampleContext [] ["", "shapes"] ⟨.empty, sharedSession⟩ =
        .ok () ⟨g, later⟩ ∧
      sampleValues.NameTree ∧
      IsFileName Loading.sampleContext.workspace.settings.dirs.pkgfileDir ∧
      installations sampleValues Loading.sampleContext.workspace.settings.dirs g.nodes =
        sharedInstallations ∧
      (∀ node ∈ g.nodes, node.target.Named isPlain) ∧
      sharedDisk.Ready ⟨1, ["work"]⟩ sharedInstallations ∧
      Apart ⟨1, ["work"]⟩ sharedInstallations ∧
      ∃ m settled, Loading.sampleContext.Makes sharedSession [] ["", "shapes"] g m settled ∧
        text = m.serialize ∧ m.Installs Loading.freshShell sampleValues ⟨1, ["work"]⟩ sharedDisk
          Loading.sampleContext.workspace.settings.dirs g.nodes := by
  have hchecked : Loading.sampleContext.checkMade sharedSession [] ["", "shapes"] (fun g _ =>
      decide (installations sampleValues Loading.sampleContext.workspace.settings.dirs g.nodes =
        sharedInstallations ∧ ∀ node ∈ g.nodes, node.target.Named isPlain)) = true := by
    decide +kernel
  obtain ⟨g, later, m, settled, hload, hmakes, hfits⟩ := exists_makes_of_check hchecked
  obtain ⟨hinstallations, hnamed⟩ := of_decide_eq_true hfits
  have hvalues : sampleValues.NameTree :=
    ⟨by decide, ⟨by decide, by decide⟩, ⟨by decide, by decide⟩⟩
  have hroot : IsFileName Loading.sampleContext.workspace.settings.dirs.pkgfileDir := by decide
  have hready : sharedDisk.Ready ⟨1, ["work"]⟩ sharedInstallations := by decide +kernel
  have hapart : Apart ⟨1, ["work"]⟩ sharedInstallations := by decide +kernel
  obtain ⟨after, hgenerate⟩ := generate_eq_ok_iff.2 ⟨g, m, settled, hmakes, rfl⟩
  exact ⟨_, after, g, later, rfl, hgenerate, hload, hvalues, hroot, hinstallations, hnamed, hready,
    hapart, generate_installs rfl hgenerate hload hvalues hroot
      (fun node hnode _ => hnamed node hnode) Loading.freshShell _ _ (hinstallations ▸ hready)
      (hinstallations ▸ hapart)⟩

/-- The workspace makes a Makefile whose install rule does not leave everything in its place, though
the disk is ready for it. -/
def FailsToInstall (packages : List String) (session : Session) (disk : Tree) : Prop :=
  ∃ text after g m settled,
    Loading.sampleContext.generate [] packages session = .ok text after ∧
    Loading.sampleContext.Makes session [] packages g m settled ∧ text = m.serialize ∧
    disk.Ready ⟨1, ["work"]⟩
      (installations sampleValues Loading.sampleContext.workspace.settings.dirs g.nodes) ∧
    ¬ m.Installs Loading.freshShell sampleValues ⟨1, ["work"]⟩ disk
      Loading.sampleContext.workspace.settings.dirs g.nodes

/-- Carrying out the commands fails, or something else than its own file stands at the place of an
installation. -/
def misplaces (commands : List String) (disk : Tree) (is : List Installation) : Bool :=
  let rule : Rule := ⟨installTarget, [], commands⟩
  match rule.carryOut Loading.freshShell sampleValues ⟨1, ["work"]⟩ disk with
  | none => true
  | some after => is.any fun i =>
    after.fileAt? (i.place ⟨1, ["work"]⟩ i.name) != disk.fileAt? (placeOf ⟨1, ["work"]⟩ i.source)

/-- A workspace whose install rule has some commands fails to install if they misplace something. -/
theorem failsToInstall_of_check {packages : List String} {session : Session} {disk : Tree}
    (is : List Installation) (commands : List String)
    (h : Loading.sampleContext.checkMade session [] packages (fun g m =>
      decide (installations sampleValues Loading.sampleContext.workspace.settings.dirs
        g.nodes = is ∧ m.install.target = installTarget ∧ m.install.commands = commands)) = true)
    (hready : disk.Ready ⟨1, ["work"]⟩ is) (hmisplaces : misplaces commands disk is = true) :
    FailsToInstall packages session disk := by
  obtain ⟨g, later, m, settled, -, hmakes, hchecked⟩ := exists_makes_of_check h
  obtain ⟨rfl, htarget, rfl⟩ := of_decide_eq_true hchecked
  obtain ⟨after, hgenerate⟩ := generate_eq_ok_iff.2 ⟨g, m, settled, hmakes, rfl⟩
  refine ⟨_, after, g, m, settled, hgenerate, hmakes, rfl, hready, ?_⟩
  rintro ⟨final, hrun, hlasts⟩
  rw [Rule.carryOut, htarget] at hrun
  simp only [misplaces, Rule.carryOut, hrun, List.any_eq_true, bne_iff_ne] at hmisplaces
  obtain ⟨i, hi, hne⟩ := hmisplaces
  obtain ⟨node, hnode, hinstalls⟩ := List.mem_filterMap.1 hi
  obtain ⟨text, hbefore, hafter⟩ := (hlasts node hnode i hinstalls).copied
  rw [hbefore, Tree.fileAt?, hafter] at hne
  exact hne rfl

/-- Two executables of one name in different packages. -/
def namesakes : Session :=
  workspaceSession [(["a"], "[[targets]]\nkind='cc_binary'\nname='draw'"),
    (["b"], "[[targets]]\nkind='cc_binary'\nname='draw'")]

/-- A shared library, and another one in a directory that is named like the first. -/
def nested : Session :=
  workspaceSession [([], "[[targets]]\nkind='cc_shared_library'\nname='z'"),
    (["x", "libz.so"],
      "[[targets]]\nkind='cc_shared_library'\nname='a'\ninstall_strip_prefix='x'")]

/-- An executable with a blank in its name. -/
def spaced : Session :=
  workspaceSession [([], "[[targets]]\nkind='cc_binary'\nname='my tool'")]

/-- Not everything is installed of two executables of one name, of a library in a directory named
like another library, or of an executable with a blank in its name. -/
theorem generate_installs_over :
    FailsToInstall ["a", "b"] namesakes
      (diskOf [["work", ".gen-pkg", "a", "draw"], ["work", ".gen-pkg", "b", "draw"]]) ∧
    FailsToInstall ["", "x/libz.so"] nested
      (diskOf [["work", ".gen-pkg", "libz.so"],
        ["work", ".gen-pkg", "x", "libz.so", "liba.so"]]) ∧
    FailsToInstall [""] spaced (diskOf [["work", ".gen-pkg", "my tool"]]) := by
  refine ⟨failsToInstall_of_check
      [⟨".gen-pkg/a/draw", "/stage/usr/bin", "draw", []⟩,
        ⟨".gen-pkg/b/draw", "/stage/usr/bin", "draw", []⟩]
      ["mkdir -p $(DESTDIR)$(BINDIR)",
        "install -m 0755 .gen-pkg/a/draw $(DESTDIR)$(BINDIR)/draw",
        "mkdir -p $(DESTDIR)$(BINDIR)",
        "install -m 0755 .gen-pkg/b/draw $(DESTDIR)$(BINDIR)/draw"] ?_ ?_ ?_,
    failsToInstall_of_check
      [⟨".gen-pkg/libz.so", "/stage/usr/lib", "libz.so", []⟩,
        ⟨".gen-pkg/x/libz.so/liba.so", "/stage/usr/lib/libz.so", "liba.so", []⟩]
      ["mkdir -p $(DESTDIR)$(LIBDIR)",
        "install -m 0755 .gen-pkg/libz.so $(DESTDIR)$(LIBDIR)/libz.so",
        "mkdir -p $(DESTDIR)$(LIBDIR)/libz.so",
        "install -m 0755 .gen-pkg/x/libz.so/liba.so $(DESTDIR)$(LIBDIR)/libz.so/liba.so"] ?_ ?_ ?_,
    failsToInstall_of_check
      [⟨".gen-pkg/my tool", "/stage/usr/bin", "my tool", []⟩]
      ["mkdir -p $(DESTDIR)$(BINDIR)",
        "install -m 0755 .gen-pkg/my tool $(DESTDIR)$(BINDIR)/my tool"] ?_ ?_ ?_⟩
  all_goals decide +kernel

end Context

end Makewright
