import Makewright.Proofs.Generation.Values
import Makewright.Proofs.Makefile.Commands
import Makewright.Proofs.Node.Plain

/-!
# The commands of a node

`Node.Invokes` lists the argument vectors that the rules of a node ask for: those of the compilers,
of the linker and of the scripts of a package with its own configure script, each flag in its place.
Where the variables of the toolchain hold what the settings say, make and a shell make just these
vectors of the recipes of a plain node (`invokes_of_recipes`).
-/

set_option autoImplicit false

namespace Makewright

open Make

/-- What the variables of a Makefile stand for: the words of the two compilers and of make's own
command, and the directory in which make runs. -/
structure Tools where
  cc : List String
  cxx : List String
  make : List String
  directory : String

/-- Make starts with these values for its own command and for its directory. -/
structure Tools.Given (t : Tools) (given : Values) : Prop where
  make : ∃ command : String, given.get "MAKE" = command.toList ∧ IsCommand command t.make
  directory : given.get "CURDIR" = t.directory.toList
  inert : ∀ c ∈ t.directory.toList, isInert c = true

/-- The flag that the compilers get if there are shared libraries. -/
def positionFlags (nodes : List Node) : List String :=
  if nodes.any (·.kind == "cc_shared_library") then ["-fPIC"] else []

namespace Tools

variable (t : Tools) (s : Settings)

/-- The argument vector that compiles a source. -/
def compile (extra : List String) (c : Compilation) (source : Resource) (language : Language)
    (object : String) : List String :=
  let front :=
    match language with
    | .cxx => t.cxx ++ ["-I.", "-I" ++ s.dirs.genfileDir] ++ (s.toolchain.cxxflags ++ extra)
        ++ c.cxxflags
    | _ => t.cc ++ ["-I.", "-I" ++ s.dirs.genfileDir] ++ (s.toolchain.cflags ++ extra) ++ c.cflags
  front ++ ["-c", source.fullPath, "-o", object]

/-- The linker that a set of inputs needs. -/
def linker (inputs : FileSet) : List String :=
  if .cxx ∈ inputs.languages then t.cxx else t.cc

/-- The argument vector that links an executable. -/
def linkBinary (node : Node) (inputs : FileSet) (closure : List Node) (output : String) :
    List String :=
  t.linker inputs ++ ["-o", output] ++ inputs.paths
    ++ (s.toolchain.ldflags ++ node.collectLdflags closure)

/-- The argument vector that links a shared library. -/
def linkShared (node : Node) (spec : SharedSpec) (inputs : FileSet) (closure : List Node)
    (output : String) : List String :=
  t.linker inputs ++ ["-shared", "-o", output] ++ inputs.paths
    ++ ["-Wl,-soname," ++ spec.soname node.target]
    ++ spec.exportedSymbols.toList.map ("-Wl,--version-script=" ++ ·.fullPath)
    ++ (s.toolchain.ldflags ++ node.collectLdflags closure)

/-- The argument vectors that build a package with its own configure script, line by line. -/
def build (target : Target) (spec : AutoconfSpec) : List (List (List String)) :=
  let buildDir := (AutoconfSpec.buildDir s.dirs target).fullPath
  let outputDir := (AutoconfSpec.outputDir s.dirs target).fullPath
  let stamp := (AutoconfSpec.stamp s.dirs target).fullPath
  [[["rm", "-rf", buildDir], ["mkdir", "-p", buildDir, outputDir]],
   [["cp", "-R", spec.sourceDir ++ "/.", buildDir]],
   [["cd", buildDir],
    ["./configure", "--prefix=" ++ t.directory ++ "/" ++ outputDir] ++ spec.configureArgs],
   [t.make ++ ["-C", buildDir] ++ spec.makeTargets],
   [t.make ++ ["-C", buildDir, "install"]],
   [["mkdir", "-p", parentOf stamp], ["touch", stamp]]]

end Tools

/-- The rules of a node run the tools with these argument vectors, where `vectors` gives those of
the rule for a target. -/
structure Node.Invokes (t : Tools) (s : Settings) (extra : List String)
    (vectors : String → Option (List (List (List String)))) (node : Node) (closure : List Node) :
    Prop where
  compile : ∀ c, node.body.compilation? = some c → ∀ source language,
    (source, language) ∈ c.sources.entries →
      let object := (Compilation.objectFor s.dirs source).fullPath
      vectors object =
        some [[["mkdir", "-p", parentOf object]], [t.compile s extra c source language object]]
  linkBinary : ∀ c, node.body = .binary c → ∃ inputs,
    linkInputs s.dirs node c closure = .ok inputs ∧
      let output := (executable s.dirs node.target).fullPath
      vectors output =
        some [[["mkdir", "-p", parentOf output]], [t.linkBinary s node inputs closure output]]
  linkShared : ∀ c spec, node.body = .sharedLibrary c spec → ∃ inputs,
    linkInputs s.dirs node c closure = .ok inputs ∧
      let output := (spec.linked s.dirs node.target).fullPath
      vectors output =
        some [[["mkdir", "-p", parentOf output]], [t.linkShared s node spec inputs closure output]]
  build : ∀ spec, node.body = .autoconf spec →
    vectors (AutoconfSpec.stamp s.dirs node.target).fullPath = some (t.build s node.target spec)

namespace Makefile

variable {t : Tools} {s : Settings} {extra : List String} {values : Values} {made : String}
  {node : Node} {closure : List Node} {inputs : FileSet} {given : Values}
  {heads : List (String × List String)}

/-- The words of a reference to a variable. -/
theorem hands_variable (name : String) {text : String} {args : List String}
    (htext : text = "$(" ++ name ++ ")") (hname : ')' ∉ name.toList)
    (hother : name ≠ "@" ∧ name ≠ "@D") (h : Shell.Reads (values.get name) (args.map .word)) :
    Hands (values.making made) [.plain text] args := by
  apply Hands.reference htext hname
  rw [making_of_ne hother]
  exact h

theorem hands_cppflags (h : Equipped s extra values) (hdirs : s.dirs.Named isPlain) :
    Hands (values.making made) [.plain "$(CPPFLAGS)"] ["-I.", "-I" ++ s.dirs.genfileDir] := by
  have hdirectory : ∀ c ∈ ("-I" ++ s.dirs.genfileDir).toList, isInert c = true := by
    have hfront : ∀ c ∈ "-I".toList, isInert c = true := by decide
    intro c hc
    rw [String.toList_append] at hc
    rcases List.mem_append.1 hc with hc | hc
    · exact hfront c hc
    · exact isInert_of_isPlain (hdirs.genfileDir.all c hc)
  have hhere : Shell.Reads "-I.".toList [.word "-I."] := .bare (by decide) (by decide)
  have hthere : Shell.Reads ("-I" ++ s.dirs.genfileDir).toList
      [.word ("-I" ++ s.dirs.genfileDir)] :=
    .bare (by simp) fun c hc => isBare_of_isInert (hdirectory c hc)
  have htext : ("-I. -I" ++ s.dirs.genfileDir).toList =
      "-I.".toList ++ ' ' :: ("-I" ++ s.dirs.genfileDir).toList := by
    simp
  refine hands_variable "CPPFLAGS" (by decide) (by decide) (by decide) ?_
  rw [h.cppflags, htext]
  exact hhere.append hthere

/-- The line that compiles a source hands the compiler all flags. -/
theorem lineVectors_compileLine (hplain : s.Plain t.cc t.cxx) (h : Equipped s extra values)
    {c : Compilation} (hc : c.Plain) {source : Resource} (hsource : IsFileName source.fullPath)
    (hmade : IsFileName made) (language : Language) (m : Shell.Machine) :
    lineVectors m values made (Word.line (Node.compileLine c source language)).toList =
      some [t.compile s extra c source language made] := by
  have hcflags : Hands (values.making made) (c.cflags.map .flag) c.cflags :=
    .flags fun flag hflag => hc.flags flag (List.mem_append_left _ hflag)
  have hcxxflags : Hands (values.making made) (c.cxxflags.map .flag) c.cxxflags :=
    .flags fun flag hflag => hc.flags flag (List.mem_append_right _ hflag)
  -- the end of the command is the same for both compilers
  have htail : Hands (values.making made)
      ([.plain "-c"] ++ [.file source] ++ [.plain "-o"] ++ [.plain "$@"])
      (["-c"] ++ [source.fullPath] ++ ["-o"] ++ [made]) :=
    (((Hands.plains ["-c"] (by decide)).append (.file hsource)).append
      (.plains ["-o"] (by decide))).append (.target (if_pos rfl) hmade)
  have hcpp : Hands (values.making made) [.plain "$(CPPFLAGS)"]
      ["-I.", "-I" ++ s.dirs.genfileDir] := hands_cppflags h hplain.dirs
  -- without a language a source is compiled as C
  have hc : lineVectors m values made (Word.line (Node.compileLine c source .c)).toList =
      some [t.compile s extra c source .c made] := by
    have hvariable : Hands (values.making made) [.plain "$(CFLAGS)"]
        (s.toolchain.cflags ++ extra) :=
      hands_variable "CFLAGS" (by decide) (by decide) (by decide) h.cflags
    have hmore := ((hcpp.append hvariable).append hcflags).append htail
    have hcc : values.making made "CC" = s.toolchain.cc.toList := by
      rw [making_of_ne (by decide), h.cc]
    have hline := lineVectors_eq_command rfl (by decide) hcc hplain.cc hmore m
    simpa [Node.compileLine, Tools.compile] using hline
  cases language with
  | c => exact hc
  | none => exact hc
  | cxx =>
    have hvariable : Hands (values.making made) [.plain "$(CXXFLAGS)"]
        (s.toolchain.cxxflags ++ extra) :=
      hands_variable "CXXFLAGS" (by decide) (by decide) (by decide) h.cxxflags
    have hmore := ((hcpp.append hvariable).append hcxxflags).append htail
    have hcxx : values.making made "CXX" = s.toolchain.cxx.toList := by
      rw [making_of_ne (by decide), h.cxx]
    have hline := lineVectors_eq_command rfl (by decide) hcxx hplain.cxx hmore m
    simpa [Node.compileLine, Tools.compile] using hline

/-! ## Linking -/

/-- A line that runs a linker. -/
theorem lineVectors_linker (hplain : s.Plain t.cc t.cxx) (h : Equipped s extra values)
    (inputs : FileSet) {more : List Word} {args : List String}
    (hmore : Hands (values.making made) more args) (m : Shell.Machine) :
    lineVectors m values made (Word.line (.plain (Node.linker inputs) :: more)).toList =
      some [t.linker inputs ++ args] := by
  unfold Node.linker Tools.linker
  split
  · have hcxx : values.making made "CXX" = s.toolchain.cxx.toList := by
      rw [making_of_ne (by decide), h.cxx]
    exact lineVectors_eq_command rfl (by decide) hcxx hplain.cxx hmore m
  · have hcc : values.making made "CC" = s.toolchain.cc.toList := by
      rw [making_of_ne (by decide), h.cc]
    exact lineVectors_eq_command rfl (by decide) hcc hplain.cc hmore m

/-- The linker flags at the end of a line. -/
theorem hands_linkTail (h : Equipped s extra values)
    (hnodes : ∀ next ∈ node :: closure, next.Plain) :
    Hands (values.making made) (node.linkTail closure)
      (s.toolchain.ldflags ++ node.collectLdflags closure) := by
  have hvariable : Hands (values.making made) [.plain "$(LDFLAGS)"] s.toolchain.ldflags :=
    hands_variable "LDFLAGS" (by decide) (by decide) (by decide) h.ldflags
  refine hvariable.append (.flags fun flag hflag => ?_)
  rw [Node.collectLdflags, mem_distinct] at hflag
  obtain ⟨next, hnext, hflag⟩ := List.mem_flatMap.1 hflag
  exact (hnodes next hnext).ldflags flag hflag

theorem hands_inputs (h : ∀ path ∈ inputs.paths, IsFileName path) :
    Hands (values.making made) (inputs.toList.map (.file ·)) inputs.paths := by
  have hfile : ∀ r ∈ inputs.toList, Means (values.making made) (.file r) [.word r.fullPath] := by
    intro r hr
    simpa using Means.file (h _ (FileSet.mem_paths.2 ⟨r, hr, rfl⟩)) "" (by decide)
  exact .map Resource.fullPath hfile

/-- The commands that link an executable. -/
theorem vectors_linkBinary (hplain : s.Plain t.cc t.cxx) (h : Equipped s extra values)
    (hnodes : ∀ next ∈ node :: closure, next.Plain)
    (hinputs : ∀ path ∈ inputs.paths, IsFileName path) (m : Shell.Machine) :
    let output := (Node.executable s.dirs node.target).fullPath
    (node.linkBinary s.dirs inputs closure).lines.mapM
        (fun words => lineVectors m values output (Word.line words).toList) =
      some [[["mkdir", "-p", parentOf output]], [t.linkBinary s node inputs closure output]] := by
  intro output
  have houtput : IsFileName output :=
    (hnodes node List.mem_cons_self).named.target.executable .isPlain hplain.pkgfileDir
  have htarget : Hands (values.making output) ([.plain "-o"] ++ [.plain "$@"]) ["-o", output] :=
    (Hands.plains ["-o"] (by decide)).append (.target (if_pos rfl) houtput)
  have hmore := (htarget.append (hands_inputs hinputs)).append (hands_linkTail h hnodes)
  have hline := lineVectors_linker hplain h inputs hmore m
  simp only [Node.linkBinary, List.mapM_cons, List.mapM_nil, lineVectors_makeOwnDir houtput]
  simp only [List.cons_append, List.nil_append] at hline ⊢
  rw [hline]
  simp [Tools.linkBinary]

/-- The commands that link a shared library. -/
theorem vectors_linkShared (hplain : s.Plain t.cc t.cxx) (h : Equipped s extra values)
    (hshared : values.get "SHARED_LDFLAGS" = "-shared".toList)
    (hnodes : ∀ next ∈ node :: closure, next.Plain) {spec : SharedSpec}
    (hsymbols : ∀ r ∈ spec.exportedSymbols.toList, IsFileName r.fullPath)
    (hinputs : ∀ path ∈ inputs.paths, IsFileName path) (m : Shell.Machine) :
    let output := (spec.linked s.dirs node.target).fullPath
    (node.linkShared s.dirs spec inputs closure).lines.mapM
        (fun words => lineVectors m values output (Word.line words).toList) =
      some [[["mkdir", "-p", parentOf output]],
        [t.linkShared s node spec inputs closure output]] := by
  intro output
  have hnode : node.Plain := hnodes node List.mem_cons_self
  have houtput : IsFileName output :=
    hnode.named.target.outputs .isPlain hplain.pkgfileDir spec List.mem_cons_self
  have hvariable : Hands (values.making output) [.plain "$(SHARED_LDFLAGS)"] ["-shared"] :=
    hands_variable "SHARED_LDFLAGS" (by decide) (by decide) (by decide)
      (hshared ▸ .bare (by decide) (by decide))
  have htarget : Hands (values.making output) ([.plain "-o"] ++ [.plain "$@"]) ["-o", output] :=
    (Hands.plains ["-o"] (by decide)).append (.target (if_pos rfl) houtput)
  have hsoname : Hands (values.making output) [.plain ("-Wl,-soname," ++ spec.soname node.target)]
      ["-Wl,-soname," ++ spec.soname node.target] :=
    .name (.append ⟨by decide, by decide⟩ (hnode.named.target.soname .isPlain spec))
  have hfiles : Hands (values.making output)
      (spec.exportedSymbols.toList.map (.file · "-Wl,--version-script="))
      (spec.exportedSymbols.toList.map ("-Wl,--version-script=" ++ ·.fullPath)) :=
    .files hsymbols _ (by decide)
  have hmore := ((((hvariable.append htarget).append (hands_inputs hinputs)).append hsoname).append
    hfiles).append (hands_linkTail h hnodes)
  have hline := lineVectors_linker hplain h inputs hmore m
  simp only [Node.linkShared, List.mapM_cons, List.mapM_nil, lineVectors_makeOwnDir houtput]
  simp only [List.cons_append, List.nil_append] at hline ⊢
  rw [hline]
  simp [Tools.linkShared]

/-! ## Packages with their own configure script -/

variable {spec : AutoconfSpec}

/-- The option that names the directory to install into. -/
theorem hands_destination (hgiven : t.Given given)
    (hdirectory : values.get "CURDIR" = given.get "CURDIR") {output : String}
    (houtput : IsFileName output) :
    Hands (values.making made) [.plain ("--prefix=$(CURDIR)/" ++ output)]
      ["--prefix=" ++ t.directory ++ "/" ++ output] := by
  have hname : ')' ∉ "CURDIR".toList := by decide
  have hvalue : values.making made "CURDIR" = t.directory.toList := by
    rw [making_of_ne (by decide), hdirectory, hgiven.directory]
  apply Conveys.single
  apply Means.word
  · have hfront : '$' ∉ "--prefix=".toList := by decide
    have hbehind : '$' ∉ "/".toList ++ output.toList := by
      simp [houtput.isWord.not_mem (c := '$') (by decide)]
    have hexpands := ((Expands.plain hfront).append
      (.reference (values.making made) hname)).append (.plain hbehind)
    rw [hvalue] at hexpands
    simpa [Word.text] using hexpands
  · simp
  · have hfixed : ∀ c ∈ "--prefix=".toList ++ "/".toList, isInert c = true := by decide
    intro c hc
    simp only [String.toList_append, List.mem_append] at hc
    rcases hc with ((hc | hc) | hc) | hc
    · exact hfixed c (List.mem_append_left _ hc)
    · exact hgiven.inert c hc
    · exact hfixed c (List.mem_append_right _ hc)
    · exact isInert_of_isPlain (houtput.all c hc)

/-- The settings in front of a command. -/
theorem conveys_environment (hspec : spec.Plain) :
    Conveys (values.making made)
      (spec.configureEnv.map fun (name, value) => .plain (name ++ "=" ++ Shell.quote value))
      (spec.configureEnv.map fun setting => .assign setting.1 setting.2) := by
  apply Conveys.map fun setting : String × String => .assign setting.1 setting.2
  rintro ⟨name, value⟩ hsetting
  obtain ⟨hname, hvalue⟩ := hspec.environment _ hsetting
  exact .assign hname hvalue

/-- The line that configures a package: what stands in front of the command are assignments. -/
theorem lineVectors_configureLine (hnode : node.Plain) (hdirs : s.dirs.Named isPlain)
    (hspec : spec.Plain) (hgiven : t.Given given)
    (hdirectory : values.get "CURDIR" = given.get "CURDIR") (m : Shell.Machine) :
    lineVectors m values made (Word.line (Node.configureLine s.dirs node.target spec)).toList =
      some [["cd", (AutoconfSpec.buildDir s.dirs node.target).fullPath],
        ["./configure",
          "--prefix=" ++ t.directory ++ "/" ++ (AutoconfSpec.outputDir s.dirs node.target).fullPath]
        ++ spec.configureArgs] := by
  have hopens : Opens (values.making made) (.plain "cd") [.word "cd"] :=
    .name (by decide) (by decide)
  have hbuild : Conveys (values.making made)
      [.plain (AutoconfSpec.buildDir s.dirs node.target).fullPath, .plain "&&"]
      [.word (AutoconfSpec.buildDir s.dirs node.target).fullPath, .next] :=
    .cons (.name (hnode.named.target.buildDir .isPlain hdirs.objectDir)) (.single .next)
  have hcommand : Hands (values.making made) [.plain "./configure"] ["./configure"] :=
    .plains ["./configure"] (by decide)
  have hflags : Hands (values.making made) (spec.configureArgs.map .flag) spec.configureArgs :=
    .flags fun flag hflag => hspec.flags flag (List.mem_append_left _ hflag)
  have houtput := hnode.named.target.outputDir .isPlain hdirs.genfileDir
  have harguments :=
    (hcommand.append (hands_destination hgiven hdirectory houtput)).append hflags
  have hmore := (hbuild.append (conveys_environment hspec)).append harguments
  have hequals : '=' ∉ "cd".toList ∧ '=' ∉ "./configure".toList := by decide
  have hline := fun hproper => lineVectors_eq hopens hmore hproper m
  simpa [Node.configureLine, Shell.Token.Proper, Shell.Token.vectorsFrom, hequals] using hline

/-- The line that starts from an empty build directory. -/
theorem lineVectors_prepare {buildDir outputDir : String} (hbuild : IsFileName buildDir)
    (houtput : IsFileName outputDir) (m : Shell.Machine) :
    lineVectors m values made (Word.line [.plain "@rm", .plain "-rf", .plain buildDir, .plain "&&",
        .plain "mkdir", .plain "-p", .plain buildDir, .plain outputDir]).toList =
      some [["rm", "-rf", buildDir], ["mkdir", "-p", buildDir, outputDir]] := by
  have hopens : Opens (values.making made) (.plain "rm") [.word "rm"] :=
    .name (by decide) (by decide)
  have hremove : Hands (values.making made) ([.plain "-rf"] ++ [.plain buildDir])
      ["-rf", buildDir] :=
    (Hands.plains ["-rf"] (by decide)).append (.name hbuild)
  have hmake : Hands (values.making made)
      ([.plain "mkdir", .plain "-p"] ++ [.plain buildDir] ++ [.plain outputDir])
      ["mkdir", "-p", buildDir, outputDir] :=
    ((Hands.plains ["mkdir", "-p"] (by decide)).append (.name hbuild)).append (.name houtput)
  have hmore := (Conveys.append hremove (.single .next)).append hmake
  have hequals : '=' ∉ "rm".toList ∧ '=' ∉ "mkdir".toList := by decide
  have hline := fun hproper => lineVectors_eq hopens hmore hproper m
  rw [line_at "rm" (by decide), lineVectors_at]
  simpa [Shell.Token.Proper, Shell.Token.vectorsFrom, hequals] using hline

/-- The line that copies the sources of a package. -/
theorem lineVectors_copy {sourceDir buildDir : String}
    (hsource : ∀ c ∈ sourceDir.toList, isInert c = true) (hbuild : IsFileName buildDir)
    (m : Shell.Machine) :
    lineVectors m values made
        (Word.line [.plain "cp", .plain "-R", .tree sourceDir, .plain buildDir]).toList =
      some [["cp", "-R", sourceDir ++ "/.", buildDir]] := by
  have hopens : Opens (values.making made) (.plain "cp") (["cp"].map .word) :=
    .name (by decide) (by decide)
  have hinert : ∀ c ∈ (sourceDir ++ "/.").toList, isInert c = true := by
    have hfixed : ∀ c ∈ "/.".toList, isInert c = true := by decide
    intro c hc
    rw [String.toList_append] at hc
    exact (List.mem_append.1 hc).elim (hsource c) (hfixed c)
  have htree : Hands (values.making made) [.tree sourceDir] [sourceDir ++ "/."] :=
    .single (.inert rfl (by simp) hinert)
  have hmore := ((Hands.plains ["-R"] (by decide)).append htree).append (.name hbuild)
  exact lineVectors_eq_single hopens (by decide) hmore m

/-- A line that runs make in the build directory. -/
theorem lineVectors_make (hgiven : t.Given given) (hmake : values.get "MAKE" = given.get "MAKE")
    {buildDir : String} (hbuild : IsFileName buildDir) {more : List Word} {args : List String}
    (hmore : Hands (values.making made) more args) (m : Shell.Machine) :
    lineVectors m values made
        (Word.line (.plain "$(MAKE)" :: .plain "-C" :: .plain buildDir :: more)).toList =
      some [t.make ++ ["-C", buildDir] ++ args] := by
  obtain ⟨command, hcommand, hwords⟩ := hgiven.make
  have hvalue : values.making made "MAKE" = command.toList := by
    rw [making_of_ne (by decide), hmake, hcommand]
  have hall := ((Hands.plains ["-C"] (by decide)).append (.name hbuild)).append hmore
  have hline := lineVectors_eq_command rfl (by decide) hvalue hwords hall m
  simpa using hline

/-- The line that leaves the stamp. -/
theorem lineVectors_touch (hmade : IsFileName made) (m : Shell.Machine) :
    lineVectors m values made
        (Word.line (makeOwnDir ++ [.plain "&&", .plain "touch", .plain "$@"])).toList =
      some [["mkdir", "-p", parentOf made], ["touch", made]] := by
  have htouch : Hands (values.making made) ([.plain "touch"] ++ [.plain "$@"]) ["touch", made] :=
    (Hands.plains ["touch"] (by decide)).append (.target (if_pos rfl) hmade)
  have hmore := Conveys.append (.single .next) htouch
  have hequals : '=' ∉ "mkdir".toList ∧ '=' ∉ "touch".toList := by decide
  have hline := fun hproper =>
    lineVectors_eq (opens_makeDirectory values hmade) hmore hproper m
  rw [makeOwnDir, List.singleton_append, line_at "mkdir -p $(@D)" (by decide), lineVectors_at]
  simpa [Shell.Token.Proper, Shell.Token.vectorsFrom, hequals] using hline

/-- The commands that build a package. -/
theorem vectors_stampRecipe (hnode : node.Plain) (hdirs : s.dirs.Named isPlain) (hspec : spec.Plain)
    (hgiven : t.Given given) (hdirectory : values.get "CURDIR" = given.get "CURDIR")
    (hmake : values.get "MAKE" = given.get "MAKE") (m : Shell.Machine) :
    (node.stampRecipe s.dirs spec closure).lines.mapM (fun words => lineVectors m values
        (AutoconfSpec.stamp s.dirs node.target).fullPath (Word.line words).toList) =
      some (t.build s node.target spec) := by
  have hstamp := hnode.named.target.stamp .isPlain hdirs.genfileDir
  have hbuild := hnode.named.target.buildDir .isPlain hdirs.objectDir
  have houtput := hnode.named.target.outputDir .isPlain hdirs.genfileDir
  have htargets : Hands (values.making (AutoconfSpec.stamp s.dirs node.target).fullPath)
      (spec.makeTargets.map .flag) spec.makeTargets :=
    .flags fun flag hflag => hspec.flags flag (List.mem_append_right _ hflag)
  have hinstall : Hands (values.making (AutoconfSpec.stamp s.dirs node.target).fullPath)
      [.plain "install"] ["install"] := .plains ["install"] (by decide)
  simp only [Node.stampRecipe, List.mapM_cons, List.mapM_nil, List.cons_append, List.nil_append]
  rw [lineVectors_prepare hbuild houtput, lineVectors_copy hspec.sourceDir hbuild,
    lineVectors_configureLine hnode hdirs hspec hgiven hdirectory,
    lineVectors_make hgiven hmake hbuild htargets, lineVectors_make hgiven hmake hbuild hinstall,
    lineVectors_touch hstamp]
  simp [Tools.build]

end Makefile

namespace Node

/-! ## All commands of a node -/

variable {t : Tools} {s : Settings} {values given : Values} {node : Node} {closure : List Node}
  {recipes : List Recipe} {heads : List (String × List String)} {c : Compilation}
  {dirs : GeneratedDirs}

theorem compileRecipes_subset (h : node.recipes dirs closure = .ok recipes)
    (hc : node.body.compilation? = some c) : compileRecipes dirs c closure ⊆ recipes := by
  cases written_of_recipes h with
  | library hbody | binary hbody =>
    rw [hbody] at hc
    cases hc
    exact List.subset_append_left _ _
  | sharedLibrary hbody =>
    rw [hbody] at hc
    cases hc
    rw [List.append_assoc, List.append_assoc]
    exact List.subset_append_left _ _
  | autoconf hbody | listing hbody =>
    rw [hbody] at hc
    cases hc

theorem exists_linkBinary (h : node.recipes dirs closure = .ok recipes)
    (hnode : node.body = .binary c) : ∃ inputs, linkInputs dirs node c closure = .ok inputs ∧
      node.linkBinary dirs inputs closure ∈ recipes := by
  cases written_of_recipes h with
  | binary hbody hlink =>
    rw [hbody] at hnode
    cases hnode
    exact ⟨_, hlink, List.mem_append_right _ List.mem_cons_self⟩
  | library hbody | sharedLibrary hbody | autoconf hbody | listing hbody =>
    rw [hbody] at hnode
    cases hnode

theorem exists_linkShared {spec : SharedSpec} (h : node.recipes dirs closure = .ok recipes)
    (hnode : node.body = .sharedLibrary c spec) :
    ∃ inputs, linkInputs dirs node c closure = .ok inputs ∧
      node.linkShared dirs spec inputs closure ∈ recipes := by
  cases written_of_recipes h with
  | sharedLibrary hbody hlink =>
    rw [hbody] at hnode
    cases hnode
    exact ⟨_, hlink, by simp⟩
  | library hbody | binary hbody | autoconf hbody | listing hbody =>
    rw [hbody] at hnode
    cases hnode

theorem stampRecipe_mem {spec : AutoconfSpec} (h : node.recipes dirs closure = .ok recipes)
    (hnode : node.body = .autoconf spec) : node.stampRecipe dirs spec closure ∈ recipes := by
  cases written_of_recipes h with
  | autoconf hbody =>
    rw [hbody] at hnode
    cases hnode
    exact List.mem_cons_self
  | library hbody | binary hbody | sharedLibrary hbody | listing hbody =>
    rw [hbody] at hnode
    cases hnode

/-- Make and a shell make the vectors that a plain node asks for of its recipes. -/
theorem invokes_of_recipes {m : Shell.Machine}
    {vectors : String → Option (List (List (List String)))} (hplain : s.Plain t.cc t.cxx)
    (hgiven : t.Given given) (hvalued : Makefile.Valued s given heads values)
    (hcompile : ∀ c, node.body.compilation? = some c → Makefile.compileBlock s ∈ heads)
    (hshared : ∀ c spec, node.body = .sharedLibrary c spec → Makefile.sharedBlock ∈ heads)
    (hnodes : ∀ next ∈ node :: closure, next.Plain)
    (hrecipes : node.recipes s.dirs closure = .ok recipes)
    (hwaits : ∀ recipe ∈ recipes, ∀ name ∈ recipe.prerequisites, IsFileName name)
    (hvectors : ∀ recipe ∈ recipes, vectors recipe.target = recipe.lines.mapM
      fun words => lineVectors m values recipe.target (Word.line words).toList) :
    node.Invokes t s (Makefile.sharedFlags heads) vectors closure := by
  have hbody := (hnodes node List.mem_cons_self).body
  refine ⟨?_, ?_, ?_, ?_⟩
  · -- a source is compiled
    intro c hc source language hentry object
    have hplainC : c.Plain := by
      cases hkind : node.body <;> rw [hkind] at hc hbody <;> cases hc
      · exact hbody
      · exact hbody
      · exact hbody.1
    have hsource : IsFileName source.fullPath := by
      refine hplainC.files _ (List.mem_append_left _ (FileSet.mem_paths.2 ⟨source, ?_, rfl⟩))
      exact List.mem_map.2 ⟨_, hentry, rfl⟩
    have hobject : IsFileName (Compilation.objectFor s.dirs source).fullPath :=
      isMadeOf_objects .isPlain hplain.dirs hplainC.files (source, language) hentry
    have hmem : compileRecipe s.dirs c (collectDependencyFiles s.dirs closure) source language ∈
        recipes :=
      compileRecipes_subset hrecipes hc (List.mem_map.2 ⟨(source, language), hentry, rfl⟩)
    have hline := Makefile.lineVectors_compileLine hplain (hvalued.equipped (hcompile c hc)) hplainC
      hsource hobject language m
    have hmade := hvectors _ hmem
    simp only [compileRecipe, List.mapM_cons, List.mapM_nil] at hmade
    rw [lineVectors_makeOwnDir hobject, hline] at hmade
    exact hmade
  · -- an executable is linked
    intro c hc
    obtain ⟨inputs, hlink, hmem⟩ := exists_linkBinary hrecipes hc
    have hequipped := hvalued.equipped (hcompile c (by rw [hc]; rfl))
    have hinputs : ∀ path ∈ inputs.paths, IsFileName path := fun path hpath =>
      hwaits _ hmem path (List.mem_append_left _ hpath)
    exact ⟨inputs, hlink, (hvectors _ hmem).trans
      (Makefile.vectors_linkBinary hplain hequipped hnodes hinputs m)⟩
  · -- a shared library is linked
    intro c spec hc
    obtain ⟨inputs, hlink, hmem⟩ := exists_linkShared hrecipes hc
    have hequipped := hvalued.equipped (hcompile c (by rw [hc]; rfl))
    rw [hc] at hbody
    have hsymbols : ∀ r ∈ spec.exportedSymbols.toList, IsFileName r.fullPath := fun r hr =>
      hbody.2 r (Option.mem_toList.1 hr)
    have hinputs : ∀ path ∈ inputs.paths, IsFileName path := fun path hpath =>
      hwaits _ hmem path (List.mem_append_left _ (List.mem_append_left _ hpath))
    exact ⟨inputs, hlink, (hvectors _ hmem).trans (Makefile.vectors_linkShared hplain hequipped
      (hvalued.shared (hshared c spec hc)).1 hnodes hsymbols hinputs m)⟩
  · -- a package is built by its own configure script
    intro spec hc
    rw [hc] at hbody
    exact (hvectors _ (stampRecipe_mem hrecipes hc)).trans (Makefile.vectors_stampRecipe
      (hnodes node List.mem_cons_self) hplain.dirs hbody hgiven
      (hvalued.kept "CURDIR" (by simp)) (hvalued.kept "MAKE" (by simp)) m)

end Node

end Makewright
