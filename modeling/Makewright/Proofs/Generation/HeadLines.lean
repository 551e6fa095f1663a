import Makewright.Proofs.Generation.Acyclic
import Makewright.Proofs.Generation.Heads
import Makewright.Proofs.Makefile.Assignments

/-!
# The definitions in head lines

Whatever the kinds of the nodes are and in which order they come, the definitions in the head lines
of a Makefile stand in an order in which each fits behind the ones in front of it: no variable is
defined outright a second time, flags are added to variables that are there, and places to install
to are built on a root that is there (`Makefile.Stacked.scoped`). The flag that position-independent
code needs is still there at the end (`Makefile.Stacked.endsWithFlag`).
-/

set_option autoImplicit false

namespace Makewright

open Make Makefile

variable {ctx : Context} {s : Settings} {dirs : GeneratedDirs} {node : Node}
  {nodes closure : List Node} {m : Makefile} {front : List Definition}

/-- The values of the settings that stand in head lines break no line. -/
structure Settings.Unbroken (s : Settings) : Prop where
  texts : ∀ text ∈ [s.toolchain.cc, s.toolchain.cxx, s.toolchain.installRoot, s.dirs.objectDir,
    s.dirs.genfileDir, s.dirs.pkgfileDir], IsLine text.toList
  flags : ∀ flag ∈ s.toolchain.cflags ++ s.toolchain.cxxflags ++ s.toolchain.ldflags,
    '\n' ∉ flag.toList

instance (s : Settings) : Decidable s.Unbroken :=
  decidable_of_iff ((∀ text ∈ [s.toolchain.cc, s.toolchain.cxx, s.toolchain.installRoot,
      s.dirs.objectDir, s.dirs.genfileDir, s.dirs.pkgfileDir], IsLine text.toList) ∧
      ∀ flag ∈ s.toolchain.cflags ++ s.toolchain.cxxflags ++ s.toolchain.ldflags,
        '\n' ∉ flag.toList)
    ⟨fun h => ⟨h.1, h.2⟩, fun h => ⟨h.1, h.2⟩⟩

namespace Makefile

/-! ## The definitions of the head blocks -/

/-- The variables whose values are settings. -/
def settingNames : List String :=
  ["PREFIX", "OBJ_DIR", "GEN_DIR", "PKG_DIR", "CC", "CXX", "CFLAGS", "CXXFLAGS", "CPPFLAGS",
    "LDFLAGS"]

/-- The variables that a definition refers to at the start of its text, unless the text is that of a
setting. -/
def written (d : Definition) : List String :=
  match d.manner with
  | .outright => if d.name ∈ settingNames then [] else references (d.text.dropWhile isBlank)
  | .behind | .fallback => references (d.text.dropWhile isBlank)

/-- The definitions in some lines. -/
def definitionsIn (lines : List String) : List Definition :=
  lines.filterMap fun line => definition? line.toList

/-- The definition of a variable as a text. -/
def setting (name text : String) : Definition :=
  ⟨name, .outright, ' ' :: uncommented 0 text.toList⟩

/-- What the settings of the workspace define. -/
def workspaceDefinitions (s : Settings) : List Definition :=
  [⟨".DEFAULT_GOAL", .outright, " all".toList⟩, setting "PREFIX" s.toolchain.installRoot,
   ⟨"DESTDIR", .fallback, []⟩, setting "OBJ_DIR" s.dirs.objectDir,
   setting "GEN_DIR" s.dirs.genfileDir, setting "PKG_DIR" s.dirs.pkgfileDir]

/-- What the block about the toolchain defines. -/
def compileDefinitions (s : Settings) : List Definition :=
  [setting "CC" s.toolchain.cc, setting "CXX" s.toolchain.cxx,
   ⟨"CFLAGS", .outright, flagsText s.toolchain.cflags⟩,
   ⟨"CXXFLAGS", .outright, flagsText s.toolchain.cxxflags⟩,
   setting "CPPFLAGS" ("-I. -I" ++ s.dirs.genfileDir),
   ⟨"LDFLAGS", .outright, flagsText s.toolchain.ldflags⟩]

/-- What the block about executables defines. -/
def binaryDefinitions : List Definition :=
  [⟨"BINDIR", .outright, " $(PREFIX)/bin".toList⟩]

/-- What the block about shared libraries adds to the flags of the compilers. -/
def sharedAdditions : List Definition :=
  [⟨"CFLAGS", .behind, " -fPIC".toList⟩, ⟨"CXXFLAGS", .behind, " -fPIC".toList⟩]

/-- What else the block about shared libraries defines. -/
def sharedDefinitions : List Definition :=
  [⟨"SHARED_LDFLAGS", .outright, " -shared".toList⟩,
   ⟨"LIBDIR", .outright, " $(PREFIX)/lib".toList⟩]

/-- The lines are definitions that break no line, one for one. -/
abbrev Assign (lines : List String) (ds : List Definition) : Prop :=
  List.Forall₂ (fun line d => IsLine line.toList ∧ definition? line.toList = some d) lines ds

theorem Assign.definitionsIn_eq {lines : List String} {ds : List Definition}
    (h : Assign lines ds) : definitionsIn lines = ds := by
  induction h with
  | nil => rfl
  | @cons line d rest others hfirst _ ih =>
    have hcons : definitionsIn (line :: rest) = d :: definitionsIn rest :=
      List.filterMap_cons_some hfirst.2
    rw [hcons, ih]

theorem Assign.isFront {lines : List String} {ds : List Definition} (h : Assign lines ds) :
    ∀ line ∈ lines, IsLine line.toList ∧ IsFront line.toList := by
  induction h with
  | nil => simp
  | cons hfirst _ ih =>
    rw [List.forall_mem_cons]
    exact ⟨⟨hfirst.1, Or.inr (by simp [hfirst.2])⟩, ih⟩

/-- A line with a name, the operator and a text. -/
theorem assign_setting {start name text : String}
    (hstart : start.toList = name.toList ++ [' ', ':', '=', ' '])
    (hname : ∀ c ∈ name.toList, isVerbatim c = true) (h : IsLine text.toList) :
    IsLine (start ++ text).toList ∧ definition? (start ++ text).toList = some (setting name text) := by
  have hline : (start ++ text).toList = name.toList ++ ' ' :: ':' :: '=' :: ' ' :: text.toList := by
    simp [hstart]
  rw [hline]
  exact ⟨isLine_setting hname h, definition?_setting hname text.toList⟩

theorem assign_workspace (h : s.Unbroken) :
    Assign (workspaceHead s) (workspaceDefinitions s) := by
  have htexts := h.texts
  simp only [List.forall_mem_cons] at htexts
  obtain ⟨-, -, hroot, hobjects, hgenerated, hpackages, -⟩ := htexts
  refine .cons ⟨by decide, rfl⟩ (.cons ?_ (.cons ⟨by decide, rfl⟩ (.cons ?_ (.cons ?_ (.cons ?_
    .nil)))))
  · exact assign_setting (by decide) (by decide) hroot
  · exact assign_setting (by decide) (by decide) hobjects
  · exact assign_setting (by decide) (by decide) hgenerated
  · exact assign_setting (by decide) (by decide) hpackages

theorem assign_compile (h : s.Unbroken) :
    Assign (NodeClass.compileHead s).tail (compileDefinitions s) := by
  have htexts := h.texts
  simp only [List.forall_mem_cons] at htexts
  obtain ⟨hcc, hcxx, -, -, hgenerated, -⟩ := htexts
  have hinclude : IsLine ("-I. -I" ++ s.dirs.genfileDir).toList := by
    rw [String.toList_append]
    exact IsLine.append (by decide) hgenerated
  refine .cons ?_ (.cons ?_ (.cons ?_ (.cons ?_ (.cons ?_ (.cons ?_ .nil)))))
  · exact assign_setting (by decide) (by decide) hcc
  · exact assign_setting (by decide) (by decide) hcxx
  · exact ⟨isLine_flags (by decide) fun flag hflag => h.flags flag (by simp [hflag]),
      definition?_flags (by decide) _⟩
  · exact ⟨isLine_flags (by decide) fun flag hflag => h.flags flag (by simp [hflag]),
      definition?_flags (by decide) _⟩
  · -- the line is put together from the left, the text from the right
    have hline : IsLine ("CPPFLAGS := " ++ ("-I. -I" ++ s.dirs.genfileDir)).toList ∧
        definition? ("CPPFLAGS := " ++ ("-I. -I" ++ s.dirs.genfileDir)).toList =
          some (setting "CPPFLAGS" ("-I. -I" ++ s.dirs.genfileDir)) :=
      assign_setting (by decide) (by decide) hinclude
    simpa [String.append_assoc] using hline
  · exact ⟨isLine_flags (by decide) fun flag hflag => h.flags flag (by simp [hflag]),
      definition?_flags (by decide) _⟩

theorem assign_binary : Assign NodeClass.binaryHead.tail binaryDefinitions :=
  .cons ⟨by decide, rfl⟩ .nil

theorem assign_shared : Assign NodeClass.sharedHead.tail (sharedAdditions ++ sharedDefinitions) :=
  .cons ⟨by decide, rfl⟩ (.cons ⟨by decide, rfl⟩ (.cons ⟨by decide, rfl⟩
    (.cons ⟨by decide, rfl⟩ .nil)))

theorem definitionsIn_workspace (h : s.Unbroken) :
    definitionsIn (workspaceBlock s).2 = workspaceDefinitions s :=
  (assign_workspace h).definitionsIn_eq

theorem definitionsIn_compile (h : s.Unbroken) :
    definitionsIn (compileBlock s).2 = compileDefinitions s :=
  (assign_compile h).definitionsIn_eq

theorem definitionsIn_binary : definitionsIn binaryBlock.2 = binaryDefinitions :=
  assign_binary.definitionsIn_eq

theorem definitionsIn_shared :
    definitionsIn sharedBlock.2 = sharedAdditions ++ sharedDefinitions :=
  assign_shared.definitionsIn_eq

/-! ## Their order -/

theorem scoped_workspace (s : Settings) : Definition.Scoped written [] (workspaceDefinitions s) := by
  have hgoal : written ⟨".DEFAULT_GOAL", .outright, " all".toList⟩ = [] := by decide
  have hdestination : written ⟨"DESTDIR", .fallback, []⟩ = [] := by decide
  have hsetting : ∀ name ∈ settingNames, ∀ text, written (setting name text) = [] :=
    fun name hname text => if_pos hname
  have hnone : ∀ d ∈ workspaceDefinitions s, written d = [] := by
    simp only [workspaceDefinitions, List.forall_mem_cons]
    exact ⟨hgoal, hsetting _ (by decide) _, hdestination, hsetting _ (by decide) _,
      hsetting _ (by decide) _, hsetting _ (by decide) _, by simp⟩
  refine Definition.scoped_of_new (by simp) ?_ ?_ ?_
  · simp [workspaceDefinitions, setting]
  · simp [workspaceDefinitions, setting]
  · intro d hd name hname
    rw [hnone d hd] at hname
    exact absurd hname List.not_mem_nil

theorem scoped_compile (s : Settings) :
    Definition.Scoped written (workspaceDefinitions s) (compileDefinitions s) := by
  refine Definition.scoped_of_new ?_ ?_ ?_ ?_
  · simp [workspaceDefinitions, compileDefinitions, setting]
  · simp [compileDefinitions, setting]
  · simp [compileDefinitions, setting]
  · simp [compileDefinitions, setting, written, settingNames]

/-- What stands in front of the blocks about executables and shared libraries. -/
def baseDefinitions (s : Settings) : List Definition :=
  workspaceDefinitions s ++ compileDefinitions s

theorem exists_root (hbase : baseDefinitions s ⊆ front) : ∃ e ∈ front, e.name = "PREFIX" :=
  ⟨setting "PREFIX" s.toolchain.installRoot,
    hbase (by simp [baseDefinitions, workspaceDefinitions]), rfl⟩

theorem scoped_binary (hbase : baseDefinitions s ⊆ front)
    (hnew : ∀ e ∈ front, e.name ≠ "BINDIR") :
    Definition.Scoped written front binaryDefinitions := by
  have hwritten : written ⟨"BINDIR", .outright, " $(PREFIX)/bin".toList⟩ = ["PREFIX"] := by decide
  refine Definition.scoped_of_new ?_ ?_ ?_ ?_
  · simpa [binaryDefinitions] using hnew
  · simp [binaryDefinitions]
  · simp [binaryDefinitions]
  · intro d hd name hname
    rw [List.mem_singleton.1 hd, hwritten, List.mem_singleton] at hname
    exact hname ▸ exists_root hbase

theorem scoped_shared (hbase : baseDefinitions s ⊆ front)
    (hnew : ∀ e ∈ front, e.name ≠ "SHARED_LDFLAGS" ∧ e.name ≠ "LIBDIR") :
    Definition.Scoped written front (sharedAdditions ++ sharedDefinitions) := by
  have hnone : ∀ d ∈ sharedAdditions, written d = [] := by decide
  have hwritten : written ⟨"LIBDIR", .outright, " $(PREFIX)/lib".toList⟩ = ["PREFIX"] := by decide
  have hflag : written ⟨"SHARED_LDFLAGS", .outright, " -shared".toList⟩ = [] := by decide
  have hcflags : ∃ e ∈ front, e.name = "CFLAGS" ∧ e.manner = .outright :=
    ⟨⟨"CFLAGS", .outright, flagsText s.toolchain.cflags⟩,
      hbase (by simp [baseDefinitions, compileDefinitions]), rfl, rfl⟩
  have hcxxflags : ∃ e ∈ front, e.name = "CXXFLAGS" ∧ e.manner = .outright :=
    ⟨⟨"CXXFLAGS", .outright, flagsText s.toolchain.cxxflags⟩,
      hbase (by simp [baseDefinitions, compileDefinitions]), rfl, rfl⟩
  -- the additions need the variables of the toolchain, the rest needs names that are new
  rw [Definition.scoped_append]
  constructor
  · refine Definition.scoped_of_behind ?_ ?_
    · simp only [sharedAdditions, List.forall_mem_cons]
      exact ⟨⟨trivial, hcflags⟩, ⟨trivial, hcxxflags⟩, by simp⟩
    · intro d hd name hname
      rw [hnone d hd] at hname
      exact absurd hname List.not_mem_nil
  · have hadditions : ∀ e ∈ sharedAdditions, e.name ≠ "SHARED_LDFLAGS" ∧ e.name ≠ "LIBDIR" := by
      simp [sharedAdditions]
    have hall := List.forall_mem_append.2 ⟨hnew, hadditions⟩
    refine Definition.scoped_of_new ?_ ?_ ?_ ?_
    · simp only [sharedDefinitions, List.forall_mem_cons]
      exact ⟨fun e he => (hall e he).1, fun e he => (hall e he).2, by simp⟩
    · simp [sharedDefinitions]
    · simp [sharedDefinitions]
    · have hroot : ∃ e ∈ front ++ sharedAdditions, e.name = "PREFIX" :=
        exists_root (List.Subset.trans hbase (List.subset_append_left _ _))
      simp only [sharedDefinitions, List.forall_mem_cons, hflag, hwritten]
      exact ⟨by simp, ⟨hroot, by simp⟩, by simp⟩

/-- The head blocks come in one of these orders. -/
theorem Stacked.cases_heads {heads : List (String × List String)} (h : Stacked s heads) :
    heads = [workspaceBlock s] ∨
      ∃ rest ∈ [[], [binaryBlock], [sharedBlock], [binaryBlock, sharedBlock],
        [sharedBlock, binaryBlock]], heads = workspaceBlock s :: compileBlock s :: rest := by
  cases h with
  | bare => exact Or.inl rfl
  | @compiling rest hnodup hrest =>
    refine Or.inr ⟨rest, ?_, rfl⟩
    match rest, hnodup, hrest with
    | [], _, _ => simp
    | [first], _, hrest =>
      rcases hrest first (by simp) with rfl | rfl
      · simp
      · simp
    | [first, second], hnodup, hrest =>
      rcases hrest first (by simp) with rfl | rfl
      · rcases hrest second (by simp) with rfl | rfl
        · simp at hnodup
        · simp
      · rcases hrest second (by simp) with rfl | rfl
        · simp
        · simp at hnodup
    | first :: second :: third :: more, hnodup, hrest =>
      -- two blocks do not fill three places
      exfalso
      simp only [List.forall_mem_cons] at hrest
      obtain ⟨hfirst, hsecond, hthird, -⟩ := hrest
      rcases hfirst with rfl | rfl <;> rcases hsecond with rfl | rfl <;>
        rcases hthird with rfl | rfl <;> simp at hnodup

theorem definitions_eq (m : Makefile) :
    m.definitions = m.heads.flatMap fun head => definitionsIn head.2 := by
  rw [definitions, List.filterMap_flatMap]
  rfl

/-- The definitions in the head lines, whatever blocks there are: every one fits behind the ones in
front of it. -/
theorem Stacked.scoped (h : Stacked s m.heads) (hs : s.Unbroken) :
    Definition.Scoped written [] m.definitions := by
  have hbase : Definition.Scoped written [] (baseDefinitions s) :=
    Definition.scoped_append.2 ⟨scoped_workspace s, scoped_compile s⟩
  have hnames : ∀ e ∈ baseDefinitions s,
      e.name ≠ "BINDIR" ∧ e.name ≠ "SHARED_LDFLAGS" ∧ e.name ≠ "LIBDIR" := by
    simp [baseDefinitions, workspaceDefinitions, compileDefinitions, setting]
  have hsharedNames : ∀ e ∈ sharedAdditions ++ sharedDefinitions, e.name ≠ "BINDIR" := by
    simp [sharedAdditions, sharedDefinitions]
  have hbinaryNames : ∀ e ∈ binaryDefinitions,
      e.name ≠ "SHARED_LDFLAGS" ∧ e.name ≠ "LIBDIR" := by
    simp [binaryDefinitions]
  -- neither of the last two blocks defines a variable of the other, so both orders fit
  have hfirstBinary : Definition.Scoped written (baseDefinitions s) binaryDefinitions :=
    scoped_binary (List.Subset.refl _) fun e he => (hnames e he).1
  have hfirstShared : Definition.Scoped written (baseDefinitions s)
      (sharedAdditions ++ sharedDefinitions) :=
    scoped_shared (List.Subset.refl _) fun e he => (hnames e he).2
  have hgrown : ∀ more, baseDefinitions s ⊆ baseDefinitions s ++ more :=
    fun more => List.subset_append_left _ _
  rw [definitions_eq]
  rcases h.cases_heads with hheads | ⟨rest, hrest, hheads⟩
  · rw [hheads, List.flatMap_singleton, definitionsIn_workspace hs]
    exact scoped_workspace s
  · rw [hheads, List.flatMap_cons, List.flatMap_cons, definitionsIn_workspace hs,
      definitionsIn_compile hs, ← List.append_assoc]
    refine Definition.scoped_append.2 ⟨hbase, ?_⟩
    rw [List.nil_append]
    simp only [List.mem_cons, List.not_mem_nil, or_false] at hrest
    rcases hrest with rfl | rfl | rfl | rfl | rfl
    · trivial
    · rw [List.flatMap_singleton, definitionsIn_binary]
      exact hfirstBinary
    · rw [List.flatMap_singleton, definitionsIn_shared]
      exact hfirstShared
    · rw [List.flatMap_cons, List.flatMap_singleton, definitionsIn_binary, definitionsIn_shared]
      refine Definition.scoped_append.2 ⟨hfirstBinary, scoped_shared (hgrown _) ?_⟩
      exact List.forall_mem_append.2 ⟨fun e he => (hnames e he).2, hbinaryNames⟩
    · rw [List.flatMap_cons, List.flatMap_singleton, definitionsIn_binary, definitionsIn_shared]
      refine Definition.scoped_append.2 ⟨hfirstShared, scoped_binary (hgrown _) ?_⟩
      exact List.forall_mem_append.2 ⟨fun e he => (hnames e he).1, hsharedNames⟩

/-! ## The flag for shared libraries -/

/-- Behind the block about shared libraries there is only that about executables. -/
theorem Stacked.exists_shared {heads : List (String × List String)} (h : Stacked s heads)
    (hshared : sharedBlock ∈ heads) :
    ∃ before later, heads = before ++ sharedBlock :: later ∧ ∀ block ∈ later, block = binaryBlock := by
  have hworkspace : sharedBlock ≠ workspaceBlock s := by simp [sharedBlock, workspaceBlock]
  have hcompile : sharedBlock ≠ compileBlock s := by simp [sharedBlock, compileBlock]
  have hbinary : sharedBlock ≠ binaryBlock := by simp [sharedBlock, binaryBlock]
  rcases h.cases_heads with rfl | ⟨rest, hrest, rfl⟩
  · simp [hworkspace] at hshared
  · simp only [List.mem_cons, List.not_mem_nil, or_false] at hrest
    rcases hrest with rfl | rfl | rfl | rfl | rfl
    · simp [hworkspace, hcompile] at hshared
    · simp [hworkspace, hcompile, hbinary] at hshared
    · exact ⟨[workspaceBlock s, compileBlock s], [], rfl, by simp⟩
    · exact ⟨[workspaceBlock s, compileBlock s, binaryBlock], [], rfl, by simp⟩
    · exact ⟨[workspaceBlock s, compileBlock s], [binaryBlock], rfl, by simp⟩

/-- The flag that position-independent code needs stands at the end of the value. -/
def EndsWithFlag (value : List Char) : Prop :=
  ∃ front, value = front ++ "-fPIC".toList ∧ (front = [] ∨ front.getLast? = some ' ')

/-- If there is a block about shared libraries, the compilers get the flag at last. -/
theorem Stacked.endsWithFlag (h : Stacked s m.heads) (hshared : sharedBlock ∈ m.heads)
    {given values : Values} (hvalues : given.defineAll m.definitions = some values) :
    ∀ name ∈ ["CFLAGS", "CXXFLAGS"], EndsWithFlag (values.get name) := by
  obtain ⟨before, later, hheads, hlater⟩ := h.exists_shared hshared
  have hlaterNames : ∀ d ∈ later.flatMap fun head => definitionsIn head.2,
      d.name ≠ "CFLAGS" ∧ d.name ≠ "CXXFLAGS" := by
    intro d hd
    obtain ⟨block, hblock, hd⟩ := List.mem_flatMap.1 hd
    rw [hlater block hblock, definitionsIn_binary] at hd
    rw [List.mem_singleton.1 hd]
    decide
  have hsharedNames : ∀ d ∈ sharedDefinitions, d.name ≠ "CFLAGS" ∧ d.name ≠ "CXXFLAGS" := by
    simp [sharedDefinitions]
  have hbehind := List.forall_mem_append.2 ⟨hsharedNames, hlaterNames⟩
  have hdefinitions : m.definitions = (before.flatMap fun head => definitionsIn head.2) ++
      ⟨"CFLAGS", .behind, " -fPIC".toList⟩ :: ⟨"CXXFLAGS", .behind, " -fPIC".toList⟩ ::
        (sharedDefinitions ++ later.flatMap fun head => definitionsIn head.2) := by
    rw [definitions_eq, hheads, List.flatMap_append, List.flatMap_cons, definitionsIn_shared]
    rfl
  rw [hdefinitions] at hvalues
  simp only [List.forall_mem_cons]
  refine ⟨?_, ?_, by simp⟩
  · refine Values.get_of_last_behind hvalues ?_ (by decide)
    rw [List.forall_mem_cons]
    exact ⟨by decide, fun d hd => (hbehind d hd).1⟩
  · -- the addition to the other variable counts to what stands in front
    rw [← List.singleton_append, ← List.append_assoc] at hvalues
    exact Values.get_of_last_behind hvalues (fun d hd => (hbehind d hd).2) (by decide)

/-! ## Reading the definitions -/

/-- The head lines are comments and definitions, and none of them is broken. -/
theorem Stacked.isFront (h : Stacked s m.heads) (hs : s.Unbroken) :
    ∀ head ∈ m.heads, ∀ line ∈ head.2, IsLine line.toList ∧ IsFront line.toList := by
  have hcomment : ∀ line : String, IsLine line.toList → line.toList.head? = some '#' →
      IsLine line.toList ∧ IsFront line.toList := fun line hline hhead => ⟨hline, Or.inl hhead⟩
  intro head hhead
  rcases h.known head hhead with rfl | rfl | rfl | rfl
  · exact (assign_workspace hs).isFront
  · exact List.forall_mem_cons.2
      ⟨hcomment "# C/C++ toolchain" (by decide) rfl, (assign_compile hs).isFront⟩
  · exact List.forall_mem_cons.2
      ⟨hcomment "# Executables" (by decide) rfl, assign_binary.isFront⟩
  · exact List.forall_mem_cons.2
      ⟨hcomment "# Shared libraries" (by decide) rfl, assign_shared.isFront⟩

/-- The references in a text have ends. -/
def Expandable (text : List Char) : Prop :=
  ∀ value, ∃ expanded, expand value (text.dropWhile isBlank) = some expanded

theorem Expandable.plain {text : List Char} (h : '$' ∉ text) : Expandable text :=
  fun _ => ⟨_, Expands.expand_eq
    (.plain fun hmem => h ((List.dropWhile_sublist isBlank).subset hmem))⟩

theorem Expandable.blank {text : List Char} (h : Expandable text) : Expandable (' ' :: text) := by
  intro value
  rw [List.dropWhile_cons_of_pos (by decide)]
  exact h value

theorem Expandable.behind {c : Char} {front text : List Char} (hc : isBlank c = false)
    (hfront : '$' ∉ c :: front) (h : Expandable text) : Expandable (c :: front ++ text) := by
  intro value
  obtain ⟨expanded, hexpanded⟩ := h value
  -- the blanks at the start of the text stay now
  have hplain : '$' ∉ c :: front ++ text.takeWhile isBlank := by
    intro hmem
    rcases List.mem_append.1 hmem with hmem | hmem
    · exact hfront hmem
    · exact absurd (List.mem_takeWhile_imp hmem) (by decide)
  have htext : (c :: front ++ text).dropWhile isBlank =
      (c :: front ++ text.takeWhile isBlank) ++ text.dropWhile isBlank := by
    rw [List.cons_append, List.dropWhile_cons_of_neg (by simp [hc]), List.cons_append,
      List.cons_append, List.append_assoc, List.takeWhile_append_dropWhile]
  rw [expand] at hexpanded
  rw [htext, expand, Expands.plain hplain, hexpanded]
  exact ⟨_, rfl⟩

/-- Every reference in the values of the settings has an end. -/
structure SettingsExpand (s : Settings) : Prop where
  texts : ∀ text ∈ [s.toolchain.cc, s.toolchain.cxx, s.toolchain.installRoot, s.dirs.objectDir,
    s.dirs.genfileDir, s.dirs.pkgfileDir, Shell.commandLine s.toolchain.cflags,
    Shell.commandLine s.toolchain.cxxflags, Shell.commandLine s.toolchain.ldflags],
    Expandable (uncommented 0 text.toList)

theorem Stacked.expandable (h : Stacked s m.heads) (hs : s.Unbroken) (hexpands : SettingsExpand s) :
    ∀ d ∈ m.definitions, Expandable d.text := by
  have htexts := hexpands.texts
  simp only [List.forall_mem_cons] at htexts
  obtain ⟨hcc, hcxx, hroot, hobjects, hgenerated, hpackages, hcflags, hcxxflags, hldflags, -⟩ :=
    htexts
  have hflags : ∀ flags, Expandable (uncommented 0 (Shell.commandLine flags).toList) →
      Expandable (flagsText flags) := by
    intro flags hline
    unfold flagsText
    split
    · exact .plain List.not_mem_nil
    · exact hline.blank
  have hinclude : Expandable (uncommented 0 ("-I. -I" ++ s.dirs.genfileDir).toList) := by
    rw [String.toList_append, uncommented_append (by decide)]
    exact hgenerated.behind (by decide) (by decide)
  -- the places to install to are the only texts with a reference that is not a setting
  have hplace : ∀ place : List Char, '$' ∉ place → Expandable ("$(PREFIX)".toList ++ place) := by
    intro place hplace value
    have hname : ')' ∉ "PREFIX".toList := by decide
    exact ⟨_, ((Expands.reference value hname).append (.plain hplace)).expand_eq⟩
  have hblocks : ∀ head ∈ m.heads, ∀ d ∈ definitionsIn head.2, Expandable d.text := by
    intro head hhead
    rcases h.known head hhead with rfl | rfl | rfl | rfl
    · rw [definitionsIn_workspace hs]
      simp only [workspaceDefinitions, List.forall_mem_cons]
      exact ⟨.plain (by decide), hroot.blank, .plain (by decide), hobjects.blank,
        hgenerated.blank, hpackages.blank, by simp⟩
    · rw [definitionsIn_compile hs]
      simp only [compileDefinitions, List.forall_mem_cons]
      exact ⟨hcc.blank, hcxx.blank, hflags _ hcflags, hflags _ hcxxflags, hinclude.blank,
        hflags _ hldflags, by simp⟩
    · rw [definitionsIn_binary]
      simp only [binaryDefinitions, List.forall_mem_cons]
      exact ⟨(hplace "/bin".toList (by decide)).blank, by simp⟩
    · rw [definitionsIn_shared]
      simp only [sharedAdditions, sharedDefinitions, List.cons_append, List.nil_append,
        List.forall_mem_cons]
      exact ⟨.plain (by decide), .plain (by decide), .plain (by decide),
        (hplace "/lib".toList (by decide)).blank, by simp⟩
  rw [definitions_eq]
  intro d hd
  obtain ⟨head, hhead, hd⟩ := List.mem_flatMap.1 hd
  exact hblocks head hhead d hd

/-- The head lines are read, whatever values make starts with. -/
theorem Stacked.exists_foldlM_heads (h : Stacked s m.heads) (hs : s.Unbroken)
    (hexpands : SettingsExpand s) (given : Values) : ∃ values,
      ((m.heads.flatMap Prod.snd).map String.toList).foldlM Reading.line ⟨given, []⟩ =
        some ⟨values, []⟩ := by
  obtain ⟨values, hvalues⟩ := Values.exists_defineAll (h.expandable hs hexpands) given
  refine ⟨values, ?_⟩
  rw [foldlM_heads fun head hhead line hline => (h.isFront hs head hhead line hline).2, hvalues]
  rfl

end Makefile

end Makewright
