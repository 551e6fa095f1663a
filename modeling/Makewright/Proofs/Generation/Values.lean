import Makewright.Proofs.Generation.Heads
import Makewright.Proofs.Node.Naming
import Makewright.Proofs.Makefile.Definitions

/-!
# What the head blocks define

Whatever the order of the head blocks is, the variables of the toolchain hold what the settings say:
the commands as they are and the flags as texts that a shell reads as these flags, with one more
flag for the compilers if there are shared libraries. The places to install to lie below the root
that the settings name (`exists_valued`).
-/

set_option autoImplicit false

namespace Makewright

open Make

/-- The settings can be written into a Makefile without a change of meaning, and these are the words
of the two compilers. -/
structure Settings.Plain (s : Settings) (cc cxx : List String) : Prop where
  cc : IsCommand s.toolchain.cc cc
  cxx : IsCommand s.toolchain.cxx cxx
  flags : ∀ flag ∈ s.toolchain.cflags ++ s.toolchain.cxxflags ++ s.toolchain.ldflags,
    IsLiteral flag ∧ '#' ∉ flag.toList
  installRoot : IsValue s.toolchain.installRoot.toList
  objectDir : IsFileName s.dirs.objectDir
  genfileDir : IsFileName s.dirs.genfileDir
  pkgfileDir : IsFileName s.dirs.pkgfileDir

theorem Settings.Plain.dirs {s : Settings} {cc cxx : List String} (h : s.Plain cc cxx) :
    s.dirs.Named isPlain :=
  ⟨h.objectDir, h.genfileDir, h.pkgfileDir⟩

namespace Makefile

variable {s : Settings} {given values : Values} {heads : List (String × List String)}
  {cc cxx : List String}

/-- The flag that the compilers get if there are shared libraries. -/
def sharedFlags (heads : List (String × List String)) : List String :=
  if sharedBlock ∈ heads then ["-fPIC"] else []

/-- The values of the variables of the toolchain. -/
structure Equipped (s : Settings) (extra : List String) (values : Values) : Prop where
  cc : values.get "CC" = s.toolchain.cc.toList
  cxx : values.get "CXX" = s.toolchain.cxx.toList
  cppflags : values.get "CPPFLAGS" = ("-I. -I" ++ s.dirs.genfileDir).toList
  cflags : Shell.Reads (values.get "CFLAGS") ((s.toolchain.cflags ++ extra).map .word)
  cxxflags : Shell.Reads (values.get "CXXFLAGS") ((s.toolchain.cxxflags ++ extra).map .word)
  ldflags : Shell.Reads (values.get "LDFLAGS") (s.toolchain.ldflags.map .word)

/-- The values of variables behind some head blocks. -/
structure Valued (s : Settings) (given : Values) (heads : List (String × List String))
    (values : Values) : Prop where
  kept : ∀ name ∈ ["MAKE", "CURDIR", "DESTDIR"], values.get name = given.get name
  installRoot : values.get "PREFIX" = s.toolchain.installRoot.toList.dropWhile isBlank
  equipped : compileBlock s ∈ heads → Equipped s (sharedFlags heads) values
  binary : binaryBlock ∈ heads → values.get "BINDIR" = values.get "PREFIX" ++ "/bin".toList
  shared : sharedBlock ∈ heads → values.get "SHARED_LDFLAGS" = "-shared".toList ∧
    values.get "LIBDIR" = values.get "PREFIX" ++ "/lib".toList

/-! ## The blocks one by one -/

/-- The values behind the settings of the workspace. -/
def workspaceChanges (s : Settings) : List (Values → Values) :=
  [fun values => (".DEFAULT_GOAL", "all".toList) :: values,
   fun values => ("PREFIX", s.toolchain.installRoot.toList.dropWhile isBlank) :: values,
   fun values =>
    if (values.lookup "DESTDIR").isSome then values else ("DESTDIR", []) :: values,
   fun values => ("OBJ_DIR", s.dirs.objectDir.toList.dropWhile isBlank) :: values,
   fun values => ("GEN_DIR", s.dirs.genfileDir.toList.dropWhile isBlank) :: values,
   fun values => ("PKG_DIR", s.dirs.pkgfileDir.toList.dropWhile isBlank) :: values]

/-- What the block about the toolchain changes. -/
def compileChanges (s : Settings) : List (Values → Values) :=
  [id,
   fun values => ("CC", s.toolchain.cc.toList.dropWhile isBlank) :: values,
   fun values => ("CXX", s.toolchain.cxx.toList.dropWhile isBlank) :: values,
   fun values => ("CFLAGS", (Shell.commandLine s.toolchain.cflags).toList) :: values,
   fun values => ("CXXFLAGS", (Shell.commandLine s.toolchain.cxxflags).toList) :: values,
   fun values => ("CPPFLAGS", ("-I. -I" ++ s.dirs.genfileDir).toList.dropWhile isBlank) :: values,
   fun values => ("LDFLAGS", (Shell.commandLine s.toolchain.ldflags).toList) :: values]

/-- What the block about executables changes. -/
def binaryChanges : List (Values → Values) :=
  [id, fun values => ("BINDIR", values.get "PREFIX" ++ "/bin".toList) :: values]

/-- What the block about shared libraries changes. -/
def sharedChanges : List (Values → Values) :=
  [id,
   fun values => values.behind "CFLAGS" "-fPIC",
   fun values => values.behind "CXXFLAGS" "-fPIC",
   fun values => ("SHARED_LDFLAGS", "-shared".toList.dropWhile isBlank) :: values,
   fun values => ("LIBDIR", values.get "PREFIX" ++ "/lib".toList) :: values]

theorem defines_workspace (h : s.Plain cc cxx) :
    List.Forall₂ Defines ((workspaceHead s).map String.toList) (workspaceChanges s) := by
  have hgoal : IsValue "all".toList := ⟨by decide, by decide, .of_forall (by decide)⟩
  refine .cons ?_ (.cons ?_ (.cons ?_ (.cons ?_ (.cons ?_ (.cons ?_ .nil)))))
  · exact Defines.outright ".DEFAULT_GOAL" (by decide) hgoal
  · simpa using Defines.outright "PREFIX" (by decide) h.installRoot
  · exact Defines.fallback "DESTDIR" (by decide)
  · simpa using Defines.outright "OBJ_DIR" (by decide) h.objectDir.isValue
  · simpa using Defines.outright "GEN_DIR" (by decide) h.genfileDir.isValue
  · simpa using Defines.outright "PKG_DIR" (by decide) h.pkgfileDir.isValue

theorem defines_compile (h : s.Plain cc cxx) :
    List.Forall₂ Defines ((NodeClass.compileHead s).map String.toList) (compileChanges s) := by
  have hinclude : IsValue ("-I. -I" ++ s.dirs.genfileDir).toList := by
    have hfront : IsValue "-I. -I".toList := ⟨by decide, by decide, .of_forall (by decide)⟩
    simpa using hfront.append h.genfileDir.isValue
  refine .cons ?_ (.cons ?_ (.cons ?_ (.cons ?_ (.cons ?_ (.cons ?_ (.cons ?_ .nil))))))
  · exact Defines.comment (.of_forall (by decide))
  · simpa using Defines.outright "CC" (by decide) h.cc.isValue
  · simpa using Defines.outright "CXX" (by decide) h.cxx.isValue
  · exact Defines.flags "CFLAGS" (by decide) fun flag hflag => h.flags flag (by simp [hflag])
  · exact Defines.flags "CXXFLAGS" (by decide) fun flag hflag => h.flags flag (by simp [hflag])
  · simpa using Defines.outright "CPPFLAGS" (by decide) hinclude
  · exact Defines.flags "LDFLAGS" (by decide) fun flag hflag => h.flags flag (by simp [hflag])

/-- A place to install to. -/
theorem defines_place (name : String) (hname : ∀ c ∈ name.toList, isVerbatim c = true)
    {place : List Char} (h : IsValue place) :
    Defines (name.toList ++ ' ' :: ':' :: '=' :: ' ' :: ("$(PREFIX)".toList ++ place))
      fun values => (name, values.get "PREFIX" ++ place) :: values := by
  apply Defines.computed name hname
  · simpa using h.comment
  · exact IsLine.append (.of_forall (by decide)) h.isLine
  · intro values
    have hroot : ')' ∉ "PREFIX".toList := by decide
    exact ((Expands.reference values.get hroot).append (.plain h.reference)).expand_eq

theorem defines_binary :
    List.Forall₂ Defines (NodeClass.binaryHead.map String.toList) binaryChanges := by
  refine .cons ?_ (.cons ?_ .nil)
  · exact Defines.comment (.of_forall (by decide))
  · exact defines_place "BINDIR" (by decide) ⟨by decide, by decide, .of_forall (by decide)⟩

theorem defines_shared :
    List.Forall₂ Defines (NodeClass.sharedHead.map String.toList) sharedChanges := by
  have hflag : IsValue "-fPIC".toList := ⟨by decide, by decide, .of_forall (by decide)⟩
  refine .cons ?_ (.cons ?_ (.cons ?_ (.cons ?_ (.cons ?_ .nil))))
  · exact Defines.comment (.of_forall (by decide))
  · exact Defines.behind "CFLAGS" (by decide) hflag (by decide)
  · exact Defines.behind "CXXFLAGS" (by decide) hflag (by decide)
  · exact Defines.outright "SHARED_LDFLAGS" (by decide)
      ⟨by decide, by decide, .of_forall (by decide)⟩
  · exact defines_place "LIBDIR" (by decide) ⟨by decide, by decide, .of_forall (by decide)⟩

/-! ## All blocks -/

/-- The values behind some changes. -/
def after (changes : List (Values → Values)) (values : Values) : Values :=
  changes.foldl (fun values change => change values) values

theorem valued_workspace (s : Settings) (given : Values) :
    Valued s given [workspaceBlock s] (after (workspaceChanges s) given) := by
  have hblocks : ∀ block, block = compileBlock s ∨ block = binaryBlock ∨ block = sharedBlock →
      block ∉ [workspaceBlock s] := by
    rintro block (rfl | rfl | rfl) <;>
      simp [compileBlock, binaryBlock, sharedBlock, workspaceBlock]
  -- the definition of `DESTDIR` changes no value, since a missing one is empty
  have hdestination : ∀ values : Values,
      (if (values.lookup "DESTDIR").isSome then values else ("DESTDIR", []) :: values).get
        "DESTDIR" = values.get "DESTDIR" := by
    intro values
    cases hlookup : values.lookup "DESTDIR" with
    | none => simp [Values.get, hlookup]
    | some value => simp
  have hother : ∀ (values : Values) name, name ≠ "DESTDIR" →
      (if (values.lookup "DESTDIR").isSome then values else ("DESTDIR", []) :: values).get name =
        values.get name := by
    intro values name hname
    split
    · rfl
    · rw [Values.get_cons, if_neg hname]
  refine ⟨?_, ?_, ?_, ?_, ?_⟩
  · simp [after, workspaceChanges, hdestination, hother]
  · simp [after, workspaceChanges, hother]
  · exact fun h => absurd h (hblocks _ (.inl rfl))
  · exact fun h => absurd h (hblocks _ (.inr (.inl rfl)))
  · exact fun h => absurd h (hblocks _ (.inr (.inr rfl)))

theorem valued_compile (h : s.Plain cc cxx) (hvalued : Valued s given [workspaceBlock s] values) :
    Valued s given [workspaceBlock s, compileBlock s] (after (compileChanges s) values) := by
  -- a command starts with no blank, so it is kept as it is written
  have hstart : ∀ {text words}, IsCommand text words →
      text.toList.dropWhile isBlank = text.toList := by
    intro text words hcommand
    obtain ⟨c, rest, htext, hc, -⟩ := hcommand.exists_cons
    rw [htext, List.dropWhile_cons_of_neg (by simp [not_isBlank_of_isInert hc])]
  have hinclude : ("-I. -I" ++ s.dirs.genfileDir).toList.dropWhile isBlank =
      ("-I. -I" ++ s.dirs.genfileDir).toList := by
    simp [isBlank, blanks]
  have hbinary : binaryBlock ∉ [workspaceBlock s, compileBlock s] := by
    simp [compileBlock, binaryBlock, workspaceBlock]
  have hshared : sharedBlock ∉ [workspaceBlock s, compileBlock s] := by
    simp [compileBlock, sharedBlock, workspaceBlock]
  refine ⟨?_, ?_, ?_, ?_, ?_⟩
  · simpa [after, compileChanges] using hvalued.kept
  · simpa [after, compileChanges] using hvalued.installRoot
  · intro _
    rw [sharedFlags, if_neg hshared]
    refine ⟨?_, ?_, ?_, ?_, ?_, ?_⟩
    · simp [after, compileChanges, hstart h.cc]
    · simp [after, compileChanges, hstart h.cxx]
    · simpa [after, compileChanges] using hinclude
    · simpa [after, compileChanges] using Shell.Reads.commandLine s.toolchain.cflags
    · simpa [after, compileChanges] using Shell.Reads.commandLine s.toolchain.cxxflags
    · simpa [after, compileChanges] using Shell.Reads.commandLine s.toolchain.ldflags
  · exact fun h => absurd h hbinary
  · exact fun h => absurd h hshared

theorem valued_binary (h : Valued s given heads values) :
    Valued s given (heads ++ [binaryBlock]) (after binaryChanges values) := by
  have hshared : sharedBlock ∈ heads ++ [binaryBlock] ↔ sharedBlock ∈ heads := by
    simp [sharedBlock, binaryBlock]
  have hcompile : compileBlock s ∈ heads ++ [binaryBlock] → compileBlock s ∈ heads := by
    simp [compileBlock, binaryBlock]
  refine ⟨?_, ?_, ?_, ?_, ?_⟩
  · simpa [after, binaryChanges] using h.kept
  · simpa [after, binaryChanges] using h.installRoot
  · intro hmem
    obtain ⟨hcc, hcxx, hcpp, hc, hcxxflags, hld⟩ := h.equipped (hcompile hmem)
    have hflags : sharedFlags (heads ++ [binaryBlock]) = sharedFlags heads := by
      simp only [sharedFlags, hshared]
    -- the block defines one variable only, which no tool is read from
    have hkept : ∀ name, name ≠ "BINDIR" → (after binaryChanges values).get name =
        values.get name := by
      intro name hname
      simp [after, binaryChanges, hname]
    rw [hflags]
    refine ⟨?_, ?_, ?_, ?_, ?_, ?_⟩ <;> rw [hkept _ (by decide)] <;> assumption
  · intro _
    simp [after, binaryChanges]
  · intro hmem
    simpa [after, binaryChanges] using h.shared (hshared.1 hmem)

theorem valued_shared (h : Valued s given heads values) (hnew : sharedBlock ∉ heads) :
    Valued s given (heads ++ [sharedBlock]) (after sharedChanges values) := by
  have hbinary : binaryBlock ∈ heads ++ [sharedBlock] → binaryBlock ∈ heads := by
    simp [sharedBlock, binaryBlock]
  have hcompile : compileBlock s ∈ heads ++ [sharedBlock] → compileBlock s ∈ heads := by
    simp [compileBlock, sharedBlock]
  -- only the flags of the two compilers change
  have hother : ∀ name ∉ ["CFLAGS", "CXXFLAGS"], ((values.behind "CFLAGS" "-fPIC").behind
      "CXXFLAGS" "-fPIC").get name = values.get name := by
    intro name hname
    simp only [List.mem_cons, List.not_mem_nil, or_false, not_or] at hname
    rw [Values.get_behind_of_ne hname.2, Values.get_behind_of_ne hname.1]
  refine ⟨?_, ?_, ?_, ?_, ?_⟩
  · simpa [after, sharedChanges, hother] using h.kept
  · simpa [after, sharedChanges, hother] using h.installRoot
  · intro hmem
    obtain ⟨hcc, hcxx, hcpp, hc, hcxxflags, hld⟩ := h.equipped (hcompile hmem)
    have hbefore : sharedFlags heads = [] := if_neg hnew
    have hafter : sharedFlags (heads ++ [sharedBlock]) = ["-fPIC"] := if_pos (by simp)
    have hkept : ∀ name ∈ ["CC", "CXX", "CPPFLAGS", "LDFLAGS"],
        (after sharedChanges values).get name = values.get name := by
      simp [after, sharedChanges, hother]
    rw [hbefore, List.append_nil] at hc hcxxflags
    rw [hafter]
    refine ⟨?_, ?_, ?_, ?_, ?_, ?_⟩
    · rw [hkept "CC" (by decide), hcc]
    · rw [hkept "CXX" (by decide), hcxx]
    · rw [hkept "CPPFLAGS" (by decide), hcpp]
    · have hne : "CFLAGS" ≠ "CXXFLAGS" := by decide
      have hread := Values.reads_behind (w := "-fPIC") hc (by decide) (by decide)
      rw [List.map_append]
      simpa [after, sharedChanges, Values.get_behind_of_ne hne] using hread
    · have hne : "CXXFLAGS" ≠ "CFLAGS" := by decide
      rw [← Values.get_behind_of_ne hne "-fPIC"] at hcxxflags
      have hread := Values.reads_behind (w := "-fPIC") hcxxflags (by decide) (by decide)
      rw [List.map_append]
      simpa [after, sharedChanges] using hread
    · rw [hkept "LDFLAGS" (by decide)]
      exact hld
  · intro hmem
    simpa [after, sharedChanges, hother] using h.binary (hbinary hmem)
  · intro _
    simp [after, sharedChanges, hother, isBlank, blanks]

/-- Every one of the lines defines something. -/
theorem exists_defines {lines : List String} {changes : List (Values → Values)}
    (h : List.Forall₂ Defines (lines.map String.toList) changes) :
    ∀ line ∈ lines, ∃ change, Defines line.toList change := by
  induction lines generalizing changes with
  | nil => simp
  | cons first rest ih =>
    cases h with
    | cons hfirst hrest =>
      rw [List.forall_mem_cons]
      exact ⟨⟨_, hfirst⟩, ih hrest⟩

/-- The lines of some head blocks can be read and lead from one set of values to another. -/
structure Settles (given : Values) (heads : List (String × List String)) (values : Values) :
    Prop where
  read : ((heads.flatMap Prod.snd).map String.toList).foldlM Reading.line ⟨given, []⟩ =
    some ⟨values, []⟩
  isLine : ∀ head ∈ heads, ∀ line ∈ head.2, IsLine line.toList

theorem Settles.append (h : Settles given heads values) {block : String × List String}
    {changes : List (Values → Values)}
    (hblock : List.Forall₂ Defines (block.2.map String.toList) changes) :
    Settles given (heads ++ [block]) (after changes values) := by
  refine ⟨?_, ?_⟩
  · rw [List.flatMap_append, List.flatMap_singleton, List.map_append, List.foldlM_append, h.read]
    exact foldlM_defines hblock values
  · intro head hhead
    rcases List.mem_append.1 hhead with hhead | hhead
    · exact h.isLine head hhead
    · intro line hline
      rw [List.mem_singleton.1 hhead] at hline
      obtain ⟨change, hdefines⟩ := exists_defines hblock line hline
      exact hdefines.isLine

/-- The head lines can be read, and the values behind them are those that the blocks stand for. -/
theorem exists_valued (h : s.Plain cc cxx) (hheads : Stacked s heads) (given : Values) :
    ∃ values, Settles given heads values ∧ Valued s given heads values := by
  have hnone : Settles given [] given := ⟨rfl, by simp⟩
  have hworkspace : Settles given [workspaceBlock s] (after (workspaceChanges s) given) :=
    hnone.append (defines_workspace h)
  cases hheads with
  | bare => exact ⟨_, hworkspace, valued_workspace s given⟩
  | @compiling rest hnodup hrest =>
    -- block by block, each on the values that the blocks in front of it leave
    induction rest using List.reverseRecOn with
    | nil =>
      refine ⟨_, ?_, valued_compile h (valued_workspace s given)⟩
      exact hworkspace.append (defines_compile h)
    | append_singleton rest block ih =>
      obtain ⟨hnodup, -, hdisjoint⟩ := List.nodup_append.1 hnodup
      obtain ⟨values, hleads, hvalued⟩ := ih hnodup fun head hhead => hrest head (by simp [hhead])
      rw [← List.cons_append, ← List.cons_append]
      rcases hrest block (by simp) with rfl | rfl
      · exact ⟨_, hleads.append defines_binary, valued_binary hvalued⟩
      · have hnew : sharedBlock ∉ workspaceBlock s :: compileBlock s :: rest := by
          have hother : sharedBlock ∉ rest := fun hmem => hdisjoint _ hmem _ (by simp) rfl
          simpa [sharedBlock, workspaceBlock, compileBlock] using hother
        exact ⟨_, hleads.append defines_shared, valued_shared hvalued hnew⟩

end Makefile

end Makewright
