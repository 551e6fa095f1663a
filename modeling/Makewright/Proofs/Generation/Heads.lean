import Makewright.Proofs.Generation.Rendering

/-!
# What stands in front of the rules

A Makefile that is assembled from nodes of the standard kinds starts with the settings of the
workspace. The block about the toolchain comes next if anything is compiled, and behind it, in any
order, the blocks of executables and of shared libraries, each exactly if there is one among the
nodes (`fronted_of_assemble`).
-/

set_option autoImplicit false

namespace Makewright

/-- The head blocks of the class that the standard kinds name for a node. -/
def Node.heads (s : Settings) (node : Node) : List (String × List String) :=
  match Registry.standard.classes.lookup node.kind with
  | some nodeClass => nodeClass.heads s
  | none => []

namespace Makefile

variable {ctx : Context} {s : Settings} {nodes : List Node} {m m' : Makefile}
  {closureOf : Target → Except BuildError (List Node)}

/-- The block about the workspace. -/
def workspaceBlock (s : Settings) : String × List String :=
  ("workspace", workspaceHead s)

/-- The block about the toolchain. -/
def compileBlock (s : Settings) : String × List String :=
  ("cc", NodeClass.compileHead s)

/-- The block about executables. -/
def binaryBlock : String × List String :=
  ("cc_binary", NodeClass.binaryHead)

/-- The block about shared libraries. -/
def sharedBlock : String × List String :=
  ("cc_shared_library", NodeClass.sharedHead)

/-- The head blocks that standard kinds can lead to, in an order in which they can stand. -/
inductive Stacked (s : Settings) : List (String × List String) → Prop
  | bare : Stacked s [workspaceBlock s]
  | compiling {rest : List (String × List String)} (hnodup : rest.Nodup)
      (hrest : ∀ head ∈ rest, head = binaryBlock ∨ head = sharedBlock) :
    Stacked s (workspaceBlock s :: compileBlock s :: rest)

/-- What stands in front of the rules, and the names that are declared phony. -/
structure Fronted (s : Settings) (nodes : List Node) (m : Makefile) : Prop where
  header : m.header = some standardHeader
  stacked : Stacked s m.heads
  mem_heads : ∀ head, head ∈ m.heads ↔
    head = workspaceBlock s ∨ ∃ node ∈ nodes, head ∈ node.heads s
  phony : ∀ name ∈ m.phony,
    name ∈ [installTarget, allTarget, "clean"] ∨ ∃ node ∈ nodes, name = node.userTarget

/-! ## Adding head blocks -/

namespace Stacked

variable {heads : List (String × List String)}

/-- The toolchain comes behind the workspace. -/
theorem addOnce_compileBlock (h : Stacked s heads) : ∃ rest,
    addOnce heads (compileBlock s) = workspaceBlock s :: compileBlock s :: rest ∧ rest.Nodup ∧
      ∀ head ∈ rest, head = binaryBlock ∨ head = sharedBlock := by
  have hne : compileBlock s ≠ workspaceBlock s := by simp [compileBlock, workspaceBlock]
  cases h with
  | bare => exact ⟨[], by simp [addOnce, hne], .nil, by simp⟩
  | compiling hnodup hrest => exact ⟨_, by simp [addOnce], hnodup, hrest⟩

/-- The other blocks come behind the toolchain. -/
theorem addOnce_block {rest : List (String × List String)} (hnodup : rest.Nodup)
    (hrest : ∀ head ∈ rest, head = binaryBlock ∨ head = sharedBlock)
    {block : String × List String} (hblock : block = binaryBlock ∨ block = sharedBlock) :
    Stacked s (addOnce (workspaceBlock s :: compileBlock s :: rest) block) := by
  unfold addOnce
  split
  · exact .compiling hnodup hrest
  · next hmem =>
    simp only [List.mem_cons, not_or] at hmem
    refine .compiling (nodup_append_singleton hnodup hmem.2.2) ?_
    intro head hhead
    rcases List.mem_append.1 hhead with hhead | hhead
    · exact hrest head hhead
    · exact List.mem_singleton.1 hhead ▸ hblock

theorem addOnce (h : Stacked s heads) : Stacked s (addOnce heads (compileBlock s)) := by
  obtain ⟨rest, hcompile, hnodup, hrest⟩ := h.addOnce_compileBlock
  exact hcompile ▸ .compiling hnodup hrest

/-- The toolchain and another block behind it. -/
theorem addOnce_addOnce (h : Stacked s heads) {block : String × List String}
    (hblock : block = binaryBlock ∨ block = sharedBlock) :
    Stacked s (Makewright.addOnce (Makewright.addOnce heads (compileBlock s)) block) := by
  obtain ⟨rest, hcompile, hnodup, hrest⟩ := h.addOnce_compileBlock
  exact hcompile ▸ addOnce_block hnodup hrest hblock

/-- There are no other blocks. -/
theorem known (h : Stacked s heads) : ∀ head ∈ heads, head = workspaceBlock s ∨
    head = compileBlock s ∨ head = binaryBlock ∨ head = sharedBlock := by
  intro head hhead
  cases h with
  | bare => exact .inl (List.mem_singleton.1 hhead)
  | compiling hnodup hrest =>
    rcases List.mem_cons.1 hhead with rfl | hhead
    · exact .inl rfl
    · rcases List.mem_cons.1 hhead with rfl | hhead
      · exact .inr (.inl rfl)
      · exact .inr (.inr (hrest head hhead))

/-- The keys tell the blocks apart. -/
theorem mem_of_key (h : Stacked s heads) {block : String × List String}
    (hblock : block = compileBlock s ∨ block = binaryBlock ∨ block = sharedBlock) :
    block.1 ∈ heads.map Prod.fst ↔ block ∈ heads := by
  refine ⟨?_, List.mem_map_of_mem⟩
  intro hkey
  obtain ⟨head, hhead, hkey⟩ := List.mem_map.1 hkey
  have heq : head = block := by
    rcases h.known head hhead with rfl | rfl | rfl | rfl <;> rcases hblock with rfl | rfl | rfl <;>
      simp_all [workspaceBlock, compileBlock, binaryBlock, sharedBlock]
  exact heq ▸ hhead

end Stacked

/-- A head block is written unless it is there. -/
theorem addHead_eq (h : Stacked s m.heads) {block : String × List String}
    (hblock : block = compileBlock s ∨ block = binaryBlock ∨ block = sharedBlock) :
    m.addHead block.1 block.2 = { m with heads := addOnce m.heads block } := by
  have hkey : m.hasHead block.1 = true ↔ block ∈ m.heads := by
    rw [← h.mem_of_key hblock]
    simp [hasHead]
  unfold addHead writeHead addOnce
  by_cases hmem : block ∈ m.heads
  · simp [hkey.2 hmem, hmem]
  · simp [Bool.eq_false_iff.2 fun h => hmem (hkey.1 h), hmem]

/-- The head blocks of a class are written unless they are there. -/
theorem writeHeads_eq (h : Stacked s m.heads) (nodeClass : NodeClass) :
    nodeClass.writeHeads s m = { m with heads := addAllOnce m.heads (nodeClass.heads s) } ∧
      Stacked s (addAllOnce m.heads (nodeClass.heads s)) := by
  have hcompile : m.addHead "cc" (NodeClass.compileHead s) =
      { m with heads := addOnce m.heads (compileBlock s) } := addHead_eq h (.inl rfl)
  have hblock : ∀ block, block = binaryBlock ∨ block = sharedBlock →
      (m.addHead "cc" (NodeClass.compileHead s)).addHead block.1 block.2 =
        { m with heads := addOnce (addOnce m.heads (compileBlock s)) block } := by
    intro block hblock
    rw [hcompile]
    exact addHead_eq (m := { m with heads := addOnce m.heads (compileBlock s) }) h.addOnce
      (.inr hblock)
  cases nodeClass with
  | library => exact ⟨hcompile, h.addOnce⟩
  | binary => exact ⟨hblock binaryBlock (.inl rfl), h.addOnce_addOnce (.inl rfl)⟩
  | sharedLibrary => exact ⟨hblock sharedBlock (.inr rfl), h.addOnce_addOnce (.inr rfl)⟩
  | autoconf | abstract | listing | listingFactory => exact ⟨rfl, h⟩

/-- The head blocks of the kinds of some nodes are written unless they are there. -/
theorem addKindHeads_eq (hregistry : ctx.registry = .standard) (nodes : List Node)
    {seen : List String} (h : Stacked ctx.workspace.settings m.heads)
    (hseen : ∀ node : Node, node.kind ∈ seen → node.heads ctx.workspace.settings ⊆ m.heads)
    (hmade : addKindHeads ctx seen nodes m = .ok m') :
    m' = { m with heads :=
        addAllOnce m.heads (nodes.flatMap (Node.heads ctx.workspace.settings)) } ∧
      Stacked ctx.workspace.settings m'.heads := by
  induction nodes generalizing seen m with
  | nil =>
    cases hmade
    exact ⟨rfl, h⟩
  | cons node rest ih =>
    rw [List.flatMap_cons, addAllOnce_append]
    rw [addKindHeads] at hmade
    by_cases hkind : node.kind ∈ seen
    · -- the blocks of a kind that was seen are there
      rw [if_pos hkind] at hmade
      rw [addAllOnce_of_subset (hseen node hkind)]
      exact ih h hseen hmade
    · rw [if_neg hkind] at hmade
      obtain ⟨nodeClass, hfound, hmade⟩ := exists_of_bind_eq_ok hmade
      have hheads : node.heads ctx.workspace.settings =
          nodeClass.heads ctx.workspace.settings := by
        rw [hregistry, Registry.find] at hfound
        unfold Node.heads
        cases hlookup : Registry.standard.classes.lookup node.kind with
        | none => simp [hlookup] at hfound
        | some found =>
          simp only [hlookup, Except.ok.injEq] at hfound
          rw [hfound]
      obtain ⟨hwritten, hstacked⟩ := writeHeads_eq h nodeClass
      rw [hwritten] at hmade
      rw [hheads]
      refine ih hstacked ?_ hmade
      intro other hother head hhead
      rw [mem_addAllOnce]
      rcases List.mem_append.1 hother with hother | hother
      · exact .inl (hseen other hother hhead)
      · -- another node of the kind has the same head blocks
        have hsame : other.heads ctx.workspace.settings = node.heads ctx.workspace.settings := by
          rw [Node.heads, Node.heads, List.mem_singleton.1 hother]
        rw [hsame, hheads] at hhead
        exact .inr hhead

/-! ## Assembling -/

/-- The second Makefile starts as the first one does. It has the same phony names, and only some
names are new among them. -/
structure Continues (names : List String) (m m' : Makefile) : Prop where
  header : m'.header = m.header
  heads : m'.heads = m.heads
  phony : ∀ name ∈ m'.phony, name ∈ m.phony ∨ name ∈ names
  grows : m.phony ⊆ m'.phony

namespace Continues

variable {names : List String} {m'' : Makefile}

/-- Only the rules change. -/
theorem of_eq (hheader : m'.header = m.header) (hheads : m'.heads = m.heads)
    (hphony : m'.phony = m.phony) : Continues names m m' :=
  ⟨hheader, hheads, fun _ hname => .inl (hphony ▸ hname), fun _ hname => hphony ▸ hname⟩

theorem refl (names : List String) (m : Makefile) : Continues names m m :=
  .of_eq rfl rfl rfl

theorem trans (h : Continues names m m') (h' : Continues names m' m'') : Continues names m m'' :=
  ⟨h'.header.trans h.header, h'.heads.trans h.heads,
    fun name hname => (h'.phony name hname).elim (h.phony name) .inr,
    List.Subset.trans h.grows h'.grows⟩

theorem addRule {rule : Rule} (h : m.addRule rule = .ok m') : Continues names m m' := by
  unfold Makefile.addRule at h
  split at h
  · cases h
  · cases h
    exact .of_eq rfl rfl rfl

theorem addRules {rules : List Rule} (h : m.addRules rules = .ok m') : Continues names m m' :=
  invariant_of_foldlM (fun _ _ _ hs hstep => hs.trans (addRule hstep)) h (refl names m)

theorem addPhony {name : String} (h : name ∈ names) (m : Makefile) :
    Continues names m (m.addPhony name) := by
  refine ⟨rfl, rfl, fun other hother => ?_, fun other hother => mem_addOnce.2 (.inl hother)⟩
  rcases mem_addOnce.1 hother with hother | rfl
  · exact .inl hother
  · exact .inr h

theorem foldl_addPhony {more : List String} (h : more ⊆ names) (m : Makefile) :
    Continues names m (more.foldl Makefile.addPhony m) := by
  induction more generalizing m with
  | nil => exact refl names m
  | cons name rest ih =>
    exact (addPhony (h List.mem_cons_self) m).trans
      (ih (fun other hother => h (List.mem_cons_of_mem name hother)) (m.addPhony name))

theorem modifyRule (m : Makefile) (target : String) (change : Rule → Rule) :
    Continues names m (m.modifyRule target change) := by
  unfold Makefile.modifyRule
  split <;> exact .of_eq rfl rfl rfl

/-- More names may be new. -/
theorem mono {more : List String} (h : Continues names m m') (hmore : names ⊆ more) :
    Continues more m m' :=
  ⟨h.header, h.heads, fun name hname => (h.phony name hname).imp_right (hmore ·), h.grows⟩

theorem addNode {dirs : GeneratedDirs} {node : Node} {closure : List Node}
    (hnode : node.userTarget ∈ names) (h : m.addNode dirs node closure = .ok m') :
    Continues names m m' := by
  obtain ⟨rules, -, h⟩ := exists_of_bind_eq_ok h
  obtain ⟨added, hadded, h⟩ := exists_of_bind_eq_ok h
  cases h
  have hphony : node.phonyNames ⊆ names := by
    intro name hname
    unfold Node.phonyNames at hname
    split at hname
    · cases hname
    · exact List.mem_singleton.1 hname ▸ hnode
  exact (addRules hadded).trans (foldl_addPhony hphony added)

theorem addInstall (dirs : GeneratedDirs) (node : Node) (m : Makefile) :
    Continues names m (m.addInstall dirs node) :=
  .of_eq rfl rfl rfl

theorem addNodes {dirs : GeneratedDirs} (hnodes : nodes.map Node.userTarget ⊆ names)
    (h : Makefile.addNodes dirs closureOf nodes m = .ok m') : Continues names m m' := by
  induction nodes generalizing m with
  | nil =>
    cases h
    exact refl names _
  | cons node rest ih =>
    obtain ⟨closure, -, h⟩ := exists_of_bind_eq_ok h
    obtain ⟨next, hnext, h⟩ := exists_of_bind_eq_ok h
    obtain ⟨hnode, hrest⟩ := List.cons_subset.1 hnodes
    exact ((addNode hnode hnext).trans (addInstall dirs node next)).trans (ih hrest h)

end Continues

theorem phony_foldl_addPhony (names : List String) (m : Makefile) :
    (names.foldl addPhony m).phony = addAllOnce m.phony names := by
  induction names generalizing m with
  | nil => rfl
  | cons name rest ih => exact ih (m.addPhony name)

theorem phonyNames_of_addNode {dirs : GeneratedDirs} {node : Node} {closure : List Node}
    (h : m.addNode dirs node closure = .ok m') : node.phonyNames ⊆ m'.phony := by
  obtain ⟨rules, -, h⟩ := exists_of_bind_eq_ok h
  obtain ⟨added, -, h⟩ := exists_of_bind_eq_ok h
  cases h
  intro name hname
  rw [phony_foldl_addPhony, mem_addAllOnce]
  exact .inr hname

/-- Every node declares its phony names. -/
theorem phonyNames_of_addNodes {dirs : GeneratedDirs}
    (h : addNodes dirs closureOf nodes m = .ok m') :
    nodes.flatMap Node.phonyNames ⊆ m'.phony := by
  induction nodes generalizing m with
  | nil => exact List.nil_subset _
  | cons node rest ih =>
    obtain ⟨closure, -, h⟩ := exists_of_bind_eq_ok h
    obtain ⟨next, hnext, h⟩ := exists_of_bind_eq_ok h
    -- the nodes behind take no name away
    have hrest := Continues.addNodes (List.Subset.refl _) h
    rw [List.flatMap_cons]
    exact List.append_subset.2
      ⟨List.Subset.trans (phonyNames_of_addNode hnext) hrest.grows, ih h⟩

/-- The steps of assembling: the head blocks are written, then the rule `all`, the rules of the
nodes and the rule `clean` are added. -/
theorem exists_of_assemble (h : assemble ctx nodes closureOf = .ok m) :
    ∃ begun started filled,
      addKindHeads ctx [] nodes { new (some standardHeader) with
        heads := [workspaceBlock ctx.workspace.settings] } = .ok begun ∧
      Continues [allTarget] begun started ∧ allTarget ∈ started.phony ∧
      addNodes ctx.workspace.settings.dirs closureOf nodes started = .ok filled ∧
      Continues ["clean"] filled m ∧ "clean" ∈ m.phony := by
  have hworkspace : (new (some standardHeader)).addHead "workspace"
      (workspaceHead ctx.workspace.settings) =
        { new (some standardHeader) with heads := [workspaceBlock ctx.workspace.settings] } := rfl
  obtain ⟨begun, hbegun, h⟩ := exists_of_bind_eq_ok h
  obtain ⟨first, hfirst, h⟩ := exists_of_bind_eq_ok h
  obtain ⟨filled, hfilled, h⟩ := exists_of_bind_eq_ok h
  obtain ⟨last, hlast, h⟩ := exists_of_bind_eq_ok h
  cases h
  rw [hworkspace] at hbegun
  refine ⟨begun, first.addPhony allTarget, filled, hbegun, ?_, mem_addOnce.2 (.inr rfl), hfilled,
    ?_, mem_addOnce.2 (.inr rfl)⟩
  · exact (Continues.addRule hfirst).trans (.addPhony List.mem_cons_self first)
  · exact ((Continues.modifyRule filled allTarget _).trans (.addRule hlast)).trans
      (.addPhony List.mem_cons_self last)

/-- What stands in front of the rules of a Makefile that is assembled from nodes of the standard
kinds. -/
theorem fronted_of_assemble (hregistry : ctx.registry = .standard)
    (h : assemble ctx nodes closureOf = .ok m) : Fronted ctx.workspace.settings nodes m := by
  obtain ⟨begun, started, filled, hbegun, hstart, -, hfilled, hend, -⟩ := exists_of_assemble h
  obtain ⟨hheads, hstacked⟩ := addKindHeads_eq hregistry nodes .bare (by simp) hbegun
  -- the rules that follow change neither the header nor the head blocks
  have hkept : Continues ([allTarget, "clean"] ++ nodes.map Node.userTarget) begun m :=
    ((hstart.mono (by simp)).trans (.addNodes (by simp) hfilled)).trans (hend.mono (by simp))
  refine ⟨?_, ?_, ?_, ?_⟩
  · rw [hkept.header, hheads]
    rfl
  · rw [hkept.heads]
    exact hstacked
  · intro head
    rw [hkept.heads, hheads]
    simp [mem_addAllOnce]
  · intro name hname
    rcases hkept.phony name hname with hname | hname
    · rw [hheads] at hname
      exact .inl (List.mem_singleton.1 hname ▸ List.mem_cons_self)
    · rcases List.mem_append.1 hname with hname | hname
      · exact .inl (List.mem_cons_of_mem _ hname)
      · obtain ⟨node, hnode, rfl⟩ := List.mem_map.1 hname
        exact .inr ⟨node, hnode, rfl⟩

/-- The fixed names and those of the nodes are phony in an assembled Makefile. -/
theorem phony_of_assemble (hregistry : ctx.registry = .standard)
    (h : assemble ctx nodes closureOf = .ok m) :
    [installTarget, allTarget, "clean"] ++ nodes.flatMap Node.phonyNames ⊆ m.phony := by
  obtain ⟨begun, started, filled, hbegun, hstart, hall, hfilled, hend, hclean⟩ :=
    exists_of_assemble h
  obtain ⟨hheads, -⟩ := addKindHeads_eq hregistry nodes .bare (by simp) hbegun
  have hinstall : installTarget ∈ begun.phony := by
    rw [hheads]
    exact List.mem_singleton.2 rfl
  -- what is declared once stays declared in the steps behind
  have hgrows : started.phony ⊆ m.phony :=
    List.Subset.trans (Continues.addNodes (List.Subset.refl _) hfilled).grows hend.grows
  refine List.append_subset.2 ⟨?_, ?_⟩
  · intro name hname
    simp only [List.mem_cons, List.not_mem_nil, or_false] at hname
    rcases hname with rfl | rfl | rfl
    · exact hgrows (hstart.grows hinstall)
    · exact hgrows hall
    · exact hclean
  · exact List.Subset.trans (phonyNames_of_addNodes hfilled) hend.grows

end Makefile

end Makewright
