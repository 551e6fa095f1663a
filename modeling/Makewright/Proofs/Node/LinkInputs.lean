import Makewright.Node.LinkInputs
import Makewright.Proofs.Layered

/-!
# What link commands take in

`handed` lists what a node hands to the link command of a dependent, without a set to collect it in.
With enough fuel `objectFiles` answers, and its answer is the set it was given with these entries
inserted (`objectFiles_eq`). In a layered list of nodes that is closed under dependencies, the
position of a node is enough (`supplied_of_selfContained`), so looking a dependency up there never
misses.
-/

set_option autoImplicit false

namespace Makewright.Node

variable {dirs : GeneratedDirs} {index : NodeIndex} {language : Language}

/-- The resources that a node may hand to the link command of a dependent as its own. -/
def linkable (dirs : GeneratedDirs) (node : Node) : List Resource :=
  match node.body with
  | .library c => (c.objects dirs).toList
  | .sharedLibrary _ spec => [spec.linkName dirs node.target]
  | .binary _ | .autoconf _ | .listing _ => []

/-- What the dependencies of a node hand on, one behind the other. -/
def handedBelow (index : NodeIndex) (handed : Node → List (Resource × Language))
    (dependencies : List Target) : List (Resource × Language) :=
  dependencies.flatMap fun d => ((index d).map handed).getD []

/-- What a node hands to the link command of a dependent, in one language and in order. -/
def handed (dirs : GeneratedDirs) (index : NodeIndex) (language : Language) :
    Nat → Node → List (Resource × Language)
  | 0, _ => []
  | fuel + 1, node =>
    let below := handedBelow index (handed dirs index language fuel) node.dependencies
    match node.body with
    | .library c => ownObjects dirs language c ++ below
    | .sharedLibrary _ spec =>
      (spec.linkName dirs node.target, .none)
        :: (FileSet.empty.insertAll below).entries.filter fun entry => entry.2 == .none
    | .binary _ | .autoconf _ => []
    | .listing _ => below

/-- The fuel is enough to follow every dependency, and looking one up never misses. -/
def Supplied (index : NodeIndex) : Nat → Node → Prop
  | 0, _ => False
  | fuel + 1, node =>
    ∀ d ∈ node.dependencies, ∃ next, index d = some next ∧ Supplied index fuel next

theorem Supplied.mono {m n : Nat} {node : Node} (h : Supplied index m node) (hmn : m ≤ n) :
    Supplied index n node := by
  induction m generalizing n node with
  | zero => exact absurd h id
  | succ m ih =>
    obtain ⟨n, rfl⟩ : ∃ k, n = k + 1 := ⟨n - 1, by omega⟩
    intro d hd
    obtain ⟨next, hnext, hsupplied⟩ := h d hd
    exact ⟨next, hnext, ih hsupplied (by omega)⟩

/-- If every dependency is there and appends what it hands on, all of it is appended. -/
theorem followAll_eq {visit : Node → FileSet → Except BuildError FileSet}
    {entries : Node → List (Resource × Language)} {ds : List Target}
    (h : ∀ d ∈ ds, ∃ next, index d = some next ∧
      ∀ files, visit next files = .ok (files.insertAll (entries next))) (files : FileSet) :
    followAll index visit ds files = .ok (files.insertAll (handedBelow index entries ds)) := by
  induction ds generalizing files with
  | nil => rfl
  | cons d rest ih =>
    obtain ⟨next, hnext, hvisit⟩ := h d List.mem_cons_self
    have hrest := ih fun e he => h e (List.mem_cons_of_mem d he)
    unfold followAll handedBelow at *
    rw [List.foldlM_cons, List.flatMap_cons, FileSet.insertAll_append]
    simp only [hnext, hvisit, Option.map_some, Option.getD_some]
    exact hrest _

/-- With enough fuel the answer is there: what the node hands on is appended to the set. -/
theorem objectFiles_eq {fuel : Nat} {node : Node} (h : Supplied index fuel node)
    (files : FileSet) :
    objectFiles dirs index language fuel node files =
      .ok (files.insertAll (handed dirs index language fuel node)) := by
  induction fuel generalizing node files with
  | zero => exact absurd h id
  | succ fuel ih =>
    -- what the dependencies hand on, from the hypothesis for one step less
    have hfollow : ∀ start, followAll index (objectFiles dirs index language fuel)
        node.dependencies start = .ok (start.insertAll
          (handedBelow index (handed dirs index language fuel) node.dependencies)) := by
      refine followAll_eq fun d hd => ?_
      obtain ⟨next, hnext, hsupplied⟩ := h d hd
      exact ⟨next, hnext, ih hsupplied⟩
    rw [objectFiles, handed]
    cases node.body with
    | library c =>
      rw [FileSet.insertAll_append]
      exact hfollow _
    | binary c => rfl
    | sharedLibrary c spec =>
      change (followAll index _ node.dependencies FileSet.empty >>= _) = _
      rw [hfollow]
      rfl
    | autoconf spec => rfl
    | listing prerequisites => exact hfollow _

theorem mem_of_mem_ownObjects {c : Compilation} {r : Resource}
    (h : r ∈ (ownObjects dirs language c).map Prod.fst) : r ∈ (c.objects dirs).toList := by
  obtain ⟨entry, hentry, rfl⟩ := List.mem_map.1 h
  obtain ⟨object, hobject, rfl⟩ := List.mem_map.1 hentry
  exact FileSet.mem_of_mem_withTag hobject

/-- Whatever a node hands on is its own or that of a node that can be looked up. -/
theorem mem_handed {fuel : Nat} {node : Node} {r : Resource}
    (h : r ∈ (handed dirs index language fuel node).map Prod.fst) :
    r ∈ node.linkable dirs ∨ ∃ t next, index t = some next ∧ r ∈ next.linkable dirs := by
  induction fuel generalizing node r with
  | zero => simp [handed] at h
  | succ fuel ih =>
    -- whatever comes from a dependency belongs to a node that is looked up
    have hbelow : r ∈ (handedBelow index (handed dirs index language fuel)
        node.dependencies).map Prod.fst →
        ∃ t next, index t = some next ∧ r ∈ next.linkable dirs := by
      intro hr
      obtain ⟨entry, hentry, rfl⟩ := List.mem_map.1 hr
      obtain ⟨d, -, hd⟩ := List.mem_flatMap.1 hentry
      cases hnext : index d with
      | none => simp [hnext] at hd
      | some next =>
        simp only [hnext, Option.map_some, Option.getD_some] at hd
        rcases ih (List.mem_map_of_mem hd) with hown | hother
        · exact ⟨d, next, hnext, hown⟩
        · exact hother
    rw [handed] at h
    unfold linkable
    cases hbody : node.body with
    | library c =>
      simp only [hbody, List.map_append, List.mem_append] at h
      rcases h with hown | hr
      · exact Or.inl (mem_of_mem_ownObjects hown)
      · exact Or.inr (hbelow hr)
    | binary c => simp [hbody] at h
    | sharedLibrary c spec =>
      simp only [hbody, List.map_cons, List.mem_cons] at h
      rcases h with hown | hr
      · exact Or.inl (List.mem_singleton.2 hown)
      · -- of what is inherited only a part is handed on
        obtain ⟨entry, hentry, rfl⟩ := List.mem_map.1 hr
        have hinherited := List.mem_map_of_mem (f := Prod.fst) (List.mem_filter.1 hentry).1
        rcases FileSet.mem_insertAll.1 hinherited with hnone | hr
        · simp at hnone
        · exact Or.inr (hbelow hr)
    | autoconf spec => simp [hbody] at h
    | listing prerequisites =>
      simp only [hbody] at h
      exact Or.inr (hbelow h)

/-! ## Lists of nodes that are closed under dependencies -/

/-- Every node of the list stands behind the nodes that it depends on. -/
def SelfContained (nodes : List Node) : Prop :=
  ∀ front node back, nodes = front ++ node :: back →
    ∀ d ∈ node.dependencies, d ∈ front.map Node.target

/-- The list holds what a node depends on, directly or through others. -/
structure Serves (closure : List Node) (node : Node) : Prop where
  selfContained : SelfContained closure
  dependencies : ∀ d ∈ node.dependencies, d ∈ closure.map Node.target

/-- A target with a node in the front part of a list is found there. -/
theorem exists_indexOf {front : List Node} (rest : List Node) {d : Target}
    (hd : d ∈ front.map Node.target) :
    ∃ before next after, front = before ++ next :: after ∧
      indexOf (front ++ rest) d = some next := by
  have hsome : (front.find? fun node => node.target == d).isSome := by
    obtain ⟨node, hnode, rfl⟩ := List.mem_map.1 hd
    rw [List.find?_isSome]
    exact ⟨node, hnode, by simp⟩
  obtain ⟨next, hnext⟩ := Option.isSome_iff_exists.1 hsome
  obtain ⟨before, after, hfront⟩ := List.append_of_mem (List.mem_of_find?_eq_some hnext)
  refine ⟨before, next, after, hfront, ?_⟩
  rw [indexOf, List.find?_append, hnext, Option.some_or]

/-- A node that depends on nodes of the front part only needs as much fuel as that part is long. -/
theorem supplied_of_selfContained {nodes front rest : List Node} (h : SelfContained nodes)
    (hsplit : nodes = front ++ rest) {node : Node}
    (hdeps : ∀ d ∈ node.dependencies, d ∈ front.map Node.target) :
    Supplied (indexOf nodes) (front.length + 1) node := by
  -- a dependency stands in the front part, so what it depends on stands in a shorter one
  induction hn : front.length using Nat.strongRecOn generalizing front rest node with
  | ind n ih =>
    intro d hd
    obtain ⟨before, next, after, rfl, hnext⟩ := exists_indexOf rest (hdeps d hd)
    rw [List.length_append, List.length_cons] at hn
    have hsplit' : nodes = before ++ next :: (after ++ rest) := by simp [hsplit]
    have hbefore := ih before.length (by omega) hsplit' (h before next _ hsplit') rfl
    exact ⟨next, hsplit ▸ hnext, hbefore.mono (by omega)⟩

/-- A walk from a node has enough fuel with one more than the length of a closure that serves it. -/
theorem Serves.supplied {node : Node} {closure : List Node} (h : Serves closure node) :
    Supplied (indexOf closure) (closure.length + 1) node :=
  supplied_of_selfContained h.selfContained (List.append_nil closure).symm h.dependencies

theorem Serves.asLibrary {node : Node} {closure : List Node} (h : Serves closure node)
    (c : Compilation) : Serves closure (node.asLibrary c) :=
  ⟨h.selfContained, h.dependencies⟩

/-- The link inputs of a node whose closure serves it. -/
theorem linkInputs_eq {node : Node} {closure : List Node} (h : Serves closure node)
    (c : Compilation) :
    linkInputs dirs node c closure =
      .ok ((FileSet.empty.insertAll
        (handed dirs (indexOf closure) .c (closure.length + 1) (node.asLibrary c))).insertAll
        (handed dirs (indexOf closure) .cxx (closure.length + 1) (node.asLibrary c))) := by
  unfold linkInputs
  simp only [objectFiles_eq (h.asLibrary c).supplied, bind, Except.bind]

/-- Every link input is an object of the node or comes from a node of its closure. -/
theorem mem_linkInputs {node : Node} {closure : List Node} {c : Compilation} {inputs : FileSet}
    (h : Serves closure node) (hinputs : linkInputs dirs node c closure = .ok inputs)
    {r : Resource} (hr : r ∈ inputs.toList) :
    r ∈ (c.objects dirs).toList ∨ ∃ next ∈ closure, r ∈ next.linkable dirs := by
  have hhanded : ∀ {language}, r ∈ (handed dirs (indexOf closure) language (closure.length + 1)
      (node.asLibrary c)).map Prod.fst →
      r ∈ (c.objects dirs).toList ∨ ∃ next ∈ closure, r ∈ next.linkable dirs := by
    intro language hr
    rcases mem_handed hr with hown | ⟨t, next, hnext, hr⟩
    · exact Or.inl hown
    · exact Or.inr ⟨next, List.mem_of_find?_eq_some hnext, hr⟩
  rw [linkInputs_eq h, Except.ok.injEq] at hinputs
  rw [← hinputs, FileSet.mem_insertAll, FileSet.mem_insertAll] at hr
  rcases hr with (hr | hr) | hr
  · simp at hr
  · exact hhanded hr
  · exact hhanded hr

end Makewright.Node
