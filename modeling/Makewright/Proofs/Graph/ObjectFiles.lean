import Makewright.Proofs.Generation.Rendering

/-!
# Collecting object files

What a node hands to the link command of a dependent does not depend on the set that it is collected
in: collecting into a set is uniting the set with what is collected from nothing
(`objectFiles_appends`). So a node that is visited again adds nothing, and of what comes along
several paths, each file keeps its first place and its first tag.

The walk is told by the list of all that comes along the paths (`Node.handed`). This list is the same
for every index that finds the closure of the node and for all fuel that is enough
(`Node.handed_congr`).
-/

set_option autoImplicit false

namespace Makewright

namespace FileSet

variable {s : FileSet} {xs : List (Resource × Language)}

theorem insertAll_cons (s : FileSet) (x : Resource × Language) (xs : List (Resource × Language)) :
    s.insertAll (x :: xs) = (s.insert x.1 x.2).insertAll xs := rfl

theorem insert_of_mem {r : Resource} (h : r ∈ s.toList) (tag : Language) : s.insert r tag = s :=
  dif_pos h

theorem entries_insert_of_not_mem {r : Resource} (h : r ∉ s.toList) (tag : Language) :
    (s.insert r tag).entries = s.entries ++ [(r, tag)] := by
  rw [insert, dif_neg h]

/-- Members that are there already add nothing. -/
theorem insertAll_of_subset (h : ∀ x ∈ xs, x.1 ∈ s.toList) : s.insertAll xs = s := by
  induction xs with
  | nil => rfl
  | cons x rest ih =>
    obtain ⟨hx, hrest⟩ := List.forall_mem_cons.1 h
    rw [insertAll_cons, insert_of_mem hx, ih hrest]

/-- Inserting entries is uniting with the set of these entries. -/
theorem insertAll_eq_union (s : FileSet) (xs : List (Resource × Language)) :
    s.insertAll xs = s.union (empty.insertAll xs) := by
  induction xs using List.reverseRecOn with
  | nil => rfl
  | append_singleton xs x ih =>
    rw [insertAll_append, insertAll_append, ih]
    change (s.union (empty.insertAll xs)).insert x.1 x.2 =
      s.union ((empty.insertAll xs).insert x.1 x.2)
    by_cases hmem : x.1 ∈ (empty.insertAll xs).toList
    · have hthere : x.1 ∈ (s.union (empty.insertAll xs)).toList :=
        mem_insertAll.2 (.inr hmem)
      rw [insert_of_mem hmem, insert_of_mem hthere]
    · rw [union, union, entries_insert_of_not_mem hmem, insertAll_append]
      rfl

/-- Of different resources, the newcomers come behind the members in their order and with their
tags. -/
theorem entries_insertAll_of_nodup (h : (xs.map Prod.fst).Nodup) :
    (s.insertAll xs).entries = s.entries ++ xs.filter fun x => x.1 ∉ s.toList := by
  induction xs generalizing s with
  | nil => simp [insertAll]
  | cons x rest ih =>
    obtain ⟨hx, hrest⟩ := List.nodup_cons.1 h
    rw [insertAll_cons, ih hrest]
    by_cases hmem : x.1 ∈ s.toList
    · rw [insert_of_mem hmem, List.filter_cons_of_neg (by simpa using hmem)]
    · have hkept : (rest.filter fun y => y.1 ∉ (s.insert x.1 x.2).toList) =
          rest.filter fun y => y.1 ∉ s.toList := by
        refine List.filter_congr fun y hy => ?_
        have hne : y.1 ≠ x.1 := fun heq => hx (heq ▸ List.mem_map_of_mem hy)
        simp [toList_insert, mem_addOnce, hne]
      rw [entries_insert_of_not_mem hmem, hkept, List.filter_cons_of_pos (by simpa using hmem),
        List.append_assoc]
      rfl

/-- The members of a set that is united with another one stay, and the newcomers come behind them in
their order and with their tags. -/
theorem entries_union (s t : FileSet) :
    (s.union t).entries = s.entries ++ t.entries.filter fun x => x.1 ∉ s.toList :=
  entries_insertAll_of_nodup t.nodup

theorem union_self_right (s t : FileSet) : (s.union t).union t = s.union t :=
  insertAll_of_subset fun _ hx => mem_insertAll.2 (.inr (List.mem_map_of_mem hx))

theorem exists_languageOf? {r : Resource} (h : r ∈ s.toList) : ∃ tag, s.languageOf? r = some tag := by
  by_contra hnone
  obtain ⟨entry, hentry, rfl⟩ := List.mem_map.1 h
  have hlookup := Option.eq_none_iff_forall_ne_some.2 (not_exists.1 hnone)
  simpa using List.lookup_eq_none_iff.1 hlookup entry hentry

/-- Of several entries of a resource, the first one gives the tag. -/
theorem languageOf?_insertAll (s : FileSet) (xs : List (Resource × Language)) (r : Resource) :
    (s.insertAll xs).languageOf? r = (s.languageOf? r).or (xs.lookup r) := by
  induction xs generalizing s with
  | nil => simp [insertAll]
  | cons x rest ih =>
    rw [insertAll_cons, ih]
    by_cases hmem : x.1 ∈ s.toList
    · rw [insert_of_mem hmem]
      by_cases heq : r = x.1
      · subst heq
        obtain ⟨tag, htag⟩ := exists_languageOf? hmem
        rw [htag, Option.some_or, Option.some_or]
      · rw [List.lookup_cons, beq_eq_false_iff_ne.2 heq]
    · have hsplit : (x :: rest).lookup r = ([x].lookup r).or (rest.lookup r) := by
        rw [← List.lookup_append, List.singleton_append]
      rw [languageOf?, entries_insert_of_not_mem hmem, List.lookup_append, Option.or_assoc, hsplit]
      rfl

end FileSet

namespace Node

variable {dirs : GeneratedDirs} {index other : NodeIndex} {language : Language} {node : Node}
  {m n : Nat}

/-- The index finds every node of the list. -/
def Finds (index : NodeIndex) (closure : List Node) : Prop :=
  ∀ next ∈ closure, index next.target = some next

/-- The index of a list with one node for each target finds all of them. -/
theorem finds_indexOf {closure : List Node} (h : (closure.map Node.target).Nodup) :
    Finds (indexOf closure) closure := by
  intro next hnext
  have hsome : (indexOf closure next.target).isSome := by
    rw [indexOf, List.find?_isSome]
    exact ⟨next, hnext, by simp⟩
  obtain ⟨found, hfound⟩ := Option.isSome_iff_exists.1 hsome
  have htarget : found.target = next.target := by simpa using List.find?_some hfound
  rw [hfound, List.inj_on_of_nodup_map h (List.mem_of_find?_eq_some hfound) hnext htarget]

theorem Supplied.of_index (hindex : ∀ t next, index t = some next → other t = some next)
    (h : Supplied index m node) : Supplied other m node := by
  induction m generalizing node with
  | zero => exact absurd h id
  | succ m ih =>
    intro d hd
    obtain ⟨next, hnext, hsupplied⟩ := h d hd
    exact ⟨next, hindex d next hnext, ih hsupplied⟩

/-- What a node hands on does not depend on further nodes of the index or on further fuel. -/
theorem handed_congr (hindex : ∀ t next, index t = some next → other t = some next)
    (h : Supplied index m node) (hmn : m ≤ n) :
    handed dirs other language n node = handed dirs index language m node := by
  induction m generalizing n node with
  | zero => exact absurd h id
  | succ m ih =>
    obtain ⟨n, rfl⟩ : ∃ k, n = k + 1 := ⟨n - 1, by omega⟩
    have hbelow : handedBelow other (handed dirs other language n) node.dependencies =
        handedBelow index (handed dirs index language m) node.dependencies := by
      refine List.flatMap_congr fun d hd => ?_
      obtain ⟨next, hnext, hsupplied⟩ := h d hd
      rw [hnext, hindex d next hnext, Option.map_some, Option.map_some, ih hsupplied (by omega)]
    rw [handed, handed, hbelow]

end Node

namespace Graph

open Node

variable {g settled : Graph} {nodes closure : List Node}

/-- A graph has more nodes than the closure of one of them. -/
theorem IsClosure.length_lt {node : Node} (h : g.IsClosure node.target closure)
    (hnode : node ∈ g.nodes) : closure.length < g.nodes.length := by
  have hself : node.target ∉ closure.map Node.target :=
    fun hmem => h.layered.irrefl hmem (.single ((h.mem_iff node.target).1 hmem))
  have hnodup : (node.target :: closure.map Node.target).Nodup := List.nodup_cons.2 ⟨hself, h.nodup⟩
  have hsubset : node.target :: closure.map Node.target ⊆ g.targets := by
    rw [List.cons_subset]
    exact ⟨mem_targets.2 ⟨node, hnode, rfl⟩, List.map_subset _ h.subset⟩
  have hlength := (List.subperm_of_subset hnodup hsubset).length_le
  simp only [targets, List.length_cons, List.length_map] at hlength
  omega

/-- In a graph that resolves, every node has a set of files that does not depend on the set in which
they are collected: collecting unites that set with it, so the members of the set stay as they are,
the files that are new come behind them, and collecting once more changes nothing. It is the same for
every index that finds what the node reaches, and it holds what comes along the paths, each file once
at its first place and with its first tag. -/
theorem objectFiles_appends (h : g.resolve = (.ok nodes, settled)) (dirs : GeneratedDirs)
    (language : Language) {node : Node} (hnode : node ∈ g.nodes) :
    ∃ closure, settled.dependenciesOf node.target = (.ok closure, settled) ∧ ∃ R : FileSet,
      (∀ index fuel, Finds index closure → closure.length < fuel →
        objectFiles dirs index language fuel node FileSet.empty = .ok R ∧
        ∀ F : FileSet, objectFiles dirs index language fuel node F = .ok (F.union R) ∧
          (F.union R).entries = F.entries ++ R.entries.filter (fun entry => entry.1 ∉ F.toList) ∧
          objectFiles dirs index language fuel node (F.union R) = .ok (F.union R)) ∧
      settled.objectsOf dirs node.target language = .ok R ∧
      R.toList = distinct ((handed dirs (indexOf closure) language (closure.length + 1) node).map
        Prod.fst) ∧
      ∀ r, R.languageOf? r =
        (handed dirs (indexOf closure) language (closure.length + 1) node).lookup r := by
  obtain ⟨closure, hanswer, hclosure⟩ :=
    exists_closure_of_resolve h (mem_targets.2 ⟨node, hnode, rfl⟩)
  have hsupplied := (hclosure.serves hnode).supplied
  -- every walk with an index that finds the closure inserts the same entries
  have hwalk : ∀ index fuel, Finds index closure → closure.length < fuel → ∀ F : FileSet,
      objectFiles dirs index language fuel node F = .ok (F.insertAll
        (handed dirs (indexOf closure) language (closure.length + 1) node)) := by
    intro index fuel hfinds hfuel F
    have hindex : ∀ t next, indexOf closure t = some next → index t = some next := by
      intro t next hnext
      obtain rfl : next.target = t := by simpa using List.find?_some hnext
      exact hfinds next (List.mem_of_find?_eq_some hnext)
    rw [objectFiles_eq ((hsupplied.of_index hindex).mono hfuel), handed_congr hindex hsupplied hfuel]
  obtain ⟨r, -, -, rfl⟩ := walk_of_resolve h
  have hnodes : ∀ next ∈ g.nodes, g.node? next.target = some next :=
    fun next hnext => node?_eq_some_iff.2 ⟨hnext, rfl⟩
  refine ⟨closure, hanswer, FileSet.empty.insertAll
    (handed dirs (indexOf closure) language (closure.length + 1) node), ?_, ?_, ?_, ?_⟩
  · intro index fuel hindex hfuel
    refine ⟨hwalk index fuel hindex hfuel _, fun F => ⟨?_, FileSet.entries_union _ _, ?_⟩⟩
    · rw [hwalk index fuel hindex hfuel, FileSet.insertAll_eq_union]
    · rw [hwalk index fuel hindex hfuel, FileSet.insertAll_eq_union, FileSet.union_self_right]
  · unfold objectsOf
    split
    · next found hfound =>
      obtain rfl := Option.some.inj ((hnodes node hnode).symm.trans hfound)
      exact hwalk g.node? g.nodes.length (fun next hnext => hnodes next (hclosure.subset hnext))
        (hclosure.length_lt hnode) _
    · next hnone => cases (hnodes node hnode).symm.trans hnone
  · rw [FileSet.toList_insertAll]
    rfl
  · intro r
    rw [FileSet.languageOf?_insertAll]
    rfl

theorem top_not_mem_sides : (⟨"", "top"⟩ : Target) ∉ [⟨"", "left"⟩, ⟨"", "right"⟩] := by
  decide

theorem base_not_mem_nil : (⟨"", "base"⟩ : Target) ∉ [] :=
  List.not_mem_nil

/-- A library that depends on two others. -/
def sharingTop : Node :=
  emptyLibrary "top" [⟨"", "left"⟩, ⟨"", "right"⟩] top_not_mem_sides

/-- Two libraries depend on a library of one C source and on a shared library, which they list in
different orders, and one more library depends on them. -/
def sharing : Graph :=
  ⟨[sharingTop,
    emptyLibrary "left" [⟨"", "base"⟩, ⟨"", "plug"⟩] (by decide),
    emptyLibrary "right" [⟨"", "plug"⟩, ⟨"", "base"⟩] (by decide),
    ⟨⟨"", "base"⟩, [], [], .library ⟨.ofList [⟨"", "base.c"⟩] .c, .empty, [], []⟩,
      base_not_mem_nil⟩,
    ⟨⟨"", "plug"⟩, [], [], .sharedLibrary ⟨.empty, .empty, [], []⟩ ⟨none, "", none⟩, by decide⟩],
    by decide, none⟩

/-- The directories of the sample. -/
def sharingDirs : GeneratedDirs := ⟨"obj", "gen", "src", "pkg"⟩

/-- A set that holds the shared library of the sample. -/
def sharingFiles : FileSet := .ofList [⟨"pkg", "libplug.so"⟩] .none

/-- What comes along two paths counts once. In a set that holds the shared library already, the
object comes behind it. -/
theorem objectFiles_appends_sharing :
    ∃ nodes settled closure, sharing.resolve = (.ok nodes, settled) ∧
      settled.dependenciesOf sharingTop.target = (.ok closure, settled) ∧ ∃ R : FileSet,
        R.entries = [(⟨"obj", "base.c.o"⟩, .c), (⟨"pkg", "libplug.so"⟩, .none)] ∧
        objectFiles sharingDirs (indexOf closure) .c 5 sharingTop sharingFiles =
          .ok (sharingFiles.union R) ∧
        (sharingFiles.union R).entries =
          [(⟨"pkg", "libplug.so"⟩, .none), (⟨"obj", "base.c.o"⟩, .c)] := by
  obtain ⟨nodes, settled, hresolve⟩ : ∃ nodes settled, sharing.resolve = (.ok nodes, settled) :=
    ⟨_, _, rfl⟩
  obtain ⟨closure, hanswer, R, hcollect, hobjects, -⟩ :=
    objectFiles_appends hresolve sharingDirs .c (List.mem_cons_self : sharingTop ∈ sharing.nodes)
  obtain rfl : sharing.resolve.2 = settled := congrArg Prod.snd hresolve
  have htargets : closure.map Node.target =
      [⟨"", "base"⟩, ⟨"", "plug"⟩, ⟨"", "left"⟩, ⟨"", "right"⟩] := by
    rw [← Except.ok.inj (congrArg Prod.fst hanswer)]
    rfl
  have hR : R.entries = [(⟨"obj", "base.c.o"⟩, .c), (⟨"pkg", "libplug.so"⟩, .none)] := by
    rw [← Except.ok.inj hobjects]
    rfl
  have hlength : closure.length = 4 := by
    rw [← List.length_map Node.target, htargets]
    rfl
  obtain ⟨-, hfiles⟩ := hcollect (indexOf closure) 5
    (finds_indexOf (by rw [htargets]; decide)) (by rw [hlength]; decide)
  obtain ⟨hunion, hentries, -⟩ := hfiles sharingFiles
  refine ⟨nodes, _, closure, hresolve, hanswer, R, hR, hunion, ?_⟩
  rw [hentries, hR]
  rfl

end Graph

end Makewright
