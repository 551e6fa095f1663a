import Makewright.Proofs.Graph.LinkPaths
import Makewright.Proofs.Meeting

/-!
# The order in which files are handed on

Collecting keeps the first appearance of every file, so of two files that one stands in front that
the walk comes to first (`MeetsFirst`). For the walk for C this is told by the lists of dependencies
alone: the name of a shared library gets in front of another file exactly if, on the way to that
file along the first dependencies that hand it on, some node lists a dependency ahead that hands on
the shared library (`Overtaken`, `meetsFirst_handedBelow` and `Overtaken.meetsFirst`).
-/

set_option autoImplicit false

namespace Makewright

open Relation

variable {g : Graph} {dirs : GeneratedDirs} {node d s : Node} {index : NodeIndex}
  {language tag : Language} {r : Resource} {ds : List Target} {fuel : Nat}

namespace Node

/-! ## The files that a node hands on -/

/-- The name under which a shared library is linked against. -/
def sharedName (dirs : GeneratedDirs) (node : Node) : Resource :=
  node.target.generated dirs.pkgfileDir (SharedSpec.baseName node.target)

/-- The file is made by the rules of the node and may be linked: the object of one of its sources,
or the name under which the node is linked against. -/
def Yields (dirs : GeneratedDirs) (node : Node) (r : Resource) (tag : Language) : Prop :=
  (∃ c source, node.body.compilation? = some c ∧ source ∈ c.sources ∧
    Language.ofSource? source.path = some tag ∧ r = Compilation.objectFor dirs source) ∨
  node.IsShared ∧ tag = .none ∧ r = node.sharedName dirs

/-- The file comes from the node, or from one that it reaches through nodes that pass the file. -/
def HandsOn (g : Graph) (dirs : GeneratedDirs) (node : Node) (r : Resource) (tag : Language) :
    Prop :=
  ∃ next, ReflTransGen (fun x y => x.Passes tag ∧ Lists g x y) node next ∧ next.Passes tag ∧
    next.Yields dirs r tag

/-- None of these dependencies hands the file on. -/
def Withholds (g : Graph) (dirs : GeneratedDirs) (r : Resource) (tag : Language)
    (ds : List Target) : Prop :=
  ∀ x ∈ g.nodes, x.target ∈ ds → ¬ x.HandsOn g dirs r tag

/-- Going through a list of dependencies, one comes to the name of the shared library `s` before one
comes to the file `r`: a dependency ahead of those that hand the file on hands on that name, or it
is the same again behind the first dependency that hands the file on. -/
inductive Overtaken (g : Graph) (dirs : GeneratedDirs) (r : Resource) (tag : Language) (s : Node) :
    List Target → Prop
  | ahead {front back : List Target} {d : Node} (hd : d ∈ g.nodes)
    (hfront : Withholds g dirs r tag front) (hr : ¬ d.HandsOn g dirs r tag)
    (hs : d.HandsOn g dirs (s.sharedName dirs) .none) :
    Overtaken g dirs r tag s (front ++ d.target :: back)
  | itself {front back : List Target} {d : Node} (hd : d ∈ g.nodes)
    (hfront : Withholds g dirs r tag front) (hr : d.HandsOn g dirs r tag)
    (hnot : ¬ d.Yields dirs r tag) (hs : d.Yields dirs (s.sharedName dirs) .none) :
    Overtaken g dirs r tag s (front ++ d.target :: back)
  | behind {front back : List Target} {d : Node} (hd : d ∈ g.nodes)
    (hfront : Withholds g dirs r tag front) (hr : d.HandsOn g dirs r tag)
    (hnot : ¬ d.Yields dirs r tag) (hs : Overtaken g dirs r tag s d.dependencies) :
    Overtaken g dirs r tag s (front ++ d.target :: back)

theorem handsOn_iff :
    node.HandsOn g dirs r tag ↔
      node.Passes tag ∧
        (node.Yields dirs r tag ∨ ∃ next, Lists g node next ∧ next.HandsOn g dirs r tag) := by
  constructor
  · rintro ⟨next, hpath, hpasses, hyields⟩
    rcases ReflTransGen.cases_head_iff.1 hpath with rfl | ⟨first, ⟨hfirst, hlists⟩, hrest⟩
    · exact ⟨hpasses, Or.inl hyields⟩
    · exact ⟨hfirst, Or.inr ⟨first, hlists, next, hrest, hpasses, hyields⟩⟩
  · rintro ⟨hpasses, hyields | ⟨first, hlists, next, hpath, hnext, hyields⟩⟩
    · exact ⟨node, .refl, hpasses, hyields⟩
    · exact ⟨next, .head ⟨hpasses, hlists⟩ hpath, hnext, hyields⟩

/-- A node that passes objects passes the names of shared libraries as well. -/
theorem Passes.none (h : node.Passes tag) : node.Passes .none := by
  unfold Passes at h ⊢
  cases hbody : node.body <;> simp [hbody] at h ⊢

/-- The objects of C sources that a node hands on as its own are those that it yields. -/
theorem mem_ownObjects_iff (hnode : node.WellRead) {c : Compilation}
    (hc : node.body.compilation? = some c) :
    (r, tag) ∈ ownObjects dirs .c c ↔ tag = .c ∧ node.Yields dirs r .c := by
  rw [mem_ownObjects, mem_objects_entries (hnode.isTagged hc)]
  constructor
  · rintro ⟨rfl, source, hsource, hlanguage, hobject⟩
    exact ⟨rfl, Or.inl ⟨c, source, hc, hsource, hlanguage, hobject⟩⟩
  · rintro ⟨rfl, ⟨c', source, hc', hsource, hlanguage, hobject⟩ | ⟨-, hnone, -⟩⟩
    · obtain rfl := Option.some.inj (hc.symm.trans hc')
      exact ⟨rfl, source, hsource, hlanguage, hobject⟩
    · cases hnone

/-- Which of its own files a node hands on in the walk for C. -/
theorem mem_ownHanded_iff (hnode : node.WellRead) (htag : tag ≠ .cxx) :
    (r, tag) ∈ ownHanded dirs .c node ↔ node.Passes tag ∧ node.Yields dirs r tag := by
  cases tag with
  | cxx => exact absurd rfl htag
  | none =>
    rw [mem_ownHanded_shared (by decide), passes_none_iff]
    constructor
    · rintro ⟨hshared, hname⟩
      exact ⟨Or.inr hshared, Or.inr ⟨hshared, rfl, hname⟩⟩
    · rintro ⟨-, ⟨c, source, -, -, hnone, -⟩ | ⟨hshared, -, hname⟩⟩
      · exact absurd hnone (ofSource?_ne_none _)
      · exact ⟨hshared, hname⟩
  | c =>
    rw [mem_ownHanded_object (by decide), passes_iff (by decide)]
    have hown : ∀ c, node.body = .library c →
        ((r, .c) ∈ ownObjects dirs .c c ↔ node.Yields dirs r .c) := by
      intro c hbody
      have hc : node.body.compilation? = some c := by
        rw [hbody]
        rfl
      exact (mem_ownObjects_iff hnode hc).trans (and_iff_right rfl)
    constructor
    · rintro ⟨c, hbody, hmem⟩
      exact ⟨⟨c, hbody⟩, (hown c hbody).1 hmem⟩
    · rintro ⟨⟨c, hbody⟩, hyields⟩
      exact ⟨c, hbody, (hown c hbody).2 hyields⟩

/-- In the walk for C, a node hands on what comes to it along paths of nodes that pass it. -/
theorem mem_handed_iff_handsOn (hg : ∀ n ∈ g.nodes, n.WellRead) (hindex : Indexes g index)
    (hsupplied : Supplied index fuel node) (hnode : node.WellRead) (htag : tag ≠ .cxx) :
    (r, tag) ∈ handed dirs index .c fuel node ↔ node.HandsOn g dirs r tag := by
  rw [mem_handed_iff hg hindex hsupplied hnode]
  refine exists_congr fun next => and_congr_right fun hpath => ?_
  refine mem_ownHanded_iff ?_ htag
  cases hpath with
  | refl => exact hnode
  | tail _ hlast => exact hg next hlast.2.1

/-! ## Which of two files is handed on first -/

/-- All of these dependencies can be looked up, with fuel to follow them. -/
def SuppliedAll (index : NodeIndex) (fuel : Nat) (ds : List Target) : Prop :=
  ∀ t ∈ ds, ∃ next, index t = some next ∧ Supplied index fuel next

theorem Supplied.exists_succ (h : Supplied index fuel node) : ∃ n, fuel = n + 1 := by
  cases fuel with
  | zero => exact absurd h id
  | succ n => exact ⟨n, rfl⟩

theorem SuppliedAll.exists_node (hindex : Indexes g index) (h : SuppliedAll index fuel ds)
    {t : Target} (ht : t ∈ ds) :
    ∃ d ∈ g.nodes, d.target = t ∧ index t = some d ∧ Supplied index fuel d := by
  obtain ⟨d, hd, hsupplied⟩ := h t ht
  obtain ⟨hmem, htarget⟩ := hindex t d hd
  exact ⟨d, hmem, htarget, hd, hsupplied⟩

theorem SuppliedAll.of_node (hindex : Indexes g index) (h : SuppliedAll index fuel ds)
    (hd : d ∈ g.nodes) (ht : d.target ∈ ds) :
    index d.target = some d ∧ Supplied index fuel d := by
  obtain ⟨found, hfound, htarget, hlookup, hsupplied⟩ := h.exists_node hindex ht
  obtain rfl := Graph.eq_of_target_eq hfound hd htarget
  exact ⟨hlookup, hsupplied⟩

/-- What dependencies hand on that withhold a file does not contain it. -/
theorem Withholds.not_mem (hg : ∀ n ∈ g.nodes, n.WellRead) (hindex : Indexes g index)
    (hsupplied : SuppliedAll index fuel ds) (htag : tag ≠ .cxx)
    (h : Withholds g dirs r tag ds) :
    ∀ t ∈ ds, (r, tag) ∉ ((index t).map (handed dirs index .c fuel)).getD [] := by
  intro t ht
  obtain ⟨d, hd, rfl, hlookup, hsupplied⟩ := hsupplied.exists_node hindex ht
  rw [hlookup, Option.map_some, Option.getD_some,
    mem_handed_iff_handsOn hg hindex hsupplied (hg d hd) htag]
  exact h d hd ht

/-- Behind dependencies that withhold a file, the walk goes on with the next one. -/
theorem Withholds.meetsFirst {front back : List Target} {entry : Resource × Language}
    (hg : ∀ n ∈ g.nodes, n.WellRead) (hindex : Indexes g index) (htag : tag ≠ .cxx)
    (hsupplied : SuppliedAll index fuel (front ++ d.target :: back)) (hd : d ∈ g.nodes)
    (hfront : Withholds g dirs r tag front)
    (h : MeetsFirst (handed dirs index .c fuel d) entry (r, tag)) :
    MeetsFirst (handedBelow index (handed dirs index .c fuel) (front ++ d.target :: back)) entry
      (r, tag) := by
  have hsuppliedFront : SuppliedAll index fuel front :=
    fun t ht => hsupplied t (List.mem_append_left _ ht)
  obtain ⟨hlookup, -⟩ := hsupplied.of_node hindex hd (by simp)
  refine MeetsFirst.flatMap (hfront.not_mem hg hindex hsuppliedFront htag) ?_
  rw [hlookup, Option.map_some, Option.getD_some]
  exact h

/-- A node that passes a file comes to it before another one if its dependencies do, unless the
other one is its own. -/
theorem meetsFirst_handed {r' : Resource} {tag' : Language} (hg : ∀ n ∈ g.nodes, n.WellRead)
    (hindex : Indexes g index) (hnode : node.WellRead) (hpasses : node.Passes tag)
    (hown : (r', tag') ∉ ownHanded dirs language node)
    (h : MeetsFirst (handedBelow index (handed dirs index language fuel) node.dependencies)
      (r, tag) (r', tag')) :
    MeetsFirst (handed dirs index language (fuel + 1) node) (r, tag) (r', tag') := by
  rw [handed]
  cases hnode with
  | library hbody _ =>
    simp only [ownHanded, hbody] at hown ⊢
    exact h.append_left hown
  | binary hbody _ => simp [Passes, hbody] at hpasses
  | sharedLibrary hbody _ =>
    simp only [ownHanded, Passes, hbody] at hown hpasses ⊢
    subst hpasses
    -- the set of what is inherited holds the first appearances, and the file itself is kept
    have hbelow : ∀ e ∈ handedBelow index (handed dirs index language fuel) node.dependencies,
        IsLinkFile dirs e.1 e.2 := by
      intro e he
      obtain ⟨t, -, next, hnext, he⟩ := mem_handedBelow.1 he
      exact isLinkFile_of_mem_handed hg hindex (hg next (hindex t next hnext).1) he
    have hcollect := FileSet.entries_insertAll (s := FileSet.empty)
      (isFunctional_isLinkFile dirs) (fun e he => absurd he List.not_mem_nil) hbelow
    rw [hcollect]
    exact (h.distinct.filter rfl).append_left hown
  | autoconf hbody => simp [Passes, hbody] at hpasses

/-- What a node hands on starts with its own files. -/
theorem meetsFirst_handed_own {r' : Resource} {tag' : Language}
    (h : MeetsFirst (ownHanded dirs language node) (r, tag) (r', tag')) :
    MeetsFirst (handed dirs index language (fuel + 1) node) (r, tag) (r', tag') := by
  have hnone : ¬ MeetsFirst ([] : List (Resource × Language)) (r, tag) (r', tag') := by
    rintro ⟨front, back, heq, -⟩
    simp at heq
  rw [handed]
  cases hbody : node.body with
  | library c | sharedLibrary c spec =>
    simp only [ownHanded, hbody] at h ⊢
    exact h.append_right _
  | binary c | autoconf spec | listing prerequisites =>
    simp only [ownHanded, hbody] at h
    exact absurd h hnone

/-- Among its own files, a node comes to none before one that is no object. -/
theorem meetsFirst_ownHanded {r' : Resource} (hown : (r, tag) ∈ ownHanded dirs .c node) :
    MeetsFirst (ownHanded dirs .c node) (r, tag) (r', .none) := by
  have hobjects : ∀ c, (r', Language.none) ∉ ownObjects dirs .c c := by
    intro c h
    cases (mem_ownObjects.1 h).1
  unfold ownHanded at hown ⊢
  cases hbody : node.body with
  | library c =>
    simp only [hbody] at hown
    exact .of_mem hown (hobjects c)
  | sharedLibrary c spec =>
    simp only [hbody, List.mem_singleton] at hown
    exact ⟨[], [], by simp [hown], List.not_mem_nil⟩
  | binary c => simp [hbody] at hown
  | autoconf spec => simp [hbody] at hown
  | listing prerequisites => simp [hbody] at hown

/-- If the walk through some dependencies is not overtaken by a shared library on its way to a file,
it comes to the file first. -/
theorem meetsFirst_handedBelow (hg : ∀ n ∈ g.nodes, n.WellRead) (hindex : Indexes g index)
    (htag : tag ≠ .cxx) (hsupplied : SuppliedAll index fuel ds)
    (hr : ∃ d ∈ g.nodes, d.target ∈ ds ∧ d.HandsOn g dirs r tag)
    (h : ¬ Overtaken g dirs r tag s ds) :
    MeetsFirst (handedBelow index (handed dirs index .c fuel) ds) (r, tag)
      (s.sharedName dirs, .none) := by
  induction fuel generalizing ds with
  | zero =>
    obtain ⟨d, hd, ht, -⟩ := hr
    exact absurd (hsupplied.of_node hindex hd ht).2 id
  | succ fuel ih =>
    -- the first of the dependencies that hands the file on
    obtain ⟨front, t, back, rfl, ⟨d, hd, rfl, hhands⟩, hfront⟩ :
        ∃ front t back, ds = front ++ t :: back ∧
          (∃ d ∈ g.nodes, d.target = t ∧ d.HandsOn g dirs r tag) ∧
          ∀ u ∈ front, ¬ ∃ d ∈ g.nodes, d.target = u ∧ d.HandsOn g dirs r tag := by
      obtain ⟨d, hd, ht, hhands⟩ := hr
      exact exists_first ⟨d.target, ht, d, hd, rfl, hhands⟩
    have hwithholds : Withholds g dirs r tag front :=
      fun x hx hmem hhands => hfront x.target hmem ⟨x, hx, rfl, hhands⟩
    have hname : Withholds g dirs (s.sharedName dirs) .none front := by
      intro x hx hmem hhands
      obtain ⟨before, after, rfl⟩ := List.append_of_mem hmem
      refine h ?_
      rw [List.append_assoc]
      refine .ahead hx (fun y hy hmem => ?_) (hwithholds x hx hmem) hhands
      exact hwithholds y hy (List.mem_append_left _ hmem)
    obtain ⟨-, hnode⟩ := hsupplied.of_node hindex hd (by simp)
    refine hname.meetsFirst hg hindex (by decide) hsupplied hd ?_
    obtain ⟨hpasses, hcome⟩ := handsOn_iff.1 hhands
    by_cases hyields : d.Yields dirs r tag
    · refine meetsFirst_handed_own (meetsFirst_ownHanded ?_)
      exact (mem_ownHanded_iff (hg d hd) htag).2 ⟨hpasses, hyields⟩
    · obtain ⟨next, ⟨hnext, hlisted⟩, hhandsNext⟩ := hcome.resolve_left hyields
      refine meetsFirst_handed hg hindex (hg d hd) hpasses ?_ ?_
      · intro hown
        have hs := ((mem_ownHanded_iff (hg d hd) (by decide)).1 hown).2
        exact h (.itself hd hwithholds hhands hyields hs)
      · refine ih hnode ⟨next, hnext, hlisted, hhandsNext⟩ fun hbehind => ?_
        exact h (.behind hd hwithholds hhands hyields hbehind)

/-- If the walk through some dependencies is overtaken by a shared library on its way to a file, it
comes to the shared library first. -/
theorem Overtaken.meetsFirst (hg : ∀ n ∈ g.nodes, n.WellRead) (hindex : Indexes g index)
    (htag : tag ≠ .cxx) (h : Overtaken g dirs r tag s ds) (hsupplied : SuppliedAll index fuel ds) :
    MeetsFirst (handedBelow index (handed dirs index .c fuel) ds) (s.sharedName dirs, .none)
      (r, tag) := by
  induction h generalizing fuel with
  | @ahead front back d hd hfront hr hs =>
    obtain ⟨-, hnode⟩ := hsupplied.of_node hindex hd (by simp)
    refine hfront.meetsFirst hg hindex htag hsupplied hd (.of_mem ?_ ?_)
    · exact (mem_handed_iff_handsOn hg hindex hnode (hg d hd) (by decide)).2 hs
    · exact fun hmem => hr ((mem_handed_iff_handsOn hg hindex hnode (hg d hd) htag).1 hmem)
  | @itself front back d hd hfront hr hnot hs =>
    obtain ⟨-, hnode⟩ := hsupplied.of_node hindex hd (by simp)
    obtain ⟨fuel, rfl⟩ := hnode.exists_succ
    refine hfront.meetsFirst hg hindex htag hsupplied hd (meetsFirst_handed_own (.of_mem ?_ ?_))
    · exact (mem_ownHanded_iff (hg d hd) (by decide)).2 ⟨(handsOn_iff.1 hr).1.none, hs⟩
    · exact fun hown => hnot ((mem_ownHanded_iff (hg d hd) htag).1 hown).2
  | @behind front back d hd hfront hr hnot hs ih =>
    obtain ⟨-, hnode⟩ := hsupplied.of_node hindex hd (by simp)
    obtain ⟨fuel, rfl⟩ := hnode.exists_succ
    refine hfront.meetsFirst hg hindex htag hsupplied hd ?_
    refine meetsFirst_handed hg hindex (hg d hd) (handsOn_iff.1 hr).1.none ?_ (ih hnode)
    exact fun hown => hnot ((mem_ownHanded_iff (hg d hd) htag).1 hown).2

end Node

end Makewright
