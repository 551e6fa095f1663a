import Makewright.Node.Basic
import Makewright.Proofs.Meeting

/-!
# The linker flags of a node and of what it depends on

The flags of a node and of the nodes it depends on are merged flag by flag, in the order in which
one comes to them. What becomes of the list of one of these nodes depends on all of them
(`Node.collectLdflags_keeps`): it survives as a subsequence exactly if it repeats no flag and its
flags are first met in its own order, and it stays in one piece if none of its flags comes earlier.
-/

set_option autoImplicit false

namespace Makewright

namespace Node

variable {node m : Node} {closure front back : List Node}

/-- The linker flags of a node and of the nodes it depends on, one list behind the other. -/
def offeredLdflags (node : Node) (closure : List Node) : List String :=
  (node :: closure).flatMap Node.ldflags

theorem ldflags_subset_offered (hm : m ∈ node :: closure) :
    m.ldflags ⊆ node.offeredLdflags closure :=
  fun _ hflag => List.mem_flatMap.2 ⟨m, hm, hflag⟩

/-- Flags that no node in front brings along, each listed once, stay together. -/
theorem isInfix_collectLdflags (h : node :: closure = front ++ m :: back) (hm : m.ldflags.Nodup)
    (hfront : ∀ earlier ∈ front, ∀ flag ∈ earlier.ldflags, flag ∉ m.ldflags) :
    m.ldflags <:+: node.collectLdflags closure := by
  -- what is collected before one comes to the node
  have hnew : ∀ flag ∈ m.ldflags, flag ∉ distinct (front.flatMap Node.ldflags) := by
    intro flag hflag hmem
    obtain ⟨earlier, hearlier, hthere⟩ := List.mem_flatMap.1 (mem_distinct.1 hmem)
    exact hfront earlier hearlier flag hthere hflag
  have hcollected : node.collectLdflags closure =
      addAllOnce (distinct (front.flatMap Node.ldflags) ++ m.ldflags)
        (back.flatMap Node.ldflags) := by
    rw [collectLdflags, h, List.flatMap_append, List.flatMap_cons, distinct_append,
      addAllOnce_append, addAllOnce_of_disjoint hm hnew]
  rw [hcollected]
  have hpiece : m.ldflags <:+: distinct (front.flatMap Node.ldflags) ++ m.ldflags :=
    (List.suffix_append _ _).isInfix
  exact hpiece.trans (prefix_addAllOnce _ _).isInfix

/-- The flags of the node itself come first. -/
theorem isPrefix_collectLdflags (h : node.ldflags.Nodup) :
    node.ldflags <+: node.collectLdflags closure := by
  rw [collectLdflags, List.flatMap_cons, distinct_append, distinct_of_nodup h]
  exact prefix_addAllOnce _ _

/-- What the collection of linker flags keeps: every flag of the node and of what it depends on,
once, in the order in which one comes to them, the flags of the node first. The list of one of these
nodes is a subsequence of it exactly if it repeats no flag and its flags are first met in its own
order, and it is one piece of it if moreover no node in front brings a flag of it along. -/
theorem collectLdflags_keeps (node : Node) (closure : List Node) :
    (node.collectLdflags closure).Nodup ∧
    (∀ flag, flag ∈ node.collectLdflags closure ↔ ∃ m ∈ node :: closure, flag ∈ m.ldflags) ∧
    (node.collectLdflags closure).Pairwise (MeetsFirst (node.offeredLdflags closure)) ∧
    (node.ldflags <+: node.collectLdflags closure ↔ node.ldflags.Nodup) ∧
    (∀ m ∈ node :: closure, m.ldflags.Sublist (node.collectLdflags closure) ↔
      m.ldflags.Nodup ∧ m.ldflags.Pairwise (MeetsFirst (node.offeredLdflags closure))) ∧
    ∀ front m back, node :: closure = front ++ m :: back → m.ldflags.Nodup →
      (∀ earlier ∈ front, ∀ flag ∈ earlier.ldflags, flag ∉ m.ldflags) →
      m.ldflags <:+: node.collectLdflags closure := by
  have hnodup : (node.collectLdflags closure).Nodup := nodup_distinct _
  refine ⟨hnodup, ?members, pairwise_distinct _, ?own, ?order, ?piece⟩
  case members =>
    intro flag
    rw [collectLdflags, mem_distinct]
    exact List.mem_flatMap
  case own =>
    constructor
    · intro h
      exact hnodup.sublist h.sublist
    · exact isPrefix_collectLdflags
  case order =>
    intro m hm
    exact sublist_distinct_iff (ldflags_subset_offered hm)
  case piece =>
    intro front m back
    exact isInfix_collectLdflags

/-- A library that is linked as a group. -/
def groupedFlags : Node :=
  ⟨⟨"lib", "codec"⟩, [], ["-Wl,--start-group", "-la", "-lb", "-Wl,--end-group"],
    .library ⟨FileSet.empty, FileSet.empty, [], []⟩, by decide⟩

/-- A program that depends on it. -/
def threadedFlags : Node :=
  ⟨⟨"app", "play"⟩, [⟨"lib", "codec"⟩], ["-pthread"],
    .binary ⟨FileSet.empty, FileSet.empty, [], []⟩, by decide⟩

theorem collectLdflags_keeps_group :
    groupedFlags.ldflags <:+: threadedFlags.collectLdflags [groupedFlags] :=
  (collectLdflags_keeps threadedFlags [groupedFlags]).2.2.2.2.2 [threadedFlags] groupedFlags []
    rfl (by decide) (by decide)

/-- A program linked with `-Xlinker a -Xlinker b`. -/
def repeatingFlags : Node :=
  ⟨⟨"app", "x"⟩, [], ["-Xlinker", "a", "-Xlinker", "b"],
    .binary ⟨FileSet.empty, FileSet.empty, [], []⟩, by decide⟩

/-- The second `-Xlinker` is left out, so that `b` loses the option in front of it. -/
theorem collectLdflags_drops_repeat :
    repeatingFlags.collectLdflags [] = ["-Xlinker", "a", "b"] ∧
      ¬ repeatingFlags.ldflags.Sublist (repeatingFlags.collectLdflags []) := by
  decide

end Node

end Makewright
