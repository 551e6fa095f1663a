import Makewright.Proofs.Generation.Footprint
import Makewright.Proofs.Node.Reading
import Mathlib.Data.List.Nodup
import Mathlib.Data.List.TakeWhile

/-!
# Targets as a workspace describes them

What a workspace says about its targets while its files stay as they are: the build file of a
package describes targets of that package, each once (`read_spec`), and a description reads as one
node (`Reads.unique`). So the node of a target is determined by the files (`Declares.unique`).
-/

set_option autoImplicit false

namespace Makewright

variable {ctx : Context} {files : FileTree} {d : Description}

/-- A text that is not blank throughout leaves something when it is trimmed. -/
theorem Text.trim_ne_empty {text : String} (h : isAllBlank text = false) : trim text ≠ "" := by
  intro hempty
  rw [trim, strip, String.ofList_eq_empty_iff, stripList, dropRight, List.reverse_eq_nil_iff,
    List.dropWhile_eq_nil_iff] at hempty
  -- what stands first after the blanks on the left is not dropped on the right
  cases hrest : text.toList.dropWhile isBlank with
  | nil =>
    rw [List.dropWhile_eq_nil_iff] at hrest
    rw [isAllBlank, List.all_eq_true.2 hrest] at h
    cases h
  | cons c rest =>
    have hfirst : isBlank c = true := hempty c (by simp [hrest])
    have hhead := List.head?_dropWhile_not isBlank text.toList
    rw [hrest] at hhead
    simp [hfirst] at hhead

namespace BuildFile

/-- The descriptions of one package, which has one of them at most for every target. Every target is
named like a file. -/
structure DescribesPackage (package : String) (ds : List Description) : Prop where
  package_eq : ∀ d ∈ ds, d.target.package = package
  isPlain_name : ∀ d ∈ ds, Path.IsPlain d.target.name.toList
  distinct : (ds.map fun d => d.target.name).Nodup

/-- A name that can be told from a path. -/
theorem isPlain_of_isBadName {name : String} (hempty : name ≠ "") (h : isBadName name = false) :
    Path.IsPlain name.toList := by
  simp only [isBadName, Bool.or_eq_false_iff, List.any_eq_false, Bool.or_eq_true,
    beq_iff_eq, decide_eq_false_iff_not, not_or] at h
  obtain ⟨⟨hmarks, hdot⟩, hup⟩ := h
  refine ⟨?_, ?_, ?_, ?_⟩
  · rwa [Ne, String.toList_eq_nil_iff]
  · exact fun hname => hdot (String.toList_injective hname)
  · exact fun hname => hup (String.toList_injective hname)
  · exact fun hslash => (hmarks '/' hslash).2 rfl

theorem text?_ne_empty {entry : List (Value × Value)} {key text : String}
    (h : text? entry key = some text) : text ≠ "" := by
  unfold text? at h
  split at h
  · split_ifs at h with hblank
    cases h
    exact Text.trim_ne_empty (by simpa using hblank)
  · cases h

theorem describe_target {package path : String} {position : Nat} {entry : Value}
    (h : describe package path position entry = .ok d) :
    d.target.package = package ∧ Path.IsPlain d.target.name.toList := by
  unfold describe at h
  cases entry with
  | map attributes =>
    simp only at h
    cases hname : text? attributes "name" with
    | none => simp [hname] at h
    | some name =>
      simp only [hname] at h
      split_ifs at h with hbad
      cases hkind : text? attributes "kind" with
      | none => simp [hkind] at h
      | some kind =>
        simp only [hkind, Except.ok.injEq] at h
        rw [← h]
        exact ⟨rfl, isPlain_of_isBadName (text?_ne_empty hname) (by simpa using hbad)⟩
  | _ => cases h

theorem describeAll_spec {package path : String} {position : Nat} {seen ds : List Description}
    {entries : List Value} (hseen : DescribesPackage package seen)
    (h : describeAll package path position seen entries = .ok ds) :
    DescribesPackage package ds := by
  induction entries generalizing position seen with
  | nil =>
    cases h
    exact hseen
  | cons entry rest ih =>
    obtain ⟨d, hd, h⟩ := exists_of_bind_eq_ok h
    split_ifs at h with hrepeated
    obtain ⟨hpackage, hplain⟩ := describe_target hd
    refine ih ⟨?_, ?_, ?_⟩ h
    · exact List.forall_mem_append.2 ⟨hseen.package_eq, List.forall_mem_singleton.2 hpackage⟩
    · exact List.forall_mem_append.2 ⟨hseen.isPlain_name, List.forall_mem_singleton.2 hplain⟩
    · rw [List.map_append]
      refine nodup_append_singleton hseen.distinct ?_
      intro hmem
      obtain ⟨e, he, hname⟩ := List.mem_map.1 hmem
      exact hrepeated (List.any_eq_true.2 ⟨e, he, beq_iff_eq.2 hname⟩)

/-- A build file describes targets of its package, each once. -/
theorem read_spec {root : Location} {package : String} {ds : List Description}
    (h : read files root package = .ok (some ds)) : DescribesPackage package ds := by
  obtain ⟨found, -, h⟩ := exists_of_bind_eq_ok h
  cases found with
  | none => cases h
  | some l =>
    obtain ⟨data, -, h⟩ := exists_of_bind_eq_ok h
    cases hds : descriptions package l.render data with
    | error e => simp [hds] at h
    | ok found =>
      rw [hds] at h
      cases h
      have hnone : DescribesPackage package [] := ⟨by simp, by simp, by simp⟩
      unfold descriptions at hds
      simp only at hds
      split_ifs at hds
      · obtain ⟨_, -, hds⟩ := exists_of_bind_eq_ok hds
        cases hds
      split at hds
      · exact describeAll_spec hnone hds
      · exact describeAll_spec hnone hds
      · cases hds

end BuildFile

namespace Context

/-- The node is what a description reads as. Sources from elsewhere are in the directory in which
the fetcher serves them. -/
inductive Reads (ctx : Context) (d : Description) : Node → Prop
  | complete {nodeClass : NodeClass} {node : Node}
    (hfind : ctx.registry.find d.kind (some d.target) = .ok nodeClass)
    (hread : nodeClass.read ctx.workspace.settings d = .ok (.complete node)) : Reads ctx d node
  | fetched {nodeClass : NodeClass} {identifier : String} {finish : String → Node}
    {fetcher : Fetcher} (hfind : ctx.registry.find d.kind (some d.target) = .ok nodeClass)
    (hread : nodeClass.read ctx.workspace.settings d = .ok (.awaiting identifier finish))
    (hfetcher : ctx.fetcher = some fetcher) :
    Reads ctx d (finish (Loading.workspacePath ctx.workspace.root (fetcher.place identifier)))

/-- The build file of the package describes the targets. -/
def Describes (ctx : Context) (files : FileTree) (package : String) (ds : List Description) :
    Prop :=
  BuildFile.read files ctx.workspace.root package = .ok (some ds)

/-- The node is what the description of its target in the build file of its package reads as. -/
def Declares (ctx : Context) (files : FileTree) (node : Node) : Prop :=
  ∃ ds d, ctx.Describes files node.target.package ds ∧ d ∈ ds ∧ ctx.Reads d node

variable {package : String} {ds : List Description} {a b node : Node}

theorem Reads.follows (h : ctx.Reads d node) : node.Follows d := by
  cases h with
  | complete hfind hread => exact Node.follows_of_read hread (.complete node)
  | @fetched nodeClass identifier finish fetcher hfind hread hfetcher =>
    exact Node.follows_of_read hread (.finish identifier finish _)

theorem Reads.target (h : ctx.Reads d node) : node.target = d.target :=
  h.follows.target

/-- A description reads as one node only. -/
theorem Reads.unique (ha : ctx.Reads d a) (hb : ctx.Reads d b) : a = b := by
  cases ha with
  | complete hfind hread =>
    cases hb with
    | complete hfind' hread' =>
      obtain rfl := Except.ok.inj (hfind.symm.trans hfind')
      cases Except.ok.inj (hread.symm.trans hread')
      rfl
    | fetched hfind' hread' hfetcher =>
      obtain rfl := Except.ok.inj (hfind.symm.trans hfind')
      cases Except.ok.inj (hread.symm.trans hread')
  | fetched hfind hread hfetcher =>
    cases hb with
    | complete hfind' hread' =>
      obtain rfl := Except.ok.inj (hfind.symm.trans hfind')
      cases Except.ok.inj (hread.symm.trans hread')
    | fetched hfind' hread' hfetcher' =>
      obtain rfl := Except.ok.inj (hfind.symm.trans hfind')
      cases Except.ok.inj (hread.symm.trans hread')
      cases Option.some.inj (hfetcher.symm.trans hfetcher')
      rfl

theorem Describes.package_eq (h : ctx.Describes files package ds) (hd : d ∈ ds) :
    d.target.package = package :=
  (BuildFile.read_spec h).package_eq d hd

theorem Describes.unique {others : List Description} (h : ctx.Describes files package ds)
    (hothers : ctx.Describes files package others) : ds = others :=
  Option.some.inj (Except.ok.inj (h.symm.trans hothers))

/-- A package has one description at most for every target. -/
theorem Describes.eq_of_target_eq (h : ctx.Describes files package ds) {e : Description}
    (hd : d ∈ ds) (he : e ∈ ds) (htarget : d.target = e.target) : d = e :=
  List.inj_on_of_nodup_map (BuildFile.read_spec h).distinct hd he (congrArg Target.name htarget)

theorem Reads.declares (h : ctx.Reads d node) (hds : ctx.Describes files package ds)
    (hd : d ∈ ds) : ctx.Declares files node := by
  refine ⟨ds, d, ?_, hd, h⟩
  rw [h.target, hds.package_eq hd]
  exact hds

/-- The files determine the node of a target. -/
theorem Declares.unique (ha : ctx.Declares files a) (hb : ctx.Declares files b)
    (htarget : a.target = b.target) : a = b := by
  obtain ⟨ds, d, hds, hd, hreads⟩ := ha
  obtain ⟨others, e, hothers, he, hreads'⟩ := hb
  rw [htarget] at hds
  obtain rfl := hds.unique hothers
  have hsame : d.target = e.target := by
    rw [← hreads.target, ← hreads'.target, htarget]
  obtain rfl := hds.eq_of_target_eq hd he hsame
  exact hreads.unique hreads'

end Context

end Makewright
