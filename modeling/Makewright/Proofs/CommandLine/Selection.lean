import Makewright.CommandLine.Run
import Makewright.Proofs.Generation.Contribution
import Makewright.Proofs.Graph.Packages
import Makewright.Proofs.Graph.Termination

/-!
# What the command line selects

The targets of a selection are read as references, so their packages are in normal form. A package
that is asked for directly loses its outer slashes only. As long as these packages are in normal
form too, a package goes by one name in everything that is loaded (`load_selected`): its build file
lies below the root of the workspace, and no other package has the same one. A package that is
spelled differently is loaded once more, under that spelling (`load_selected_twice`).
-/

set_option autoImplicit false

namespace Makewright

open Makewright.Path

variable {ctx : Context} {session later : Session} {roots : List Target} {packages : List String}
  {g : Graph}

namespace BuildFile

variable {files : FileTree} {root : Location} {package other : String} {l : Location}

/-- The build file of a tidy package lies below the root of the workspace. -/
theorem below_root_of_find (hpackage : IsTidy package.toList)
    (h : find files root package = .ok (some l)) :
    ∃ rest, rest ≠ [] ∧ l.settled = root.settled ++ rest := by
  obtain ⟨name, hplace⟩ := settled_of_find hpackage h
  refine ⟨(components package.toList).map String.ofList ++ [name], by simp, ?_⟩
  rw [hplace, List.append_assoc]

/-- Tidy packages with one build file are the same. -/
theorem eq_of_find (hpackage : IsTidy package.toList) (hother : IsTidy other.toList)
    {l' : Location} (h : find files root package = .ok (some l))
    (h' : find files root other = .ok (some l')) (hplace : l.settled = l'.settled) :
    package = other := by
  obtain ⟨name, hfirst⟩ := settled_of_find hpackage h
  obtain ⟨name', hsecond⟩ := settled_of_find hother h'
  rw [hfirst, hsecond] at hplace
  have hdirectory := (List.append_inj' hplace rfl).1
  have hparts := List.append_cancel_left hdirectory
  have hsame := List.map_injective_iff.2 (fun _ _ => String.ofList_injective) hparts
  rw [← String.toList_inj, hpackage.eq_intercalate, hother.eq_intercalate, hsame]

end BuildFile

namespace Loading

/-- Asking for a target loads exactly what asking for its package loads, unless the package has no
such target. -/
theorem load_root_eq (ctx : Context) (t : Target) (loading : Loading) :
    load ctx [t] [] loading = load ctx [] [t.package] loading ∨
      ∃ between, load ctx [t] [] loading = .error (.config .notInPackage (some t) none) between ∧
        t ∉ between.graph.targets := by
  -- both loads start with the package, which is missing for the same reason
  have hpackages : loadPackages ctx [t.package] [] [] = (do
      let further ← loadPackage ctx t.package none
      pure ([t.package], further)) := by
    rw [loadPackages, if_neg List.not_mem_nil]
    rfl
  have hround : round ctx [] [⟨none, t⟩] = (do
      let further ← loadPackage ctx t.package none
      answer ⟨none, t⟩
      pure (some ([t.package], further))) := by
    rw [round, answerLoaded, if_neg List.not_mem_nil, pure_bind]
    rfl
  have hroot : ∀ {r}, Drains ctx [] [⟨none, t⟩] loading r → load ctx [t] [] loading = r :=
    fun hdrains => (loads_load ctx [t] [] loading).unique (.drained rfl hdrains)
  cases hload : loadPackage ctx t.package none loading with
  | error e between =>
    left
    rw [hroot (.failed (by rw [hround, Stateful.bind_of_error hload]))]
    symm
    apply (loads_load ctx [] [t.package] loading).unique
    exact .failed (by rw [hpackages, Stateful.bind_of_error hload])
  | ok further between =>
    by_cases hthere : between.graph.contains t
    · left
      have hanswer : answer ⟨none, t⟩ between = .ok () between := by
        change (if !between.graph.contains t then _ else _ : LoadM Unit) between = _
        rw [if_neg (by simp [hthere])]
        rfl
      have hfirst : round ctx [] [⟨none, t⟩] loading = .ok (some ([t.package], further)) between := by
        rw [hround, Stateful.bind_of_ok hload, Stateful.bind_of_ok hanswer]
        rfl
      have hasked : loadPackages ctx [t.package] [] [] loading =
          .ok ([t.package], further) between := by
        rw [hpackages, Stateful.bind_of_ok hload]
        rfl
      have hloads := loads_load ctx [] [t.package] loading
      generalize load ctx [] [t.package] loading = r at hloads ⊢
      cases hloads with
      | failed hfailed => cases hasked.symm.trans hfailed
      | drained hnext hdrains =>
        cases hasked.symm.trans hnext
        rw [List.map_nil, List.append_nil] at hdrains
        exact hroot (.again hfirst hdrains)
    · right
      have hanswer : answer ⟨none, t⟩ between =
          .error (.config .notInPackage (some t) none) between := by
        change (if !between.graph.contains t then _ else _ : LoadM Unit) between = _
        rw [if_pos (by simp [hthere])]
        rfl
      refine ⟨between, hroot (.failed ?_), fun hmem => hthere (contains_iff.2 hmem)⟩
      rw [hround, Stateful.bind_of_ok hload, Stateful.bind_of_error hanswer]

end Loading

namespace CommandLine

open Loading hiding IsTidy

/-- If the packages that a command line asks for are tidy, then so are all packages of what is
loaded: the package of a node is a path in normal form that stays inside the workspace. Every build
file that is read lies below the root of the workspace and is that of one package only. A target
that is asked for loads what its package loads, unless the package has no such target. -/
theorem load_selected {args : Arguments} (hselection : selection args = .ok (roots, packages))
    (hpackages : ∀ package ∈ packages, IsTidy package.toList) (hfresh : session.packages = [])
    (hload : load ctx roots packages ⟨.empty, session⟩ = .ok () ⟨g, later⟩) :
    (∀ node ∈ g.nodes, StaysInside node.target.package ∧
      (node.target.package ≠ "" → Path.normalize node.target.package = node.target.package)) ∧
    (∀ package ∈ later.packages.map Prod.fst, ∀ files l,
      BuildFile.find files ctx.workspace.root package = .ok (some l) →
        (∃ rest, rest ≠ [] ∧ l.settled = ctx.workspace.root.settled ++ rest) ∧
        ∀ other ∈ later.packages.map Prod.fst, ∀ l',
          BuildFile.find files ctx.workspace.root other = .ok (some l') →
            l.settled = l'.settled → package = other) ∧
    ∀ reference t, Target.parse reference "" = .ok t →
      load ctx [t] [] ⟨.empty, session⟩ = load ctx [] [t.package] ⟨.empty, session⟩ ∨
        ∃ between, load ctx [t] [] ⟨.empty, session⟩ =
          .error (.config .notInPackage (some t) none) between ∧ t ∉ between.graph.targets := by
  -- references lead to tidy packages
  have hroots : ∀ root ∈ roots, IsTidy root.package.toList := by
    obtain ⟨found, hfound, hselection⟩ := exists_of_bind_eq_ok hselection
    cases hselection
    intro root hroot
    obtain ⟨reference, -, hparse⟩ := exists_of_mem_mapM hfound hroot
    cases hresult : Target.parse reference "" with
    | error e => simp [hresult] at hparse
    | ok target =>
      simp only [hresult, Except.ok.injEq] at hparse
      exact hparse ▸ Target.isTidy_parse hresult
  have htidy : Loading.IsTidy ctx ⟨g, later⟩ :=
    (load_tidy ctx ⟨hroots, hpackages⟩ hfresh).ok hload
  -- so the load asks for tidy packages only
  have hasked : ∀ package ∈ later.packages.map Prod.fst, Path.IsTidy package.toList := by
    intro package hpackage
    obtain ⟨entry, hentry, rfl⟩ := List.mem_map.1 hpackage
    exact htidy.asked entry hentry
  refine ⟨?_, ?_, fun _ t _ => load_root_eq ctx t _⟩
  · intro node hnode
    have hpackage := (htidy.confined node hnode).package
    exact ⟨hpackage.staysInside, hpackage.normalize_eq⟩
  · intro package hpackage files l hfind
    refine ⟨BuildFile.below_root_of_find (hasked package hpackage) hfind, ?_⟩
    intro other hother l' hfind' hplace
    exact BuildFile.eq_of_find (hasked package hpackage) (hasked other hother) hfind hfind' hplace

/-- Arguments that ask for the executable of the sample and for the package of its library. -/
def sampleArguments : Arguments := ⟨".", none, false, .list, ["//:draw"], ["/shapes/"]⟩

/-- The library of the sample is loaded under one name, as a dependency and by its package. -/
theorem load_selected_sample :
    ∃ g later, selection sampleArguments = .ok ([⟨"", "draw"⟩], ["shapes"]) ∧
      load sampleContext [⟨"", "draw"⟩] ["shapes"] ⟨.empty, .new Context.sampleDisk []⟩ =
        .ok () ⟨g, later⟩ ∧
      (∀ node ∈ g.nodes, StaysInside node.target.package ∧
        (node.target.package ≠ "" → Path.normalize node.target.package = node.target.package)) ∧
      g.targets = [⟨"shapes", "area"⟩, ⟨"", "draw"⟩] := by
  have hselection : selection sampleArguments = .ok ([⟨"", "draw"⟩], ["shapes"]) := rfl
  have hpackages : ∀ package ∈ ["shapes"], Path.IsTidy package.toList := by
    have hplain : IsPlain "shapes".toList := .of_mark (by decide) (c := 's') (by decide) (by decide)
    exact List.forall_mem_singleton.2 hplain.isTidy
  have hchecked : Stateful.passes (load sampleContext [⟨"", "draw"⟩] ["shapes"])
      ⟨.empty, .new Context.sampleDisk []⟩
      (fun after => decide (after.graph.targets = [⟨"shapes", "area"⟩, ⟨"", "draw"⟩])) = true := by
    decide +kernel
  obtain ⟨⟨⟩, ⟨g, later⟩, hload, htargets⟩ := Stateful.exists_of_passes hchecked
  obtain ⟨hnodes, -, -⟩ := load_selected hselection hpackages rfl hload
  exact ⟨g, later, hselection, hload, hnodes, of_decide_eq_true htargets⟩

/-- Arguments that ask for the package of the library twice, in two spellings. -/
def respelledArguments : Arguments := ⟨".", none, false, .list, [], ["shapes", "./shapes"]⟩

/-- A package in another spelling is loaded once more: two targets come from one build file, though
a reference gives both packages the same name. -/
theorem load_selected_twice :
    ∃ g later, selection respelledArguments = .ok ([], ["shapes", "./shapes"]) ∧
      load sampleContext [] ["shapes", "./shapes"] ⟨.empty, .new Context.sampleDisk []⟩ =
        .ok () ⟨g, later⟩ ∧
      g.targets = [⟨"shapes", "area"⟩, ⟨"./shapes", "area"⟩] ∧
      Target.parse "//./shapes:area" "" = .ok ⟨"shapes", "area"⟩ ∧
      Path.normalize "./shapes" = "shapes" ∧
      BuildFile.directory sampleContext.workspace.root "./shapes" =
        BuildFile.directory sampleContext.workspace.root "shapes" := by
  have hchecked : Stateful.passes (load sampleContext [] ["shapes", "./shapes"])
      ⟨.empty, .new Context.sampleDisk []⟩ (fun after =>
        decide (after.graph.targets = [⟨"shapes", "area"⟩, ⟨"./shapes", "area"⟩])) = true := by
    decide +kernel
  obtain ⟨⟨⟩, ⟨g, later⟩, hload, htargets⟩ := Stateful.exists_of_passes hchecked
  exact ⟨g, later, rfl, hload, of_decide_eq_true htargets, rfl, by decide, by decide⟩

end CommandLine

end Makewright
