import Makewright.Proofs.Node.Lines

/-!
# Nodes with plain names

A node is `Plain` if its names, paths and flags mean nothing to make or to a shell. Everything that
such a node names is plain then (`Node.Plain.named`), and its rules can be read back
(`Node.Plain.legible`).
-/

set_option autoImplicit false

namespace Makewright

open Make

variable {dirs : GeneratedDirs} {node : Node}

/-- Sources and headers have plain names, and make hands on the flags as they are. -/
structure Compilation.Plain (c : Compilation) : Prop where
  files : ∀ path ∈ c.inputFiles, IsFileName path
  flags : ∀ flag ∈ c.cflags ++ c.cxxflags, IsLiteral flag

/-- Make hands on the arguments and the environment as they are. -/
structure AutoconfSpec.Plain (spec : AutoconfSpec) : Prop where
  flags : ∀ flag ∈ spec.configureArgs ++ spec.makeTargets, IsLiteral flag
  environment : ∀ entry ∈ spec.configureEnv,
    Shell.isName entry.1.toList = true ∧ IsLiteral entry.2
  sourceDir : ∀ c ∈ spec.sourceDir.toList, isInert c = true

/-- Nothing that a body names means anything to make. -/
def Body.Plain : Body → Prop
  | .library c | .binary c => c.Plain
  | .sharedLibrary c spec => c.Plain ∧ ∀ r ∈ spec.exportedSymbols, IsFileName r.fullPath
  | .autoconf spec => spec.Plain
  | .listing prerequisites => ∀ name ∈ prerequisites, IsFileName name

/-- Nothing that a node names means anything to make. -/
structure Node.Plain (node : Node) : Prop where
  package : ∀ c ∈ node.target.package.toList, isPlain c = true
  name : IsFileName node.target.name
  ldflags : ∀ flag ∈ node.ldflags, IsLiteral flag
  body : node.body.Plain

instance (c : Compilation) : Decidable c.Plain :=
  decidable_of_iff ((∀ path ∈ c.inputFiles, IsFileName path) ∧
      ∀ flag ∈ c.cflags ++ c.cxxflags, IsLiteral flag)
    ⟨fun h => ⟨h.1, h.2⟩, fun h => ⟨h.1, h.2⟩⟩

instance (spec : AutoconfSpec) : Decidable spec.Plain :=
  decidable_of_iff ((∀ flag ∈ spec.configureArgs ++ spec.makeTargets, IsLiteral flag) ∧
      (∀ entry ∈ spec.configureEnv, Shell.isName entry.1.toList = true ∧ IsLiteral entry.2) ∧
      ∀ c ∈ spec.sourceDir.toList, isInert c = true)
    ⟨fun h => ⟨h.1, h.2.1, h.2.2⟩, fun h => ⟨h.1, h.2, h.3⟩⟩

instance : (body : Body) → Decidable body.Plain
  | .library c | .binary c => inferInstanceAs (Decidable c.Plain)
  | .sharedLibrary c spec =>
    inferInstanceAs (Decidable (c.Plain ∧ ∀ r ∈ spec.exportedSymbols, IsFileName r.fullPath))
  | .autoconf spec => inferInstanceAs (Decidable spec.Plain)
  | .listing prerequisites => inferInstanceAs (Decidable (∀ name ∈ prerequisites, IsFileName name))

instance (node : Node) : Decidable node.Plain :=
  decidable_of_iff ((∀ c ∈ node.target.package.toList, isPlain c = true) ∧
      IsFileName node.target.name ∧ (∀ flag ∈ node.ldflags, IsLiteral flag) ∧ node.body.Plain)
    ⟨fun h => ⟨h.1, h.2.1, h.2.2.1, h.2.2.2⟩, fun h => ⟨h.1, h.2, h.3, h.4⟩⟩

namespace Node.Plain

/-- The files that the rules of the node read have plain names. -/
theorem named (h : node.Plain) : node.Named isPlain := by
  refine ⟨h.package, h.name, ?_⟩
  have hplain := h.body
  unfold Node.inputFiles
  cases hbody : node.body with
  | library c | binary c =>
    rw [hbody] at hplain
    exact hplain.files
  | sharedLibrary c spec =>
    rw [hbody] at hplain
    intro path hpath
    rcases List.mem_append.1 hpath with hpath | hpath
    · exact hplain.1.files path hpath
    · obtain ⟨r, hr, rfl⟩ := List.mem_map.1 hpath
      exact hplain.2 r (Option.mem_toList.1 hr)
  | autoconf spec | listing prerequisites => simp

/-- The rules of the node can be read back. -/
theorem legible (h : node.Plain) : node.Legible := by
  refine ⟨h.named.mono fun _ => isVerbatim_of_isPlain, ?_⟩
  rw [List.forall_mem_append]
  refine ⟨fun flag hflag => (h.ldflags flag hflag).unbroken, ?_⟩
  have hplain := h.body
  cases hbody : node.body with
  | library c | binary c =>
    rw [hbody] at hplain
    exact fun flag hflag => (hplain.flags flag hflag).unbroken
  | sharedLibrary c spec =>
    rw [hbody] at hplain
    exact fun flag hflag => (hplain.1.flags flag hflag).unbroken
  | autoconf spec =>
    rw [hbody] at hplain
    simp only [Body.texts, List.forall_mem_append, List.forall_mem_cons]
    refine ⟨⟨⟨?_, ?_⟩, ?_⟩, ?_⟩
    · intro hmem
      exact ne_of_isInert (hplain.sourceDir _ hmem) (by decide) rfl
    · exact fun flag hflag => (hplain.flags flag (List.mem_append_left _ hflag)).unbroken
    · exact fun flag hflag => (hplain.flags flag (List.mem_append_right _ hflag)).unbroken
    · intro text htext
      obtain ⟨setting, hsetting, htext⟩ := List.mem_flatMap.1 htext
      obtain ⟨hname, hvalue⟩ := hplain.environment setting hsetting
      simp only [List.mem_cons, List.not_mem_nil, or_false] at htext
      rcases htext with rfl | rfl
      · exact Shell.not_mem_name hname rfl
      · exact hvalue.unbroken
  | listing prerequisites => simp [Body.texts]

end Node.Plain

end Makewright
