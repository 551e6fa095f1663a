import Makewright.Proofs.Node.Outputs
import Makewright.Proofs.Node.Recipes
import Mathlib.Logic.Relation

/-!
# What the recipes of a node read

Every file that a command of a recipe names to be read is a prerequisite of the recipe
(`operands_subset`), and so is every file that the install commands copy (`installOperands_subset`).
Recipes with commands also wait for the files that the closure makes a build step wait for
(`waits_dependencyFiles`): compiling, linking and configuring at once, making a symbolic link
through the file that it points at.
-/

set_option autoImplicit false

namespace Makewright

open Relation

namespace Word

variable {made : String}

@[simp]
theorem reads?_plain (text : String) : reads? made (.plain text) = none := rfl

@[simp]
theorem reads?_flag (text : String) : reads? made (.flag text) = none := rfl

@[simp]
theorem reads?_file (r : Resource) (option : String) :
    reads? made (.file r option) = some r.fullPath := rfl

@[simp]
theorem reads?_tree (directory : String) : reads? made (.tree directory) = none := rfl

end Word

namespace Node

variable {dirs : GeneratedDirs} {node : Node} {closure : List Node} {recipes : List Recipe}
  {recipe : Recipe}

/-! ## Operands of the recipes one by one -/

theorem compileRecipe_operands (c : Compilation) (waitsFor : FileSet) (source : Resource)
    (language : Language) :
    (compileRecipe dirs c waitsFor source language).operands = [source.fullPath] := by
  cases language with
  | none => simp [compileRecipe, Recipe.operands, compileLine, makeOwnDir, List.filterMap_cons]
  | c => simp [compileRecipe, Recipe.operands, compileLine, makeOwnDir, List.filterMap_cons]
  | cxx => simp [compileRecipe, Recipe.operands, compileLine, makeOwnDir, List.filterMap_cons]

theorem linkBinary_operands (inputs : FileSet) :
    (linkBinary dirs node inputs closure).operands = inputs.paths := by
  simp [linkBinary, Recipe.operands, List.filterMap_cons, makeOwnDir, linkTail, FileSet.paths,
    Function.comp_def]

theorem linkShared_operands (spec : SharedSpec) (inputs : FileSet) :
    (linkShared dirs node spec inputs closure).operands =
      inputs.paths ++ spec.exportedSymbols.toList.map Resource.fullPath := by
  simp [linkShared, Recipe.operands, List.filterMap_cons, makeOwnDir, linkTail, FileSet.paths,
    Function.comp_def]

theorem stampRecipe_operands (spec : AutoconfSpec) :
    (node.stampRecipe dirs spec closure).operands = [] := by
  simp [stampRecipe, Recipe.operands, List.filterMap_cons, makeOwnDir, configureLine]

theorem compileRecipes_operands {c : Compilation} (h : recipe ∈ compileRecipes dirs c closure) :
    recipe.operands ⊆ recipe.prerequisites := by
  obtain ⟨⟨source, language⟩, -, rfl⟩ := List.mem_map.1 h
  intro path hpath
  rw [compileRecipe_operands, List.mem_singleton] at hpath
  rw [hpath]
  exact List.mem_cons_self

/-- A symbolic link reads the file before it, if the text that it is made with leads there. -/
theorem aliasRecipes_operands {previous : Resource} {links : List Resource}
    (hsibling : ∀ made ∈ links, ∀ r ∈ previous :: links,
      Word.reads? made.fullPath (.sibling r) = some r.fullPath)
    (h : recipe ∈ aliasRecipes previous links) : recipe.operands ⊆ recipe.prerequisites := by
  induction links generalizing previous with
  | nil => exact absurd h List.not_mem_nil
  | cons link rest ih =>
    rcases List.mem_cons.1 h with rfl | hrest
    · have hlink := hsibling link List.mem_cons_self previous List.mem_cons_self
      simp [Recipe.operands, List.filterMap_cons, hlink]
    · refine ih ?_ hrest
      intro made hmade r hr
      exact hsibling made (List.mem_cons_of_mem link hmade) r (List.mem_cons_of_mem previous hr)

/-! ## All recipes of a node -/

/-- Every file that the commands of a recipe name to be read is a prerequisite of it. -/
theorem operands_subset (h : node.recipes dirs closure = .ok recipes) (hrecipe : recipe ∈ recipes) :
    recipe.operands ⊆ recipe.prerequisites := by
  cases written_of_recipes h with
  | library hbody =>
    simp only [List.mem_append, List.mem_singleton] at hrecipe
    rcases hrecipe with hcompile | rfl
    · exact compileRecipes_operands hcompile
    · exact List.nil_subset _
  | binary hbody hlink =>
    simp only [List.mem_append, List.mem_cons, List.not_mem_nil, or_false] at hrecipe
    rcases hrecipe with hcompile | rfl | rfl
    · exact compileRecipes_operands hcompile
    · rw [linkBinary_operands]
      exact List.subset_append_left _ _
    · exact List.nil_subset _
  | sharedLibrary hbody hlink =>
    simp only [List.mem_append, List.mem_singleton] at hrecipe
    rcases hrecipe with ((hcompile | rfl) | halias) | rfl
    · exact compileRecipes_operands hcompile
    · rw [linkShared_operands, linkShared, List.append_assoc]
      refine List.append_subset.2 ⟨List.subset_append_left _ _, ?_⟩
      exact List.subset_append_of_subset_right _ (List.subset_append_right _ _)
    · apply aliasRecipes_operands ?_ halias
      intro made hmade r hr
      exact SharedSpec.reads_sibling (List.mem_cons_of_mem _ hmade) hr
    · exact List.nil_subset _
  | autoconf hbody =>
    simp only [List.mem_cons, List.not_mem_nil, or_false] at hrecipe
    rcases hrecipe with rfl | rfl
    · rw [stampRecipe_operands]
      exact List.nil_subset _
    · exact List.nil_subset _
  | listing hbody =>
    rw [List.mem_singleton.1 hrecipe]
    exact List.nil_subset _

/-- Linking an installed file to another one reads nothing that is built. -/
theorem installAliases_operands {made destination : String} {previous : Resource}
    {links : List Resource} {words : List Word}
    (h : words ∈ installAliases destination previous links) :
    words.filterMap (Word.reads? made) = [] := by
  induction links generalizing previous with
  | nil => exact absurd h List.not_mem_nil
  | cons link rest ih =>
    rcases List.mem_cons.1 h with rfl | hrest
    · rfl
    · exact ih hrest

/-- Every file that the install commands of a node copy is among those it has installed. -/
theorem installOperands_subset {made : String} {words : List Word}
    (hwords : words ∈ (node.installPart dirs).2) :
    words.filterMap (Word.reads? made) ⊆ (node.installPart dirs).1 := by
  unfold installPart at *
  cases hbody : node.body with
  | library c => simp [hbody] at hwords
  | binary c =>
    simp only [hbody] at hwords ⊢
    rcases List.mem_cons.1 hwords with rfl | hwords
    · exact List.nil_subset _
    · rw [List.mem_singleton.1 hwords]
      exact List.Subset.refl _
  | sharedLibrary c spec =>
    simp only [hbody, List.cons_append, List.nil_append, List.mem_cons] at hwords ⊢
    rcases hwords with rfl | rfl | halias
    · exact List.nil_subset _
    · refine List.cons_subset.2 ⟨?_, List.nil_subset _⟩
      exact List.mem_cons_self
    · rw [installAliases_operands halias]
      exact List.nil_subset _
  | autoconf spec => simp [hbody] at hwords
  | listing prerequisites => simp [hbody] at hwords

/-! ## Waiting for the closure -/

section Waiting

variable {R : String → String → Prop} {path : String}

/-- Through the links before it, a symbolic link waits for the file at the end of the chain. -/
theorem aliasRecipes_waits {previous : Resource} {links : List Resource}
    (hR : ∀ recipe ∈ aliasRecipes previous links, ∀ name ∈ recipe.prerequisites,
      R recipe.target name)
    (h : recipe ∈ aliasRecipes previous links) : TransGen R recipe.target previous.fullPath := by
  induction links generalizing previous with
  | nil => exact absurd h List.not_mem_nil
  | cons link rest ih =>
    have hlink : R link.fullPath previous.fullPath :=
      hR _ List.mem_cons_self previous.fullPath List.mem_cons_self
    rcases List.mem_cons.1 h with rfl | hrest
    · exact .single hlink
    · have hchain := ih (fun other hother => hR other (List.mem_cons_of_mem _ hother)) hrest
      exact hchain.tail hlink

theorem compileRecipes_waits {c : Compilation}
    (hpath : path ∈ (collectDependencyFiles dirs closure).paths)
    (h : recipe ∈ compileRecipes dirs c closure) : path ∈ recipe.prerequisites := by
  obtain ⟨⟨source, language⟩, -, rfl⟩ := List.mem_map.1 h
  exact List.mem_append_right _ hpath

/-- Every recipe with commands waits for the files that the closure makes a build step wait for. -/
theorem waits_dependencyFiles (h : node.recipes dirs closure = .ok recipes)
    (hR : ∀ recipe ∈ recipes, ∀ name ∈ recipe.prerequisites, R recipe.target name)
    (hpath : path ∈ (collectDependencyFiles dirs closure).paths) (hrecipe : recipe ∈ recipes)
    (hlines : recipe.lines ≠ []) : TransGen R recipe.target path := by
  have hwaits : path ∈ recipe.prerequisites → TransGen R recipe.target path :=
    fun hname => .single (hR recipe hrecipe path hname)
  cases written_of_recipes h with
  | library hbody =>
    simp only [List.mem_append, List.mem_singleton] at hrecipe
    rcases hrecipe with hcompile | rfl
    · exact hwaits (compileRecipes_waits hpath hcompile)
    · exact absurd rfl hlines
  | binary hbody hlink =>
    simp only [List.mem_append, List.mem_cons, List.not_mem_nil, or_false] at hrecipe
    rcases hrecipe with hcompile | rfl | rfl
    · exact hwaits (compileRecipes_waits hpath hcompile)
    · exact hwaits (List.mem_append_right _ hpath)
    · exact absurd rfl hlines
  | @sharedLibrary c spec inputs hbody hlink =>
    have hlinked : R (spec.linked dirs node.target).fullPath path := by
      apply hR (node.linkShared dirs spec inputs closure)
      · simp
      · exact List.mem_append_left _ (List.mem_append_right _ hpath)
    simp only [List.mem_append, List.mem_singleton] at hrecipe
    rcases hrecipe with ((hcompile | rfl) | halias) | rfl
    · exact hwaits (compileRecipes_waits hpath hcompile)
    · exact .single hlinked
    · -- the links wait for the linked file, and that one waits for the closure
      refine (aliasRecipes_waits ?_ halias).tail hlinked
      intro other hother
      exact hR other (by simp [hother])
    · exact absurd rfl hlines
  | autoconf hbody =>
    simp only [List.mem_cons, List.not_mem_nil, or_false] at hrecipe
    rcases hrecipe with rfl | rfl
    · exact hwaits hpath
    · exact absurd rfl hlines
  | listing hbody =>
    cases List.mem_singleton.1 hrecipe
    exact absurd rfl hlines

end Waiting

end Node

end Makewright
