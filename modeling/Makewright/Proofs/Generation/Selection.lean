import Makewright.Proofs.Generation.Rendering

/-!
# The Makefile of a selection

A selection of roots and packages makes a Makefile in two steps: it loads a graph, and the Makefile
is that of the graph (`Context.Makes`). Generating gives a text exactly if both steps succeed
(`generate_eq_ok_iff`).
-/

set_option autoImplicit false

namespace Makewright.Context

open Makefile

variable {ctx : Context} {session : Session} {roots : List Target} {packages : List String}

/-- The selection loads the graph `g`, whose Makefile is `m`; the graph is then `settled`. -/
structure Makes (ctx : Context) (session : Session) (roots : List Target) (packages : List String)
    (g : Graph) (m : Makefile) (settled : Graph) : Prop where
  loads : ∃ later, Loading.load ctx roots packages ⟨.empty, session⟩ = .ok () ⟨g, later⟩
  made : ofGraph ctx g = (.ok m, settled)

/-- Generating gives a text exactly if the selection makes a Makefile, and the text is that of the
Makefile. -/
theorem generate_eq_ok_iff {text : String} :
    (∃ after, ctx.generate roots packages session = .ok text after) ↔
      ∃ g m settled, ctx.Makes session roots packages g m settled ∧ text = m.serialize := by
  have hgenerate : ctx.generate roots packages session =
      Loading.afresh
        (Loading.load ctx roots packages >>= fun _ => Loading.render ctx) session := rfl
  rw [hgenerate]
  simp only [Loading.afresh, bind, EStateM.bind]
  -- a load that fails makes nothing
  cases hload : Loading.load ctx roots packages ⟨.empty, session⟩ with
  | error e loading =>
    constructor
    · rintro ⟨after, h⟩
      cases h
    · rintro ⟨g, m, settled, ⟨⟨later, h⟩, -⟩, -⟩
      rw [hload] at h
      cases h
  | ok _ loading =>
    constructor
    · rintro ⟨after, h⟩
      cases hrender : Loading.render ctx loading with
      | error e rendered =>
        simp only [hrender] at h
        cases h
      | ok made rendered =>
        simp only [hrender, EStateM.Result.ok.injEq] at h
        obtain ⟨m, hmade, hmtext⟩ := Loading.made_of_render hrender
        exact ⟨loading.graph, m, rendered.graph, ⟨⟨loading.session, hload⟩, hmade⟩,
          h.1.symm.trans hmtext⟩
    · rintro ⟨g, m, settled, ⟨⟨later, h⟩, hmade⟩, rfl⟩
      rw [hload, EStateM.Result.ok.injEq] at h
      obtain ⟨-, rfl⟩ := h
      have hok : ∃ rendered, Loading.render ctx ⟨g, later⟩ = .ok m.serialize rendered ∧
          rendered.graph = settled := Loading.render_of_ok hmade
      obtain ⟨rendered, hrender, -⟩ := hok
      simp only [hrender]
      exact ⟨_, rfl⟩

/-- What a check of the graph and of the Makefile of a selection says; no if there are none. -/
def checkMade (ctx : Context) (session : Session) (roots : List Target) (packages : List String)
    (check : Graph → Makefile → Bool) : Bool :=
  match Loading.load ctx roots packages ⟨.empty, session⟩ with
  | .ok _ loading =>
    match ofGraph ctx loading.graph with
    | (.ok m, _) => check loading.graph m
    | _ => false
  | .error _ _ => false

/-- A selection that passes a check makes a Makefile. -/
theorem exists_makes_of_check {check : Graph → Makefile → Bool}
    (h : ctx.checkMade session roots packages check = true) : ∃ g later m settled,
      Loading.load ctx roots packages ⟨.empty, session⟩ = .ok () ⟨g, later⟩ ∧
      ctx.Makes session roots packages g m settled ∧ check g m = true := by
  unfold checkMade at h
  cases hload : Loading.load ctx roots packages ⟨.empty, session⟩ with
  | error e loading => simp [hload] at h
  | ok _ loading =>
    rcases hmade : ofGraph ctx loading.graph with ⟨outcome, settled⟩
    cases outcome with
    | error e => simp [hload, hmade] at h
    | ok m =>
      simp only [hload, hmade] at h
      exact ⟨loading.graph, loading.session, m, settled, rfl, ⟨⟨_, hload⟩, hmade⟩, h⟩

end Makewright.Context
