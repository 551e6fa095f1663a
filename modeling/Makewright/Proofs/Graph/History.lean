import Makewright.Proofs.Generation.Footprint
import Makewright.Proofs.Graph.Coherent
import Makewright.Proofs.Graph.Loading

/-!
# Histories of a graph

A graph may be used in any way: descriptions are added to it, selections are loaded, it is resolved
and asked, and between the calls files and what is known of packages may change as they like. Calls
that fail are part of such a history (`Loading.after`), as what they have done before they fail
stays.

No history makes a graph answer from a walk over nodes that it had before: it is coherent at any
time, as each call keeps that, and so it answers as a new graph with its nodes does
(`Loading.NeverStale`).
-/

set_option autoImplicit false

namespace Makewright

namespace Loading

/-- Ask the graph for everything that a target depends on. -/
def closureOf (target : Target) : LoadM (List Node) := do
  let loading ← get
  let (outcome, graph) := loading.graph.dependenciesOf target
  set { loading with graph }
  lift outcome

/-- A use of the graph, or a change around it. -/
inductive Call
  | add (d : Description)
  | load (roots : List Target) (packages : List String)
  | resolve
  | ask (target : Target)
  | turn (session : Session)

/-- What a call does. -/
def Call.run (ctx : Context) : Call → LoadM Unit
  | .add d => do
    let _ ← Loading.add ctx d
  | .load roots packages => Loading.load ctx roots packages
  | .resolve => do
    let _ ← Loading.resolve
  | .ask target => do
    let _ ← closureOf target
  | .turn session => modify fun loading => { loading with session }

/-- Where some calls lead, each of which may fail. -/
def after (ctx : Context) (calls : List Call) (loading : Loading) : Loading :=
  calls.foldl (fun loading call => Stateful.stateAfter (call.run ctx) loading) loading

variable {ctx : Context} {d : Description}

/-! ## What a history keeps -/

/-- An invariant of the graph that new nodes keep is an invariant of loading. -/
theorem lasting_of_graph (inv : Graph → Prop) (h : ∀ g node, inv g → inv (g.declare node)) :
    Lasting ctx fun loading => inv loading.graph where
  spares _ _ _ _ hg := hg
  describePackage _ := inPass_keeps fun g => .const (inv g) _
  declare loading node := h loading.graph node

/-- A step that puts a question to the graph, goes on with the graph that the question leaves and
ends with the answer. -/
theorem settling_keeps {α : Type} {inv : Graph → Prop}
    (question : Graph → Except BuildError α × Graph) (h : ∀ g, inv g → inv (question g).2) :
    Keeps (fun loading => inv loading.graph)
      (do
        let loading ← get
        let (outcome, graph) := question loading.graph
        set { loading with graph }
        lift outcome : LoadM α) := by
  refine .get_bind fun loading hloading => ?_
  have hset : Leads (fun _ after => inv after.graph) (fun after => inv after.graph)
      (set { loading with graph := (question loading.graph).2 } : LoadM Unit) loading :=
    .modify (h _ hloading)
  exact hset.seq (fun _ hbad => hbad) fun _ between hbetween => lift_keeps _ between hbetween

/-- An invariant of the graph is kept by every call if new nodes, resolving and asking keep it. -/
theorem Call.run_keeps (inv : Graph → Prop) (hdeclare : ∀ g node, inv g → inv (g.declare node))
    (hresolve : ∀ g, inv g → inv g.resolve.2) (hask : ∀ g t, inv g → inv (g.dependenciesOf t).2)
    (call : Call) : Keeps (fun loading => inv loading.graph) (call.run ctx) := by
  have hlasting : Lasting ctx fun loading => inv loading.graph := lasting_of_graph inv hdeclare
  cases call with
  | add d => exact .bind (hlasting.add d) fun _ => .pure _
  | load roots packages => exact hlasting.load roots packages
  | resolve => exact .bind (settling_keeps Graph.resolve hresolve) fun _ => .pure _
  | ask target =>
    exact .bind (settling_keeps (fun g => g.dependenciesOf target) fun g => hask g target)
      fun _ => .pure _
  | turn session => exact .modify fun _ hg => hg

/-- Whatever is done with a graph, it stays coherent. -/
theorem coherent_after (calls : List Call) {loading : Loading} (h : loading.graph.Coherent) :
    (after ctx calls loading).graph.Coherent := by
  induction calls generalizing loading with
  | nil => exact h
  | cons call rest ih =>
    have hkeeps : Keeps (fun loading => loading.graph.Coherent) (call.run ctx) :=
      call.run_keeps Graph.Coherent (fun _ node hg => hg.declare node) (fun _ hg => hg.resolve)
        fun _ t hg => hg.dependenciesOf t
    exact ih (hkeeps.stateAfter h)

/-! ## A description that is refused -/

/-- Reading a node changes nothing if sources are fetched from a local directory. -/
theorem readNode_keeps_of_local {inv : Loading → Prop} (hlocal : ctx.FetchesLocally)
    (d : Description) : Keeps inv (readNode ctx d) := by
  refine .bind (lift_keeps _) fun nodeClass => .bind (lift_keeps _) fun reading => ?_
  cases reading with
  | complete node => exact .pure _
  | awaiting identifier finish =>
    refine .map _ ?_
    unfold fetchFor
    cases hfetcher : ctx.fetcher with
    | none => exact .throw _
    | some fetcher =>
      obtain ⟨base, rfl⟩ := hlocal fetcher hfetcher
      refine .bind (.tryCatch (inPass_keeps fun g => ?_) fun e => .throw _) fun _ => .pure _
      refine .bind (Pass.onFiles_keeps _) fun found => ?_
      split_ifs
      · exact .pure _
      · exact .throw _

/-- Adding a description fails only before anything is done with its node, so it ends where reading
the node has failed. -/
theorem keeps_of_add_eq_error (inv : Loading → Prop) (hread : Keeps inv (readNode ctx d))
    {loading later : Loading} {e : BuildError} (h : add ctx d loading = .error e later)
    (hloading : inv loading) : inv later := by
  replace h := Stateful.error_of_get_bind h
  split_ifs at h with hcontains
  · cases h
    exact hloading
  · rcases Stateful.error_of_bind h with hfails | ⟨node, between, hnode, hrest⟩
    · exact (hread loading hloading).error hfails
    · -- what follows are a message and the declaration, and neither fails
      cases hrest

/-- A description that is refused leaves the graph as it was, and everything else unless the sources
were to be fetched from elsewhere. -/
theorem unchanged_of_add_eq_error {loading later : Loading} {e : BuildError}
    (h : add ctx d loading = .error e later) :
    later.graph = loading.graph ∧ (ctx.FetchesLocally → later = loading) := by
  constructor
  · have hspares : Spares ctx fun l => l.graph = loading.graph := fun _ _ _ _ hg => hg
    exact keeps_of_add_eq_error _ (readNode_keeps hspares d) h rfl
  · intro hlocal
    exact keeps_of_add_eq_error (· = loading) (readNode_keeps_of_local hlocal d) h rfl

/-! ## Results -/

/-- The graph answers as a new graph with the same nodes would that is resolved first: with the same
closure, with the error of resolving, or by saying that it has no such target. A description that is
refused does not matter to the graph, and to nothing else if sources are fetched from a local
directory. -/
structure NeverStale (ctx : Context) (loading : Loading) : Prop where
  same_nodes : loading.graph.afresh.nodes = loading.graph.nodes
  same_answer : ∀ t, (loading.graph.dependenciesOf t).1 =
    loading.graph.afresh.closureAfterResolving t
  same_error : ∀ e, loading.graph.afresh.resolve.1 = .error e →
    ∀ t, (loading.graph.dependenciesOf t).1 = .error e
  unknown : ∀ nodes, loading.graph.afresh.resolve.1 = .ok nodes →
    ∀ t, t ∉ loading.graph.targets → (loading.graph.dependenciesOf t).1 = .error .unknownName
  refused : ∀ d e later, add ctx d loading = .error e later →
    later.graph = loading.graph ∧ (ctx.FetchesLocally → later = loading)

theorem neverStale_of_coherent {loading : Loading} (h : loading.graph.Coherent) :
    NeverStale ctx loading := by
  have hwalked := loading.graph.declarations_afresh
  refine ⟨?_, h.dependenciesOf_eq_afresh, ?_, ?_, fun _ _ _ => unchanged_of_add_eq_error⟩
  · rw [Graph.afresh_eq]
  · intro e he t
    rcases loading.graph.afresh.resolve_cases with ⟨r, -, hresolve⟩ | ⟨e', hwalk, hresolve⟩
    · rw [hresolve] at he
      cases he
    · rw [hresolve] at he
      cases he
      rw [h.dependenciesOf_of_error (hwalked ▸ hwalk)]
  · intro nodes hnodes t ht
    rcases loading.graph.afresh.resolve_cases with ⟨r, hwalk, -⟩ | ⟨e, -, hresolve⟩
    · rw [hwalked] at hwalk
      rw [h.dependenciesOf_of_walk hwalk, Graph.answerFrom_of_not_mem hwalk ht]
    · rw [hresolve] at hnodes
      cases hnodes

/-- A graph that is empty at first never answers from what it has been. -/
theorem after_neverStale (ctx : Context) (session : Session) (calls : List Call) :
    NeverStale ctx (after ctx calls ⟨.empty, session⟩) :=
  neverStale_of_coherent (coherent_after calls Graph.coherent_empty)

end Loading

end Makewright
