import Makewright.Proofs.Agreement
import Makewright.Proofs.Generation.Contribution
import Makewright.Proofs.Graph.Termination

/-!
# Passes one after the other

The passes of one program share what is known of packages. Packages that have no build file are
known as well, and a pass that fails leaves what it has found out until then. None of this can be
told from what a pass gives, as long as the files stay: all that is ever known of a package is what
its build file says now (`Context.Current`), and two runs of a pass from sessions of which this is
true end alike (`Context.generate_agrees`). Nothing else lasts from one pass to the next, as each
loads a graph of its own.
-/

set_option autoImplicit false

namespace Makewright

open Stateful

namespace Context

/-- The session has this disk, and what it knows of packages is what their build files on the disk
say. -/
structure Current (ctx : Context) (disk : Disk) (s : Session) : Prop where
  disk_eq : s.disk = disk
  read_eq : ∀ package found, s.packages.lookup package = some found →
    BuildFile.read disk.files ctx.workspace.root package = .ok found

/-- Two sessions of which this is true. -/
def BothCurrent (ctx : Context) (disk : Disk) (s t : Session) : Prop :=
  ctx.Current disk s ∧ ctx.Current disk t

/-- The description is read without asking for sources, or they are looked up in a directory. -/
def ReadsOffline (ctx : Context) (d : Description) : Prop :=
  ctx.FetchesLocally ∨
    ∀ nodeClass identifier finish, ctx.registry.find d.kind (some d.target) = .ok nodeClass →
      nodeClass.read ctx.workspace.settings d ≠ .ok (.awaiting identifier finish)

/-- No target of the workspace has sources that would have to be fetched from elsewhere. -/
def WorksOffline (ctx : Context) (disk : Disk) : Prop :=
  ∀ package ds, ctx.Describes disk.files package ds → ∀ d ∈ ds, ctx.ReadsOffline d

variable {ctx : Context} {disk : Disk} {s t : Session}

theorem current_new (ctx : Context) (disk : Disk) (script : List Reply) :
    ctx.Current disk (.new disk script) :=
  ⟨rfl, nofun⟩

theorem Current.report (h : ctx.Current disk s) (level : LogLevel) (reporter : Reporter)
    (text : String) : ctx.Current disk (s.report level reporter text) :=
  { h with }

/-- What is asked of a package is what its build file says, be it known or not, and what is known
afterwards is right again. -/
theorem Current.load_eq (h : ctx.Current disk s) (package : String) :
    (∃ e, BuildFile.load s.disk.files ctx.workspace.root s.packages package = .error e ∧
      BuildFile.read disk.files ctx.workspace.root package = .error e) ∨
    ∃ found packages,
      BuildFile.load s.disk.files ctx.workspace.root s.packages package = .ok (found, packages) ∧
      BuildFile.read disk.files ctx.workspace.root package = .ok found ∧
      ctx.Current disk { s with packages } := by
  have hfiles : s.disk.files = disk.files := by rw [h.disk_eq]
  rw [hfiles]
  cases hload : BuildFile.load disk.files ctx.workspace.root s.packages package with
  | error e =>
    refine .inl ⟨e, rfl, ?_⟩
    unfold BuildFile.load at hload
    cases hlookup : s.packages.lookup package with
    | some known => simp [hlookup] at hload -- what is known is no error
    | none =>
      cases hread : BuildFile.read disk.files ctx.workspace.root package with
      | ok found => simp [hlookup, hread, Except.map] at hload
      | error e' => simpa [hlookup, hread, Except.map] using hload
  | ok answer =>
    obtain ⟨found, packages⟩ := answer
    have hafter : ctx.Current disk { s with packages } := by
      refine { h with read_eq := fun other known hknown => ?_ }
      rcases BuildFile.lookup_of_load hload hknown with hbefore | hread
      · exact h.read_eq other known hbefore
      · exact hread
    exact .inr ⟨found, packages, rfl,
      hafter.read_eq package found (BuildFile.remembers_of_load hload).1, hafter⟩

end Context

variable {ctx : Context} {disk : Disk}

/-! ## Steps of a pass -/

namespace Pass

theorem lift_alike {α : Type} {answer : Except BuildError α}
    {good : α → Session → Session → Prop} {bad : Session → Session → Prop} {s t : Session}
    (hok : ∀ a, answer = .ok a → good a s t) (hbad : bad s t) :
    Alike good bad (lift answer s) (lift answer t) := by
  cases answer with
  | ok a => exact .ok (hok a rfl)
  | error e => exact .error hbad

theorem report_agrees (level : LogLevel) (reporter : Reporter) (text : String) :
    Agrees (ctx.BothCurrent disk) (report level reporter text) :=
  .modify fun _ _ h => ⟨h.1.report level reporter text, h.2.report level reporter text⟩

/-- Both sessions have the same files. -/
theorem onFiles_agrees {α : Type} (question : FileTree → Except BuildError α) :
    Agrees (ctx.BothCurrent disk) (onFiles question) := by
  refine .get_bind fun s t h => ?_
  rw [h.1.disk_eq, h.2.disk_eq]
  exact lift_alike (fun _ _ => h) h

end Pass

theorem Fetcher.lookUp_agrees (base : Location) (identifier : String) :
    Agrees (ctx.BothCurrent disk) (lookUp base identifier) := by
  refine .bind (Pass.onFiles_agrees _) fun found => ?_
  split_ifs
  · exact .pure _
  · exact .throw _

namespace Loading

/-- Two graphs with the same nodes that are being loaded in sessions that know what the build files
say. -/
structure BothCurrent (ctx : Context) (disk : Disk) (l k : Loading) : Prop where
  same_graph : l.graph = k.graph
  sessions : ctx.BothCurrent disk l.session k.session

variable {l k : Loading} {d : Description}

theorem inPass_alike {α : Type} {step : Pass α} {good : α → Loading → Loading → Prop}
    {bad : Loading → Loading → Prop}
    (h : Alike (fun a s t => good a ⟨l.graph, s⟩ ⟨k.graph, t⟩)
      (fun s t => bad ⟨l.graph, s⟩ ⟨k.graph, t⟩) (step l.session) (step k.session)) :
    Alike good bad (inPass step l) (inPass step k) := by
  unfold inPass
  rcases h.exists_ends with ⟨a, s, t, hs, ht, hgood⟩ | ⟨e, s, t, hs, ht, hbad⟩
  · rw [hs, ht]
    exact .ok hgood
  · rw [hs, ht]
    exact .error hbad

theorem inPass_agrees {α : Type} {step : Pass α} (h : Agrees (ctx.BothCurrent disk) step) :
    Agrees (BothCurrent ctx disk) (inPass step) :=
  fun l k hlk => inPass_alike ((h l.session k.session hlk.sessions).mono
    (fun _ _ _ hst => ⟨hlk.same_graph, hst⟩) fun _ _ hst => ⟨hlk.same_graph, hst⟩)

theorem lift_alike {α : Type} {answer : Except BuildError α} {good : α → Loading → Loading → Prop}
    {bad : Loading → Loading → Prop} (hok : ∀ a, answer = .ok a → good a l k) (hbad : bad l k) :
    Alike good bad (lift answer l) (lift answer k) :=
  inPass_alike (Pass.lift_alike hok hbad)

theorem lift_agrees {α : Type} (answer : Except BuildError α) :
    Agrees (BothCurrent ctx disk) (lift answer) :=
  fun _ _ h => lift_alike (fun _ _ => h) h

theorem report_agrees (level : LogLevel) (reporter : Reporter) (text : String) :
    Agrees (BothCurrent ctx disk) (inPass (Pass.report level reporter text)) :=
  inPass_agrees (Pass.report_agrees level reporter text)

theorem fetchFor_agrees (hlocal : ctx.FetchesLocally) (d : Description) (identifier : String) :
    Agrees (BothCurrent ctx disk) (fetchFor ctx d identifier) := by
  unfold fetchFor
  cases hfetcher : ctx.fetcher with
  | none => exact .throw _
  | some fetcher =>
    obtain ⟨base, rfl⟩ := hlocal fetcher hfetcher
    refine .bind (.tryCatch ?_ fun _ => .throw _) fun _ => .pure _
    exact inPass_agrees (Fetcher.lookUp_agrees base identifier)

/-- A step that goes on with an answer, if there is one. -/
theorem lift_bind_agrees {α β : Type} {answer : Except BuildError α} {f : α → LoadM β}
    (h : ∀ a, answer = .ok a → Agrees (BothCurrent ctx disk) (f a)) :
    Agrees (BothCurrent ctx disk) (lift answer >>= f) := by
  intro l k hlk
  have hlift : Alike (fun a l k => answer = .ok a ∧ BothCurrent ctx disk l k)
      (BothCurrent ctx disk) (lift answer l) (lift answer k) :=
    lift_alike (fun _ ha => ⟨ha, hlk⟩) hlk
  exact hlift.bind fun a l k hgood => h a hgood.1 l k hgood.2

theorem readNode_agrees (hd : ctx.ReadsOffline d) :
    Agrees (BothCurrent ctx disk) (readNode ctx d) := by
  refine lift_bind_agrees fun nodeClass hfind => lift_bind_agrees fun reading hread => ?_
  cases reading with
  | complete node => exact .pure _
  | awaiting identifier finish =>
    rcases hd with hlocal | hnone
    · exact .map _ (fetchFor_agrees hlocal d identifier)
    · exact absurd hread (hnone nodeClass identifier finish hfind)

theorem add_agrees (hd : ctx.ReadsOffline d) : Agrees (BothCurrent ctx disk) (add ctx d) := by
  refine .get_bind fun l k hlk => ?_
  rw [hlk.same_graph]
  split_ifs
  · exact .throw hlk
  · refine Agrees.bind (readNode_agrees hd) (fun node => ?_) l k hlk
    refine .bind (report_agrees _ _ _) fun _ => .bind (.modify fun l k hlk => ?_) fun _ => .pure _
    exact ⟨congrArg (·.declare node) hlk.same_graph, hlk.sessions⟩

theorem addAll_agrees {ds : List Description} (hds : ∀ d ∈ ds, ctx.ReadsOffline d) :
    Agrees (BothCurrent ctx disk) (addAll ctx ds) := by
  induction ds with
  | nil => exact .pure _
  | cons d rest ih =>
    obtain ⟨hd, hrest⟩ := List.forall_mem_cons.1 hds
    refine .get_bind fun l k hlk => ?_
    rw [hlk.same_graph]
    split_ifs
    · exact ih hrest l k hlk
    · exact Agrees.bind (add_agrees hd) (fun _ => .bind (ih hrest) fun _ => .pure _) l k hlk

/-- Asking for the targets of a package gives what its build file says. -/
theorem describePackage_alike (hlk : BothCurrent ctx disk l k) (package : String) :
    Alike (fun found l k => BuildFile.read disk.files ctx.workspace.root package = .ok found ∧
        BothCurrent ctx disk l k)
      (BothCurrent ctx disk) (describePackage ctx package l) (describePackage ctx package k) := by
  refine inPass_alike (.get_bind ?_)
  obtain ⟨hleft, hright⟩ := hlk.sessions
  rcases hleft.load_eq package with ⟨e, hl, hread⟩ | ⟨found, packages, hl, hread, hafter⟩
  · rcases hright.load_eq package with ⟨e', hk, hread'⟩ | ⟨found', _, _, hread', _⟩
    · rw [hl, hk, Except.error.inj (hread.symm.trans hread')]
      exact .error hlk
    · cases hread.symm.trans hread'
  · rcases hright.load_eq package with ⟨e', _, hread'⟩ | ⟨found', more, hk, hread', hafter'⟩
    · cases hread.symm.trans hread'
    · -- the two sessions may know different packages, but agree on this one
      obtain rfl : found = found' := Except.ok.inj (hread.symm.trans hread')
      rw [hl, hk]
      exact .ok ⟨hread, hlk.same_graph, hafter, hafter'⟩

theorem loadPackage_agrees (hoffline : ctx.WorksOffline disk) (package : String)
    (wanted : Option Request) : Agrees (BothCurrent ctx disk) (loadPackage ctx package wanted) := by
  intro l k hlk
  refine (describePackage_alike hlk package).bind ?_
  rintro found l k ⟨hread, hlk⟩
  cases found with
  | none => exact .throw hlk
  | some ds =>
    exact Agrees.bind (report_agrees _ _ _) (fun _ => addAll_agrees (hoffline package ds hread))
      l k hlk

theorem loadPackages_agrees (hoffline : ctx.WorksOffline disk) (packages loaded : List String)
    (queue : List Request) :
    Agrees (BothCurrent ctx disk) (loadPackages ctx packages loaded queue) := by
  induction packages generalizing loaded queue with
  | nil => exact .pure _
  | cons package rest ih =>
    unfold loadPackages
    split_ifs
    · exact ih loaded queue
    · exact .bind (loadPackage_agrees hoffline package none) fun _ => ih _ _

theorem answer_agrees (request : Request) : Agrees (BothCurrent ctx disk) (answer request) := by
  refine .get_bind fun l k hlk => ?_
  rw [hlk.same_graph]
  split_ifs
  · exact .throw hlk
  · exact .pure hlk

theorem answerLoaded_agrees (loaded : List String) (queue : List Request) :
    Agrees (BothCurrent ctx disk) (answerLoaded loaded queue) := by
  induction queue with
  | nil => exact .pure _
  | cons request rest ih =>
    unfold answerLoaded
    split_ifs
    · exact .bind (answer_agrees request) fun _ => ih
    · exact .pure _

theorem round_agrees (hoffline : ctx.WorksOffline disk) (loaded : List String)
    (queue : List Request) : Agrees (BothCurrent ctx disk) (round ctx loaded queue) := by
  refine .bind (answerLoaded_agrees loaded queue) fun waiting => ?_
  cases waiting with
  | nil => exact .pure _
  | cons request rest =>
    refine .bind (loadPackage_agrees hoffline _ _) fun further => ?_
    exact .bind (answer_agrees request) fun _ => .pure _

/-- The loop that works off the queue ends alike from both sessions. -/
theorem Drains.exists_alike (hoffline : ctx.WorksOffline disk) {loaded : List String}
    {queue : List Request} {r : EStateM.Result BuildError Loading Unit}
    (h : Drains ctx loaded queue l r) (hlk : BothCurrent ctx disk l k) :
    ∃ r', Drains ctx loaded queue k r' ∧
      Alike (fun _ => BothCurrent ctx disk) (BothCurrent ctx disk) r r' := by
  induction h generalizing k with
  | done hround =>
    obtain ⟨after, hafter, hboth⟩ := (round_agrees hoffline _ _ _ k hlk).of_ok hround
    exact ⟨.ok () after, .done hafter, .ok hboth⟩
  | failed hround =>
    obtain ⟨after, hafter, hboth⟩ := (round_agrees hoffline _ _ _ k hlk).of_error hround
    exact ⟨.error _ after, .failed hafter, .error hboth⟩
  | again hround _ ih =>
    obtain ⟨next, hnext, hboth⟩ := (round_agrees hoffline _ _ _ k hlk).of_ok hround
    obtain ⟨r', hr', halike⟩ := ih hboth
    exact ⟨r', .again hnext hr', halike⟩

/-- The bounds on the work depend on what is known of packages, but the loop does not. -/
theorem load_agrees (hoffline : ctx.WorksOffline disk) (roots : List Target)
    (packages : List String) : Agrees (BothCurrent ctx disk) (load ctx roots packages) := by
  intro l k hlk
  have hpackages := loadPackages_agrees hoffline packages [] [] l k hlk
  suffices h : ∃ r', Loads ctx roots packages k r' ∧
      Alike (fun _ => BothCurrent ctx disk) (BothCurrent ctx disk)
        (load ctx roots packages l) r' by
    obtain ⟨r', hr', halike⟩ := h
    rwa [(loads_load ctx roots packages k).unique hr']
  have hloads := loads_load ctx roots packages l
  generalize load ctx roots packages l = r at hloads ⊢
  cases hloads with
  | failed hfailed =>
    obtain ⟨after, hafter, hboth⟩ := hpackages.of_error hfailed
    exact ⟨.error _ after, .failed hafter, .error hboth⟩
  | drained hnext hdrains =>
    obtain ⟨next, hafter, hboth⟩ := hpackages.of_ok hnext
    obtain ⟨r', hr', halike⟩ := hdrains.exists_alike hoffline hboth
    exact ⟨r', .drained hafter hr', halike⟩

theorem render_agrees (ctx : Context) (disk : Disk) :
    Agrees (BothCurrent ctx disk) (render ctx) := by
  refine .get_bind fun l k hlk => ?_
  rw [hlk.same_graph]
  rcases Makefile.ofGraph ctx k.graph with ⟨outcome, graph⟩
  -- both go on with the graph that is left, each in its session
  have hrest : Agrees (BothCurrent ctx disk) (do
      let m ← lift outcome
      inPass (Pass.report .info .generator ("generated " ++ toString m.rules.length ++
        " rules for " ++ toString graph.nodes.length ++ " targets"))
      pure m.serialize : LoadM String) :=
    .bind (lift_agrees outcome) fun _ => .bind (report_agrees _ _ _) fun _ => .pure _
  exact hrest ⟨graph, l.session⟩ ⟨graph, k.session⟩ ⟨rfl, hlk.sessions⟩

/-- Every pass starts with a graph of its own. -/
theorem afresh_agrees {α : Type} {step : LoadM α} (h : Agrees (BothCurrent ctx disk) step) :
    Agrees (ctx.BothCurrent disk) (afresh step) := by
  intro s t hst
  have hstep := h ⟨.empty, s⟩ ⟨.empty, t⟩ ⟨rfl, hst⟩
  unfold afresh
  rcases hstep.exists_ends with ⟨a, l, k, hs, ht, hlk⟩ | ⟨e, l, k, hs, ht, hlk⟩
  · rw [hs, ht]
    exact .ok hlk.sessions
  · rw [hs, ht]
    exact .error hlk.sessions

end Loading

/-! ## Sequences of passes -/

namespace Context

theorem generate_agrees (hoffline : ctx.WorksOffline disk) (roots : List Target)
    (packages : List String) : Agrees (ctx.BothCurrent disk) (ctx.generate roots packages) :=
  Loading.afresh_agrees (.bind (Loading.load_agrees hoffline roots packages) fun _ =>
    Loading.render_agrees ctx disk)

theorem buildGraph_agrees (hoffline : ctx.WorksOffline disk) (roots : List Target)
    (packages : List String) : Agrees (ctx.BothCurrent disk) (ctx.buildGraph roots packages) := by
  refine Loading.afresh_agrees (.bind (Loading.load_agrees hoffline roots packages) fun _ => ?_)
  refine .get_bind fun l k hlk => ?_
  rw [hlk.same_graph]
  exact .pure hlk

/-- A pass that is asked for: the text of the Makefile for a selection, or its graph. -/
inductive Query
  | generate (roots : List Target) (packages : List String)
  | buildGraph (roots : List Target) (packages : List String)

/-- Answer a query, with a text or a graph. -/
def answer (ctx : Context) : Query → Pass (String ⊕ Graph)
  | .generate roots packages => Sum.inl <$> ctx.generate roots packages
  | .buildGraph roots packages => Sum.inr <$> ctx.buildGraph roots packages

/-- What some queries give that are asked one after the other, whether or not they succeed. -/
def transcript (ctx : Context) : List Query → Session → List (Except BuildError (String ⊕ Graph))
  | [], _ => []
  | query :: rest, s =>
    outcome (ctx.answer query) s :: ctx.transcript rest (stateAfter (ctx.answer query) s)

theorem answer_agrees (hoffline : ctx.WorksOffline disk) (query : Query) :
    Agrees (ctx.BothCurrent disk) (ctx.answer query) := by
  cases query with
  | generate roots packages => exact .map _ (generate_agrees hoffline roots packages)
  | buildGraph roots packages => exact .map _ (buildGraph_agrees hoffline roots packages)

/-- A session that knows what the build files say gives what any other such session gives. -/
theorem transcript_of_current (hoffline : ctx.WorksOffline disk) {fresh s : Session}
    (hfresh : ctx.Current disk fresh) (hs : ctx.Current disk s) (queries : List Query) :
    ctx.transcript queries s = queries.map fun query => outcome (ctx.answer query) fresh := by
  induction queries generalizing s with
  | nil => rfl
  | cons query rest ih =>
    have halike := answer_agrees hoffline query s fresh ⟨hs, hfresh⟩
    rw [transcript, List.map_cons, halike.outcome_eq, ih halike.stateAfter.1]

/-- Passes do not leak into each other: in a workspace that stays as it is and whose sources need
not be fetched, every one of them gives what it would give in a new session. -/
theorem transcript_eq (hoffline : ctx.WorksOffline disk) (script other : List Reply)
    (queries : List Query) :
    ctx.transcript queries (.new disk script) =
      queries.map fun query => outcome (ctx.answer query) (.new disk other) :=
  transcript_of_current hoffline (current_new ctx disk other) (current_new ctx disk script) queries

/-- Passes of which the second asks for a package that does not exist. -/
def sampleQueries : List Query :=
  [.buildGraph [⟨"shapes", "area"⟩] [], .generate [⟨"gone", "part"⟩] ["shapes"],
    .generate [⟨"", "draw"⟩] []]

/-- The pass that fails does not matter to the one behind it. -/
theorem transcript_eq_sample :
    Loading.sampleContext.WorksOffline sampleDisk ∧
      Loading.sampleContext.transcript sampleQueries (.new sampleDisk []) =
        sampleQueries.map (fun query =>
          outcome (Loading.sampleContext.answer query) (.new sampleDisk [])) ∧
      sampleQueries.map (fun query =>
          (outcome (Loading.sampleContext.answer query) (.new sampleDisk [])).toBool) =
        [true, false, true] := by
  have hlocal : Loading.sampleContext.FetchesLocally := by
    intro fetcher h
    cases h
  have hoffline : Loading.sampleContext.WorksOffline sampleDisk :=
    fun _ _ _ _ _ => .inl hlocal
  refine ⟨hoffline, transcript_eq hoffline [] [] sampleQueries, ?_⟩
  decide +kernel

end Context

end Makewright
