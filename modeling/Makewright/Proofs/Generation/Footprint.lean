import Makewright.Generation
import Makewright.Proofs.Fetch.Checkout

/-!
# What a pass does to the disk

A pass reads the disk. What it changes there, it changes while it fetches sources: it makes the
directory for checkouts and runs git (`Context.Fetches`). This is an invariant of every step of a
pass, whether or not the step succeeds (`Context.generate_keeps`), so a pass that has no git to ask
leaves the disk as it is (`Context.Fetches.eq`).
-/

set_option autoImplicit false

namespace Makewright

/-- What fetching sources does to a disk while commands are answered from a script: the directory
for checkouts is made, and git runs. -/
inductive Context.Fetches (ctx : Context) (script : List Reply) (before : Disk) : Disk → Prop
  | nothing : Fetches ctx script before before
  | directories {base : Location} {disk : Disk} {files : FileTree}
    (h : Fetches ctx script before disk) (hfetcher : ctx.fetcher = some (.repositories base))
    (hfiles : disk.files.makeDirectories base = .ok files) :
    Fetches ctx script before { disk with files }
  | command {base : Location} {disk : Disk} {r : Reply} {c : Command}
    (h : Fetches ctx script before disk) (hfetcher : ctx.fetcher = some (.repositories base))
    (hr : r ∈ script) (hgit : c.words.head? = some "git") :
    Fetches ctx script before (r.effect c disk)

/-- The directory in which a fetcher serves an identifier. -/
def Fetcher.place : Fetcher → String → Location
  | .directories base, identifier => base.child identifier
  | .repositories base, identifier => base.child (checkoutName (Identifier.parse identifier).url)

/-- A session as a pass that started from another one may have left it: nothing but fetching has
changed the disk, no reply has been added to the script, and what is remembered of packages and
sources has been found out on the way, unless it was remembered before. -/
structure Context.Passed (ctx : Context) (start s : Session) : Prop where
  disk : ctx.Fetches start.recorder.script start.disk s.disk
  script : s.recorder.script ⊆ start.recorder.script
  packages : ∀ package found, s.packages.lookup package = some found →
    start.packages.lookup package = some found ∨
      ∃ disk, ctx.Fetches start.recorder.script start.disk disk ∧
        BuildFile.read disk.files ctx.workspace.root package = .ok found
  fetched : ∀ identifier l, s.fetched.lookup identifier = some l →
    start.fetched.lookup identifier = some l ∨
      ∃ fetcher, ctx.fetcher = some fetcher ∧ l = fetcher.place identifier

/-- The targets of a package are remembered, or they are read and remembered from then on. -/
theorem BuildFile.load_eq_ok {files : FileTree} {root : Location} {cache after : PackageCache}
    {package : String} {found : Option (List Description)}
    (h : load files root cache package = .ok (found, after)) :
    cache.lookup package = some found ∧ after = cache ∨
      read files root package = .ok found ∧ after = (package, found) :: cache := by
  unfold load at h
  cases hknown : cache.lookup package with
  | some known =>
    simp only [hknown, Except.ok.injEq, Prod.mk.injEq] at h
    obtain ⟨rfl, rfl⟩ := h
    exact .inl ⟨rfl, rfl⟩
  | none =>
    cases hread : read files root package with
    | error e => simp [hknown, hread, Except.map] at h
    | ok answer =>
      simp only [hknown, hread, Except.map, Except.ok.injEq, Prod.mk.injEq] at h
      obtain ⟨rfl, rfl⟩ := h
      exact .inr ⟨rfl, rfl⟩

/-- What is remembered of a package afterwards was remembered before, or it is what the build file
of the package has just given. -/
theorem BuildFile.lookup_of_load {files : FileTree} {root : Location} {cache after : PackageCache}
    {package other : String} {found known : Option (List Description)}
    (h : load files root cache package = .ok (found, after))
    (hknown : after.lookup other = some known) :
    cache.lookup other = some known ∨ read files root other = .ok known := by
  rcases load_eq_ok h with ⟨-, rfl⟩ | ⟨hread, rfl⟩
  · exact .inl hknown
  · rw [List.lookup_cons] at hknown
    by_cases hsame : other = package
    · rw [hsame, beq_self_eq_true] at hknown
      cases hknown
      exact .inr (hsame ▸ hread)
    · rw [beq_false_of_ne hsame] at hknown
      exact .inl hknown

/-- What is remembered stays, and the answer is remembered. -/
theorem BuildFile.remembers_of_load {files : FileTree} {root : Location}
    {cache after : PackageCache} {package : String} {found : Option (List Description)}
    (h : load files root cache package = .ok (found, after)) :
    after.lookup package = some found ∧
      ∀ other known, cache.lookup other = some known → after.lookup other = some known := by
  cases hlookup : cache.lookup package with
  | some answer =>
    simp only [load, hlookup, Except.ok.injEq, Prod.mk.injEq] at h
    obtain ⟨rfl, rfl⟩ := h
    exact ⟨hlookup, fun _ _ hknown => hknown⟩
  | none =>
    rcases load_eq_ok h with ⟨hknown, -⟩ | ⟨-, rfl⟩
    · cases hlookup.symm.trans hknown
    · refine ⟨by rw [List.lookup_cons, beq_self_eq_true], fun other known hknown => ?_⟩
      have hdifferent : other ≠ package := by
        rintro rfl
        cases hlookup.symm.trans hknown
      rw [List.lookup_cons, beq_false_of_ne hdifferent]
      exact hknown

variable {ctx : Context} {start : Session}

/-- Without repositories nothing is changed. -/
theorem Context.Fetches.eq {script : List Reply} {before after : Disk}
    (h : ctx.Fetches script before after)
    (hnone : ∀ base, ctx.fetcher ≠ some (.repositories base)) : after = before := by
  cases h with
  | nothing => rfl
  | directories _ hfetcher _ => exact absurd hfetcher (hnone _)
  | command _ hfetcher _ _ => exact absurd hfetcher (hnone _)

theorem Context.Passed.refl (ctx : Context) (s : Session) : ctx.Passed s s :=
  ⟨.nothing, List.Subset.refl _, fun _ _ => .inl, fun _ _ => .inl⟩

/-! ## Reporting and fetching -/

/-- One change that a pass makes to its session while it reports and fetches. -/
inductive Context.Touches (ctx : Context) (s : Session) : Session → Prop
  | report (level : LogLevel) (reporter : Reporter) (text : String) :
    Touches ctx s (s.report level reporter text)
  | directories {base : Location} {files : FileTree}
    (hfetcher : ctx.fetcher = some (.repositories base))
    (hfiles : s.disk.files.makeDirectories base = .ok files) :
    Touches ctx s { s with disk := { s.disk with files } }
  | command {base : Location} {c : Command} (hfetcher : ctx.fetcher = some (.repositories base))
    (hgit : c.words.head? = some "git") :
    Touches ctx s { s with
      recorder := (s.recorder.run c s.disk).2.1, disk := (s.recorder.run c s.disk).2.2 }
  | remember {base : Location} (hfetcher : ctx.fetcher = some (.repositories base))
    (identifier : String) :
    Touches ctx s { s with
      fetched := (identifier, (Fetcher.repositories base).place identifier) :: s.fetched }

/-- Reporting and fetching keep the invariant. -/
def Context.Spares (ctx : Context) (inv : Session → Prop) : Prop :=
  ∀ s after, ctx.Touches s after → inv s → inv after

/-- A command of git is answered by the next reply of the script or, when there is none, changes
nothing. -/
theorem Context.Passed.command {s : Session} {base : Location} {c : Command}
    (hs : ctx.Passed start s) (hfetcher : ctx.fetcher = some (.repositories base))
    (hgit : c.words.head? = some "git") : ctx.Passed start { s with
      recorder := (s.recorder.run c s.disk).2.1, disk := (s.recorder.run c s.disk).2.2 } := by
  refine ⟨?_, ?_, hs.packages, hs.fetched⟩
  · cases hscript : s.recorder.script with
    | nil =>
      simp only [Recorder.run, hscript, List.head?_nil, Option.getD_none]
      exact hs.disk
    | cons reply rest =>
      have hreply : reply ∈ s.recorder.script := hscript ▸ List.mem_cons_self
      simp only [Recorder.run, hscript, List.head?_cons, Option.getD_some]
      exact hs.disk.command hfetcher (hs.script hreply) hgit
  · exact List.Subset.trans (List.drop_subset 1 _) hs.script

theorem Context.spares_passed (ctx : Context) (start : Session) :
    ctx.Spares (ctx.Passed start) := by
  intro s after htouches hs
  cases htouches with
  | report level reporter text => exact { hs with }
  | directories hfetcher hfiles => exact { hs with disk := hs.disk.directories hfetcher hfiles }
  | command hfetcher hgit => exact hs.command hfetcher hgit
  | @remember base hfetcher identifier =>
    refine { hs with fetched := ?_ }
    intro other l hother
    rw [List.lookup_cons] at hother
    by_cases hsame : other = identifier
    · rw [hsame, beq_self_eq_true, Option.some.injEq] at hother
      exact .inr ⟨.repositories base, hfetcher, by rw [hsame, ← hother]⟩
    · rw [beq_false_of_ne hsame] at hother
      exact hs.fetched other l hother

namespace Pass

variable {inv : Session → Prop} {base : Location}

theorem report_keeps (hinv : ctx.Spares inv) (level : LogLevel) (reporter : Reporter)
    (text : String) : Keeps inv (report level reporter text) :=
  .modify fun s hs => hinv s _ (.report level reporter text) hs

theorem lift_leads {α : Type} {answer : Except BuildError α} {good : α → Session → Prop}
    {bad : Session → Prop} {s : Session} (hok : ∀ a, answer = .ok a → good a s) (hbad : bad s) :
    Leads good bad (lift answer) s :=
  Leads.iff_concludes.2 (lift_concludes hok fun _ _ => hbad)

theorem lift_keeps {α : Type} (answer : Except BuildError α) : Keeps inv (lift answer) :=
  fun _ hs => lift_leads (fun _ _ => hs) hs

theorem onFiles_keeps {α : Type} (question : FileTree → Except BuildError α) :
    Keeps inv (onFiles question) := by
  refine .get_bind fun s hs => ?_
  exact lift_keeps _ s hs

/-- The directory for checkouts is made. -/
theorem makeDirectories_keeps (hinv : ctx.Spares inv)
    (hfetcher : ctx.fetcher = some (.repositories base)) :
    Keeps inv (changeFiles (·.makeDirectories base)) := by
  intro s hs
  refine changeFiles_leads (fun files hfiles => ?_) fun _ _ => hs
  exact hinv s _ (.directories hfetcher hfiles) hs

theorem run_keeps (hinv : ctx.Spares inv) (hfetcher : ctx.fetcher = some (.repositories base))
    {words : List String} (hgit : words.head? = some "git") (cwd : Option Location) :
    Keeps inv (run words cwd) := by
  refine .get_bind fun s hs => .bind (.modify (.pure ?_))
  exact hinv s _ (.command (c := ⟨words, cwd.map Location.render, []⟩) hfetcher hgit) hs

end Pass

namespace Fetcher

open Pass

variable {inv : Session → Prop} {base : Location}

theorem openRepository_keeps (identifier : String) (l : Location) :
    Keeps inv (openRepository identifier l) := by
  refine .get_bind fun s hs => ?_
  cases s.disk.repository? l with
  | some r => exact .pure hs
  | none => exact .throw hs

section Repositories

variable (hinv : ctx.Spares inv) (hfetcher : ctx.fetcher = some (.repositories base))

include hinv hfetcher

theorem clone_keeps (identifier url : String) (destination : Location) :
    Keeps inv (clone base identifier url destination) := by
  refine .bind (report_keeps hinv _ _ _) fun _ => ?_
  refine .bind (makeDirectories_keeps hinv hfetcher) fun _ => ?_
  refine .bind (run_keeps hinv hfetcher rfl none) fun result => ?_
  split_ifs
  · exact .throw _
  · exact .pure _

theorem findCommit_keeps (identifier revision : String) (l : Location) (r : Repository) :
    Keeps inv (findCommit identifier revision l r) := by
  unfold findCommit
  cases r.commit? revision with
  | some commit => exact .pure _
  | none =>
    refine .bind (report_keeps hinv _ _ _) fun _ => ?_
    refine .bind (run_keeps hinv hfetcher rfl (some l)) fun _ => ?_
    refine .bind (openRepository_keeps identifier l) fun found => ?_
    cases found.commit? revision with
    | some commit => exact .pure _
    | none => exact .throw _

theorem provide_keeps (identifier url : String) (destination : Location) :
    Keeps inv (provide identifier url base destination) := by
  refine .bind (onFiles_keeps _) fun found => ?_
  dsimp only
  split_ifs
  · exact .bind (report_keeps hinv _ _ _) fun _ => openRepository_keeps identifier destination
  · refine .bind (clone_keeps hinv hfetcher identifier url destination) fun _ => ?_
    exact openRepository_keeps identifier destination

theorem pin_keeps (identifier revision : String) (l : Location) (r : Repository) :
    Keeps inv (pin identifier revision l r) := by
  refine .bind (findCommit_keeps hinv hfetcher identifier revision l r) fun ⟨found, commit⟩ => ?_
  dsimp only
  split_ifs
  · exact .pure _
  · refine .bind (run_keeps hinv hfetcher rfl (some l)) fun result => ?_
    split_ifs
    · exact .pure _
    · exact .throw _

theorem checkout_keeps (identifier : String) : Keeps inv (checkout base identifier) := by
  rw [checkout_eq]
  refine .map _ (.get_bind fun s hs => ?_)
  cases s.fetched.lookup identifier with
  | some l => exact .pure hs
  | none =>
    dsimp only
    split_ifs
    · exact .throw hs
    · refine Keeps.bind (provide_keeps hinv hfetcher identifier _ _) (fun r => ?_) s hs
      refine .bind ?_ fun _ => .bind (.modify fun s hs => ?_) fun _ => .pure _
      · cases (Identifier.parse identifier).revision with
        | some revision => exact .map _ (pin_keeps hinv hfetcher identifier revision _ r)
        | none => exact .pure _
      · exact hinv s _ (.remember hfetcher identifier) hs

end Repositories

/-- A fetcher makes the directory for checkouts, runs git, and changes nothing else. -/
theorem fetch_keeps (hinv : ctx.Spares inv) {fetcher : Fetcher}
    (hfetcher : ctx.fetcher = some fetcher) (identifier : String) :
    Keeps inv (fetcher.fetch identifier) := by
  cases fetcher with
  | repositories base => exact checkout_keeps hinv hfetcher identifier
  | directories base =>
    refine .bind (onFiles_keeps _) fun found => ?_
    split_ifs
    · exact .pure _
    · exact .throw _

end Fetcher

namespace Loading

/-- The invariant of a pass, of a graph that is being loaded. -/
abbrev Passed (ctx : Context) (start : Session) (loading : Loading) : Prop :=
  ctx.Passed start loading.session

/-- Reporting and fetching keep the invariant of a graph that is being loaded. -/
def Spares (ctx : Context) (inv : Loading → Prop) : Prop :=
  ∀ g, ctx.Spares fun s => inv ⟨g, s⟩

theorem spares_passed (ctx : Context) (start : Session) : Spares ctx (Passed ctx start) :=
  fun _ => ctx.spares_passed start

variable {inv : Loading → Prop}

theorem inPass_leads {α : Type} {step : Pass α} {good : α → Loading → Prop} {bad : Loading → Prop}
    {loading : Loading} (h : Leads (fun a s => good a ⟨loading.graph, s⟩)
      (fun s => bad ⟨loading.graph, s⟩) step loading.session) :
    Leads good bad (inPass step) loading := by
  unfold inPass
  constructor
  · intro a after hafter
    cases hrun : step loading.session with
    | ok b session =>
      simp only [hrun, EStateM.Result.ok.injEq] at hafter
      obtain ⟨rfl, rfl⟩ := hafter
      exact h.ok hrun
    | error e session => simp [hrun] at hafter
  · intro e after hafter
    cases hrun : step loading.session with
    | ok b session => simp [hrun] at hafter
    | error e session =>
      simp only [hrun, EStateM.Result.error.injEq] at hafter
      obtain ⟨-, rfl⟩ := hafter
      exact h.error hrun

theorem inPass_keeps {α : Type} {step : Pass α} (h : ∀ g, Keeps (fun s => inv ⟨g, s⟩) step) :
    Keeps inv (inPass step) :=
  fun loading hloading => inPass_leads (h loading.graph loading.session hloading)

theorem lift_keeps {α : Type} (answer : Except BuildError α) : Keeps inv (lift answer) :=
  inPass_keeps fun _ => Pass.lift_keeps answer

theorem report_keeps (hinv : Spares ctx inv) (level : LogLevel) (reporter : Reporter)
    (text : String) : Keeps inv (inPass (Pass.report level reporter text)) :=
  inPass_keeps fun g => Pass.report_keeps (hinv g) level reporter text

variable {d : Description}

theorem fetchFor_keeps (hinv : Spares ctx inv) (identifier : String) :
    Keeps inv (fetchFor ctx d identifier) := by
  unfold fetchFor
  cases hfetcher : ctx.fetcher with
  | none => exact .throw _
  | some fetcher =>
    refine .bind (.tryCatch ?_ fun e => .throw _) fun _ => .pure _
    exact inPass_keeps fun g => Fetcher.fetch_keeps (hinv g) hfetcher identifier

theorem readNode_keeps (hinv : Spares ctx inv) (d : Description) :
    Keeps inv (readNode ctx d) := by
  refine .bind (lift_keeps _) fun nodeClass => .bind (lift_keeps _) fun reading => ?_
  cases reading with
  | complete node => exact .pure _
  | awaiting identifier finish => exact .map _ (fetchFor_keeps hinv identifier)

/-- An invariant of loading: reporting and fetching keep it, and so do asking for the targets of a
package and declaring a node. -/
structure Lasting (ctx : Context) (inv : Loading → Prop) : Prop where
  spares : Spares ctx inv
  describePackage : ∀ package, Keeps inv (describePackage ctx package)
  declare : ∀ loading node, inv loading → inv { loading with graph := loading.graph.declare node }

theorem answer_keeps (request : Request) : Keeps inv (answer request) := by
  refine .get_bind fun loading hloading => ?_
  split_ifs
  · exact .throw hloading
  · exact .pure hloading

theorem answerLoaded_keeps (loaded : List String) (queue : List Request) :
    Keeps inv (answerLoaded loaded queue) := by
  induction queue with
  | nil => exact .pure _
  | cons request rest ih =>
    unfold answerLoaded
    split_ifs
    · exact .bind (answer_keeps request) fun _ => ih
    · exact .pure _

namespace Lasting

variable (hinv : Lasting ctx inv)

include hinv

theorem add (d : Description) : Keeps inv (add ctx d) := by
  refine .get_bind fun loading hloading => ?_
  split_ifs
  · exact .throw hloading
  · refine Keeps.bind (readNode_keeps hinv.spares d) (fun node => ?_) loading hloading
    refine .bind (report_keeps hinv.spares _ _ _) fun _ => ?_
    exact .bind (.modify fun loading h => hinv.declare loading node h) fun _ => .pure _

theorem addAll (ds : List Description) : Keeps inv (addAll ctx ds) := by
  induction ds with
  | nil => exact .pure _
  | cons d rest ih =>
    refine .get_bind fun loading hloading => ?_
    split_ifs
    · exact ih loading hloading
    · exact Keeps.bind (hinv.add d) (fun _ => .bind ih fun _ => .pure _) loading hloading

theorem loadPackage (package : String) (wanted : Option Request) :
    Keeps inv (loadPackage ctx package wanted) := by
  refine .bind (hinv.describePackage package) fun found => ?_
  cases found with
  | none => exact .throw _
  | some ds => exact .bind (report_keeps hinv.spares _ _ _) fun _ => hinv.addAll ds

theorem loadPackages (packages loaded : List String) (queue : List Request) :
    Keeps inv (loadPackages ctx packages loaded queue) := by
  induction packages generalizing loaded queue with
  | nil => exact .pure _
  | cons package rest ih =>
    unfold Loading.loadPackages
    split_ifs
    · exact ih loaded queue
    · exact .bind (hinv.loadPackage package none) fun _ => ih _ _

theorem round (loaded : List String) (queue : List Request) :
    Keeps inv (round ctx loaded queue) := by
  refine .bind (answerLoaded_keeps loaded queue) fun waiting => ?_
  cases waiting with
  | nil => exact .pure _
  | cons request rest =>
    refine .bind (hinv.loadPackage _ _) fun further => ?_
    exact .bind (answer_keeps request) fun _ => .pure _

theorem rounds (fuel : Nat) (loaded : List String) (queue : List Request) :
    Keeps inv (rounds ctx fuel loaded queue) := by
  induction fuel generalizing loaded queue with
  | zero => exact .pure _
  | succ fuel ih =>
    refine .bind (hinv.round loaded queue) fun left => ?_
    cases left with
    | none => exact .pure _
    | some more => exact ih more.1 more.2

theorem work (replies : Nat) (loaded : List String) (queue : List Request) :
    Keeps inv (work ctx replies loaded queue) := by
  induction replies generalizing loaded queue with
  | zero =>
    unfold Loading.work
    refine .get_bind fun loading hloading => ?_
    refine Keeps.bind (hinv.rounds _ loaded queue) (fun left => ?_) loading hloading
    cases left with
    | none => exact .pure _
    | some more => exact .throw _
  | succ replies ih =>
    unfold Loading.work
    refine .get_bind fun loading hloading => ?_
    refine Keeps.bind (hinv.rounds _ loaded queue) (fun left => ?_) loading hloading
    cases left with
    | none => exact .pure _
    | some more => exact ih more.1 more.2

theorem load (roots : List Target) (packages : List String) :
    Keeps inv (load ctx roots packages) := by
  refine .bind (hinv.loadPackages packages [] []) fun ⟨loaded, queue⟩ => ?_
  refine .get_bind fun loading hloading => ?_
  exact hinv.work _ loaded _ loading hloading

end Lasting

theorem describePackage_keeps (package : String) :
    Keeps (Passed ctx start) (describePackage ctx package) := by
  refine inPass_keeps fun _ => .get_bind fun s hs => .bind (Pass.lift_leads ?_ hs)
  rintro ⟨found, packages⟩ hload
  refine .bind (.modify (.pure { hs with packages := ?_ }))
  intro other known hother
  rcases BuildFile.lookup_of_load hload hother with hbefore | hread
  · exact hs.packages other known hbefore
  · exact .inr ⟨s.disk, hs.disk, hread⟩

theorem lasting_passed (ctx : Context) (start : Session) : Lasting ctx (Passed ctx start) :=
  ⟨spares_passed ctx start, describePackage_keeps, fun _ _ h => h⟩

theorem render_keeps : Keeps (Passed ctx start) (render ctx) := by
  refine .get_bind fun loading hloading => ?_
  rcases Makefile.ofGraph ctx loading.graph with ⟨outcome, graph⟩
  have hset : Keeps (Passed ctx start) (set { loading with graph } : LoadM Unit) :=
    .modify fun _ _ => hloading
  refine Keeps.bind hset (fun _ => .bind (lift_keeps outcome) fun m => ?_) loading hloading
  exact .bind (report_keeps (spares_passed ctx start) _ _ _) fun _ => .pure _

theorem afresh_keeps {α : Type} {step : LoadM α} (h : Keeps (Passed ctx start) step) :
    Keeps (ctx.Passed start) (afresh step) := by
  intro s hs
  have hstep := h ⟨.empty, s⟩ hs
  unfold afresh
  constructor
  · intro a after hafter
    cases hrun : step ⟨.empty, s⟩ with
    | ok b loading =>
      simp only [hrun, EStateM.Result.ok.injEq] at hafter
      obtain ⟨-, rfl⟩ := hafter
      exact hstep.ok hrun
    | error e loading => simp [hrun] at hafter
  · intro e after hafter
    cases hrun : step ⟨.empty, s⟩ with
    | ok b loading => simp [hrun] at hafter
    | error e loading =>
      simp only [hrun, EStateM.Result.error.injEq] at hafter
      obtain ⟨-, rfl⟩ := hafter
      exact hstep.error hrun

end Loading

/-- Generating changes the disk by fetching only, whether or not it gives a text. -/
theorem Context.generate_keeps (roots : List Target) (packages : List String) :
    Keeps (ctx.Passed start) (ctx.generate roots packages) :=
  Loading.afresh_keeps (.bind ((Loading.lasting_passed ctx start).load roots packages) fun _ =>
    Loading.render_keeps)

end Makewright
