import Makewright.Proofs.Graph.Moves
import Makewright.Proofs.Target

/-!
# Loading terminates

The work on the queue as a loop without a bound is `Loading.Drains`. Every round of it loads a
package that has not been loaded, which is known or has a build file. A request that was in the
queue at the start may be for any package; the package of a later one is named by a reference, and
then it can be told from the place of its build file (`BuildFile.mem_packagesIn`). So there are no
more rounds than `Loading.reach` counts, unless the reply to a command has changed the files
meanwhile, and of replies there is a fixed number. Hence the bounds on the work are never hit: from
whatever state it starts, `Loading.load` ends as the loop does (`Loading.loads_load`).
-/

set_option autoImplicit false

namespace Makewright

variable {ctx : Context} {files : FileTree} {root : Location} {package : String}

namespace BuildFile

open Makewright.Path

/-- A document that is found is a file with one of the known extensions. -/
theorem document_of_find {directory l : Location} {stem : String}
    (h : Document.find files directory stem = .ok (some l)) :
    (∃ format ∈ Document.formats, l = directory.child (stem ++ format.1)) ∧
      files.isFile l = .ok true := by
  obtain ⟨found, -, h⟩ := exists_of_bind_eq_ok h
  cases found with
  | false => cases h
  | true =>
    obtain ⟨kept, hkept, h⟩ := exists_of_bind_eq_ok h
    have hall := of_mem_filterM hkept
    match kept, h with
    | [one], h =>
      cases h
      obtain ⟨hmem, hfile⟩ := hall l List.mem_cons_self
      obtain ⟨format, hformat, rfl⟩ := List.mem_map.1 hmem
      exact ⟨⟨format, hformat, rfl⟩, hfile⟩

theorem isPlain_stem : ∀ format ∈ Document.formats, IsPlain (stem ++ format.1).toList := by
  have hall : ∀ format ∈ Document.formats, (stem ++ format.1).toList ≠ [] ∧
      (stem ++ format.1).toList ≠ ['.'] ∧ (stem ++ format.1).toList ≠ up ∧
      '/' ∉ (stem ++ format.1).toList := by
    decide
  intro format hformat
  obtain ⟨hne, hdot, hup, hslash⟩ := hall format hformat
  exact ⟨hne, hdot, hup, hslash⟩

/-- The place of the directory of a package. -/
theorem settled_directory (hpackage : IsTidy package.toList) :
    (directory root package).settled =
      root.settled ++ (components package.toList).map String.ofList := by
  unfold directory
  split_ifs with hempty
  · rw [String.isEmpty_iff.1 hempty]
    exact (List.append_nil _).symm
  · exact Location.settled_child_tidy hpackage

/-- A build file stands in the directory of its package. -/
theorem settled_of_find {l : Location} (hpackage : IsTidy package.toList)
    (h : find files root package = .ok (some l)) :
    ∃ name, l.settled =
      root.settled ++ (components package.toList).map String.ofList ++ [name] := by
  obtain ⟨⟨format, hformat, rfl⟩, -⟩ := document_of_find h
  refine ⟨stem ++ format.1, ?_⟩
  rw [Location.settled_child_plain (isPlain_stem format hformat), settled_directory hpackage]

/-- The build file of a package that is read is a file of the file tree. -/
theorem textAt?_of_read {ds : List Description} (hpackage : IsTidy package.toList)
    (h : read files root package = .ok (some ds)) : ∃ name text, files.textAt?
      (root.settled ++ (components package.toList).map String.ofList ++ [name]) = some text := by
  obtain ⟨found, hfind, h⟩ := exists_of_bind_eq_ok h
  cases found with
  | none => cases h
  | some l =>
    obtain ⟨-, hfile⟩ := document_of_find hfind
    obtain ⟨name, hplace⟩ := settled_of_find hpackage hfind
    obtain ⟨text, htext⟩ := FileTree.standing?_of_isFile hfile
    refine ⟨name, text, ?_⟩
    rw [← hplace, FileTree.textAt?, htext]

/-- The package that has its build file at a place. -/
def packageAt (root : Location) (place : List String) : String :=
  "/".intercalate (place.dropLast.drop root.settled.length)

/-- The packages whose build files may be among the entries of a file tree. -/
def packagesIn (files : FileTree) (root : Location) : List String :=
  files.entries.map fun entry => packageAt root entry.1

/-- A package with a build file can be told from the place of the file. -/
theorem mem_packagesIn {ds : List Description} (hpackage : IsTidy package.toList)
    (h : read files root package = .ok (some ds)) {others : FileTree}
    (hothers : ∀ place, files.textAt? place = others.textAt? place) :
    package ∈ packagesIn others root := by
  obtain ⟨name, text, htext⟩ := textAt?_of_read hpackage h
  rw [hothers] at htext
  have hplace := FileTree.mem_places_of_textAt? htext
  obtain ⟨entry, hentry, hsame⟩ := List.mem_map.1 hplace
  refine List.mem_map.2 ⟨entry, hentry, ?_⟩
  rw [packageAt, hsame, List.dropLast_concat, List.drop_left, ← String.toList_inj,
    String.toList_intercalate, List.map_map, hpackage.eq_intercalate]
  simp [Function.comp_def, ← hpackage.eq_intercalate]

end BuildFile

namespace Loading

open Stateful

variable {start : Session} {loading next after : Loading} {loaded : List String}
  {queue requests : List Request} {outcome : EStateM.Result BuildError Loading Unit}

/-! ## The loop -/

/-- The work on the queue as a loop of rounds without a bound ends, with the outcome. -/
inductive Drains (ctx : Context) :
    List String → List Request → Loading → EStateM.Result BuildError Loading Unit → Prop
  | done {loaded : List String} {queue : List Request} {loading after : Loading}
    (h : round ctx loaded queue loading = .ok none after) :
    Drains ctx loaded queue loading (.ok () after)
  | failed {loaded : List String} {queue : List Request} {loading after : Loading}
    {e : BuildError} (h : round ctx loaded queue loading = .error e after) :
    Drains ctx loaded queue loading (.error e after)
  | again {loaded more : List String} {queue rest : List Request} {loading next : Loading}
    {outcome : EStateM.Result BuildError Loading Unit}
    (hround : round ctx loaded queue loading = .ok (some (more, rest)) next)
    (h : Drains ctx more rest next outcome) : Drains ctx loaded queue loading outcome

/-- Loading with the loop in place of the bounded work ends, with the outcome. -/
inductive Loads (ctx : Context) (roots : List Target) (packages : List String)
    (loading : Loading) : EStateM.Result BuildError Loading Unit → Prop
  | failed {after : Loading} {e : BuildError}
    (h : loadPackages ctx packages [] [] loading = .error e after) :
    Loads ctx roots packages loading (.error e after)
  | drained {loaded : List String} {queue : List Request} {next : Loading}
    {outcome : EStateM.Result BuildError Loading Unit}
    (hnext : loadPackages ctx packages [] [] loading = .ok (loaded, queue) next)
    (h : Drains ctx loaded (queue ++ roots.map fun root => ⟨none, root⟩) next outcome) :
    Loads ctx roots packages loading outcome

/-- The loop has one outcome at most. -/
theorem Drains.unique {other : EStateM.Result BuildError Loading Unit}
    (h : Drains ctx loaded queue loading outcome) (h' : Drains ctx loaded queue loading other) :
    outcome = other := by
  -- both runs make the same round first, and a round has one outcome
  induction h with
  | done h =>
    cases h' with
    | done h' =>
      obtain ⟨-, rfl⟩ := EStateM.Result.ok.inj (h.symm.trans h')
      rfl
    | failed h' => cases h.symm.trans h'
    | again hround' h' => cases h.symm.trans hround'
  | failed h =>
    cases h' with
    | done h' => cases h.symm.trans h'
    | failed h' =>
      obtain ⟨rfl, rfl⟩ := EStateM.Result.error.inj (h.symm.trans h')
      rfl
    | again hround' h' => cases h.symm.trans hround'
  | again hround h ih =>
    cases h' with
    | done h' => cases hround.symm.trans h'
    | failed h' => cases hround.symm.trans h'
    | again hround' h' =>
      obtain ⟨hsame, rfl⟩ := EStateM.Result.ok.inj (hround.symm.trans hround')
      obtain ⟨rfl, rfl⟩ := Prod.mk.inj (Option.some.inj hsame)
      exact ih h'

/-- Loading has one outcome at most. -/
theorem Loads.unique {roots : List Target} {packages : List String}
    {other : EStateM.Result BuildError Loading Unit}
    (h : Loads ctx roots packages loading outcome) (h' : Loads ctx roots packages loading other) :
    outcome = other := by
  cases h with
  | failed h =>
    cases h' with
    | failed h' =>
      obtain ⟨rfl, rfl⟩ := EStateM.Result.error.inj (h.symm.trans h')
      rfl
    | drained hnext' h' => cases h.symm.trans hnext'
  | drained hnext h =>
    cases h' with
    | failed h' => cases hnext.symm.trans h'
    | drained hnext' h' =>
      obtain ⟨hsame, rfl⟩ := EStateM.Result.ok.inj (hnext.symm.trans hnext')
      obtain ⟨rfl, rfl⟩ := Prod.mk.inj hsame
      exact h.unique h'

/-- Some rounds and then more of the loop are a part of the loop. -/
theorem Drains.of_rounds {fuel : Nat} (go : List String → List Request → LoadM Unit)
    (hgo : ∀ more rest next, rounds ctx fuel loaded queue loading = .ok (some (more, rest)) next →
      Drains ctx more rest next (go more rest next)) :
    Drains ctx loaded queue loading ((do
      match ← rounds ctx fuel loaded queue with
      | none => pure ()
      | some (more, rest) => go more rest) loading) := by
  induction fuel generalizing loaded queue loading with
  | zero => exact hgo loaded queue loading rfl
  | succ fuel ih =>
    rw [rounds, bind_assoc]
    cases hround : round ctx loaded queue loading with
    | error e after =>
      rw [bind_of_error hround]
      exact .failed hround
    | ok left next =>
      rw [bind_of_ok hround]
      cases left with
      | none => exact .done hround
      | some asked =>
        obtain ⟨more, rest⟩ := asked
        refine .again hround (ih fun last waiting after hrounds => hgo last waiting after ?_)
        rw [rounds, bind_of_ok hround]
        exact hrounds

/-! ## What is reached without another reply -/

/-- What has become of a session that was counted: replies have been used since then, or else the
files are the same, and every package that is known was known then or has its build file among the
entries that were there. -/
structure Since (ctx : Context) (counted s : Session) : Prop where
  script : s.recorder.script.length ≤ counted.recorder.script.length
  files : s.recorder.script.length = counted.recorder.script.length →
    ∀ place, s.disk.files.textAt? place = counted.disk.files.textAt? place
  packages : s.recorder.script.length = counted.recorder.script.length → ∀ package ds,
    s.packages.lookup package = some (some ds) → Path.IsTidy package.toList →
      package ∈ counted.packages.map Prod.fst ∨
        package ∈ BuildFile.packagesIn counted.disk.files ctx.workspace.root

variable {counted s : Session}

theorem Since.refl (ctx : Context) (s : Session) : Since ctx s s := by
  refine ⟨le_rfl, fun _ _ => rfl, fun _ package ds hknown _ => .inl ?_⟩
  obtain ⟨before, after, hentries, -⟩ := List.lookup_eq_some_iff.1 hknown
  rw [hentries]
  simp

theorem spares_since (ctx : Context) (counted : Session) : ctx.Spares (Since ctx counted) := by
  intro s after htouches hs
  cases htouches with
  | report level reporter text => exact { hs with }
  | directories hfetcher hfiles =>
    refine { hs with files := fun hsame place => ?_ }
    rw [← hs.files hsame place]
    exact (FileTree.makeDirectories_furnished hfiles).textAt?_eq place
  | remember hfetcher identifier => exact { hs with }
  | @command base c hfetcher hgit =>
    cases hscript : s.recorder.script with
    | nil =>
      -- without a reply, the command does nothing
      have hrecorder : (s.recorder.run c s.disk).2.1.script = s.recorder.script := by
        simp [Recorder.run, hscript]
      have hdisk : (s.recorder.run c s.disk).2.2 = s.disk := by
        simp [Recorder.run, hscript, Reply.silent]
      constructor
      · rw [hrecorder]
        exact hs.script
      · rw [hrecorder, hdisk]
        exact hs.files
      · rw [hrecorder]
        exact hs.packages
    | cons reply rest =>
      have hless : rest.length < counted.recorder.script.length :=
        Nat.lt_of_lt_of_le (by rw [hscript]; exact Nat.lt_succ_self _) hs.script
      simp only [Recorder.run, hscript, List.drop_one, List.tail_cons]
      exact ⟨hless.le, fun hsame => absurd hsame hless.ne, fun hsame => absurd hsame hless.ne⟩

theorem describePackage_since (counted : Session) (package : String) :
    Keeps (fun loading => Since ctx counted loading.session) (describePackage ctx package) := by
  refine inPass_keeps fun _ => .get_bind fun s hs => .bind (Pass.lift_leads ?_ hs)
  rintro ⟨found, packages⟩ hload
  refine .bind (.modify (.pure { hs with packages := ?_ }))
  intro hsame other ds hother htidy
  rcases BuildFile.lookup_of_load hload hother with hbefore | hread
  · exact hs.packages hsame other ds hbefore htidy
  · exact .inr (BuildFile.mem_packagesIn htidy hread (hs.files hsame))

theorem lasting_since (ctx : Context) (counted : Session) :
    Lasting ctx fun loading => Since ctx counted loading.session :=
  ⟨fun _ => spares_since ctx counted, describePackage_since counted, fun _ _ h => h⟩

/-- The dependencies of targets are named by references. -/
theorem tidy_of_addAll {ds : List Description}
    (h : addAll ctx ds loading = .ok requests after) :
    ∀ request ∈ requests, Path.IsTidy request.target.package.toList := by
  induction ds generalizing loading requests with
  | nil =>
    cases h
    exact nofun
  | cons d rest ih =>
    unfold addAll at h
    replace h := of_get_bind h
    split_ifs at h
    · exact ih h
    · obtain ⟨node, between, hadd, h⟩ := exists_between_of_bind h
      obtain ⟨further, last, hfurther, h⟩ := exists_between_of_bind h
      cases h
      obtain ⟨-, _, _, _, _, _, hread, -, -⟩ := exists_of_add hadd
      refine List.forall_mem_append.2 ⟨?_, ih hfurther⟩
      intro request hrequest
      obtain ⟨dependency, hdependency, rfl⟩ := List.mem_map.1 hrequest
      obtain ⟨reference, hparse⟩ := (isReadFrom_of_readNode hread).follows.named _ hdependency
      exact Target.isTidy_parse hparse

/-- A package is loaded if it is known or has a build file, and its targets ask for packages that
are named by references. -/
theorem reached_of_loadPackage {package : String} {wanted : Option Request}
    (h : loadPackage ctx package wanted loading = .ok requests after)
    (hsince : Since ctx counted loading.session)
    (hsame : after.session.recorder.script.length = counted.recorder.script.length) :
    (Path.IsTidy package.toList → package ∈ counted.packages.map Prod.fst ∨
      package ∈ BuildFile.packagesIn counted.disk.files ctx.workspace.root) ∧
    ∀ request ∈ requests, Path.IsTidy request.target.package.toList := by
  obtain ⟨ds, level, reporter, text, between, session, hfound, hreport, hadd⟩ :=
    exists_of_loadPackage h
  refine ⟨fun htidy => ?_, tidy_of_addAll hadd⟩
  obtain ⟨-, hload⟩ := graph_of_describePackage hfound
  have hbetween := (describePackage_since counted package loading hsince).ok hfound
  -- the rest of the load uses no reply either
  have hreported := (report_keeps (lasting_since ctx between.session).spares level reporter text
    between (Since.refl ctx between.session)).ok hreport
  have hlater := ((lasting_since ctx between.session).addAll ds _ hreported).ok hadd
  have hbetweenSame : between.session.recorder.script.length = counted.recorder.script.length :=
    le_antisymm hbetween.script (hsame ▸ hlater.script)
  exact hbetween.packages hbetweenSame package ds (BuildFile.remembers_of_load hload).1 htidy

/-! ## The bound -/

/-- How many of the packages have not been loaded. -/
def waiting (pool loaded : List String) : Nat :=
  (pool.filter (· ∉ loaded)).length

/-- Loading one of the packages leaves fewer. -/
theorem waiting_lt {pool : List String} {package : String} (hmem : package ∈ pool)
    (hnew : package ∉ loaded) : waiting pool (package :: loaded) < waiting pool loaded := by
  have hfewer : pool.filter (· ∉ package :: loaded) =
      (pool.filter (· ∉ loaded)).filter (· ≠ package) := by
    simp [List.filter_filter, List.mem_cons, not_or]
  rw [waiting, waiting, hfewer, List.length_filter_lt_length_iff_exists]
  exact ⟨package, List.mem_filter.2 ⟨hmem, by simpa using hnew⟩, by simp⟩

/-- The packages that can be loaded without another reply to a command, of which `asked` are asked
for already. -/
def pool (ctx : Context) (counted : Session) (asked : List String) : List String :=
  asked ++ counted.packages.map Prod.fst ++
    BuildFile.packagesIn counted.disk.files ctx.workspace.root

/-- The requests are for packages that were asked for, or that a reference names. -/
def Asked (asked : List String) (queue : List Request) : Prop :=
  ∀ request ∈ queue, request.target.package ∈ asked ∨ Path.IsTidy request.target.package.toList

/-- A round that uses no reply loads a package of the pool. -/
theorem waiting_lt_of_round {asked more : List String} {rest : List Request}
    (h : round ctx loaded queue loading = .ok (some (more, rest)) next)
    (hsince : Since ctx counted loading.session) (hqueue : Asked asked queue)
    (hsame : next.session.recorder.script.length = counted.recorder.script.length) :
    waiting (pool ctx counted asked) more < waiting (pool ctx counted asked) loaded ∧
      Asked asked rest := by
  obtain ⟨front, request, others, further, rfl, -, hnew, hload, -, rfl, rfl⟩ := exists_of_round h
  obtain ⟨hreached, hfurther⟩ := reached_of_loadPackage hload hsince hsame
  obtain ⟨hrequest, hothers⟩ := List.forall_mem_cons.1 (List.forall_mem_append.1 hqueue).2
  refine ⟨waiting_lt ?_ hnew, List.forall_mem_append.2 ⟨hothers, fun asked hasked => ?_⟩⟩
  · rw [pool, List.append_assoc, List.mem_append, List.mem_append]
    exact hrequest.imp_right hreached
  · exact .inr (hfurther asked hasked)

/-- As many rounds as there are packages in the pool use a reply. -/
theorem waiting_of_rounds {asked more : List String} {rest : List Request} {fuel : Nat}
    (h : rounds ctx fuel loaded queue loading = .ok (some (more, rest)) next)
    (hsince : Since ctx counted loading.session) (hqueue : Asked asked queue)
    (hsame : next.session.recorder.script.length = counted.recorder.script.length) :
    waiting (pool ctx counted asked) more + fuel ≤ waiting (pool ctx counted asked) loaded := by
  induction fuel generalizing loaded queue loading with
  | zero =>
    cases h
    exact le_rfl
  | succ fuel ih =>
    obtain ⟨left, between, hround, h⟩ := exists_between_of_bind h
    cases left with
    | none => cases h
    | some asked' =>
      obtain ⟨between', rest'⟩ := asked'
      have hbetween := ((lasting_since ctx counted).round loaded queue loading hsince).ok hround
      have hlater := ((lasting_since ctx between.session).rounds fuel _ _ between
        (Since.refl ctx between.session)).ok h
      have hbetweenSame : between.session.recorder.script.length =
          counted.recorder.script.length :=
        le_antisymm hbetween.script (hsame ▸ hlater.script)
      obtain ⟨hless, hrest⟩ := waiting_lt_of_round hround hsince hqueue hbetweenSame
      have hmore := ih h hbetween hrest
      omega

/-- Rounds beyond what can be reached have used a reply. -/
theorem script_lt_of_rounds {more : List String} {rest : List Request}
    (h : rounds ctx (reach queue loading + 1) loaded queue loading = .ok (some (more, rest)) next) :
    next.session.recorder.script.length < loading.session.recorder.script.length := by
  have hstart := Since.refl ctx loading.session
  have hnext := ((lasting_since ctx loading.session).rounds _ loaded queue loading hstart).ok h
  refine Nat.lt_of_le_of_ne hnext.script fun hsame => ?_
  have hqueue : Asked (queue.map fun request => request.target.package) queue :=
    fun request hrequest => .inl (List.mem_map_of_mem hrequest)
  have hbound := waiting_of_rounds h hstart hqueue hsame
  have hpool : waiting (pool ctx loading.session (queue.map fun request => request.target.package))
      loaded ≤ reach queue loading := by
    refine (List.length_filter_le _ _).trans_eq ?_
    simp [pool, reach, BuildFile.packagesIn, Nat.add_assoc]
  omega

/-- The work ends as the loop without a bound does. -/
theorem drains_work {replies : Nat} (h : loading.session.recorder.script.length ≤ replies) :
    Drains ctx loaded queue loading (work ctx replies loaded queue loading) := by
  induction replies generalizing loaded queue loading with
  | zero =>
    unfold work
    refine .of_rounds (fun _ _ => throw .endlessWalk) fun more rest next hrounds => ?_
    have hless := script_lt_of_rounds hrounds
    omega
  | succ replies ih =>
    unfold work
    refine .of_rounds (work ctx replies) fun more rest next hrounds => ih ?_
    have hless := script_lt_of_rounds hrounds
    omega

/-- Loading ends as the loop without a bound does, from whatever state it starts. -/
theorem loads_load (ctx : Context) (roots : List Target) (packages : List String)
    (loading : Loading) : Loads ctx roots packages loading (load ctx roots packages loading) := by
  unfold load
  cases hpackages : loadPackages ctx packages [] [] loading with
  | error e after =>
    rw [bind_of_error hpackages]
    exact .failed hpackages
  | ok answer next =>
    obtain ⟨loaded, queue⟩ := answer
    rw [bind_of_ok hpackages]
    exact .drained hpackages (drains_work le_rfl)

end Loading

end Makewright
