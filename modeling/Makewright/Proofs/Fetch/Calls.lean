import Makewright.Proofs.Fetch.Checkout

/-!
# Sequences of calls for checkouts

All revisions of one address share one checkout, so a later call for another revision moves the head
that an earlier call relied on (`calls_share_head`). Apart from that no call spoils an earlier one:
at the place of every call that got a commit checked out, the head stands at that commit unless a
later call gets another one checked out at the same place (`heads_kept`).
-/

set_option autoImplicit false

namespace Makewright

open Makewright.Path Session

namespace Fetcher

variable {n : Nat} {s after : Session} {base : Location} {identifier : String}

/-- How a call for an identifier went: the place that it gave, unless it failed, and the commit that
it got checked out there. -/
structure Call where
  identifier : String
  place? : Option Location
  commit? : Option String
  deriving DecidableEq, Repr

/-- The call got a commit checked out at a place. -/
structure Call.Pins (call : Call) (place : Location) (commit : String) : Prop where
  place : call.place? = some place
  commit : call.commit? = some commit

/-- The commit that a call gets checked out. -/
def commitFor (base : Location) (identifier : String) (s : Session) : Option String :=
  match pinned base identifier s with
  | .ok (_, commit) _ => commit
  | .error _ _ => none

/-- Call a fetcher for an identifier. -/
def call (base : Location) (identifier : String) (s : Session) : Call × Session :=
  match (Fetcher.repositories base).fetch identifier s with
  | .ok place after => (⟨identifier, some place, commitFor base identifier s⟩, after)
  | .error _ after => (⟨identifier, none, none⟩, after)

/-- Call a fetcher for one identifier after another, whether or not the calls succeed. -/
def calls (base : Location) : List String → Session → List Call × Session
  | [], s => ([], s)
  | identifier :: rest, s =>
    let (first, between) := call base identifier s
    let (others, after) := calls base rest between
    (first :: others, after)

theorem call_of_ok {place : Location} {commit : Option String}
    (h : pinned base identifier s = .ok (place, commit) after) :
    call base identifier s = (⟨identifier, some place, commit⟩, after) := by
  have hfetch : (Fetcher.repositories base).fetch identifier s = .ok place after := by
    rw [fetch, checkout_eq]
    simp [Functor.map, EStateM.map, h]
  simp [call, hfetch, commitFor, h]

theorem call_of_error {e : BuildError} (h : pinned base identifier s = .error e after) :
    call base identifier s = (⟨identifier, none, none⟩, after) := by
  have hfetch : (Fetcher.repositories base).fetch identifier s = .error e after := by
    rw [fetch, checkout_eq]
    simp [Functor.map, EStateM.map, h]
  simp [call, hfetch]

/-! ## What holds after a sequence -/

/-- Every call that gives the checkout of a revision is, or repeats, one that got a commit checked
out there. -/
def Traced (calls : List Call) : Prop :=
  ∀ earlier call later, calls = earlier ++ call :: later →
    ∀ place, call.place? = some place → (Identifier.parse call.identifier).revision.isSome →
      ∃ first ∈ earlier ++ [call], first.identifier = call.identifier ∧
        ∃ commit, first.Pins place commit

/-- The head at the place of every call that got a commit checked out stands there, unless a later
call got another commit checked out at the same place. -/
def HeadsKept (calls : List Call) (disk : Disk) : Prop :=
  ∀ earlier call later, calls = earlier ++ call :: later →
    ∀ place commit, call.Pins place commit →
      (∀ next ∈ later, ∀ other, next.Pins place other → other = commit) →
        disk.head? place = some commit

/-- What holds after some calls. -/
structure After (base : Location) (calls : List Call) (s : Session) : Prop where
  traced : Traced calls
  heads : HeadsKept calls s.disk
  places : ∀ call ∈ calls, ∀ place commit, call.Pins place commit →
    ∃ name, IsPlain name.toList ∧ place = base.child name
  remembered : ∀ identifier place, s.fetched.lookup identifier = some place →
    (Identifier.parse identifier).revision.isSome →
      ∃ first ∈ calls, first.identifier = identifier ∧ ∃ commit, first.Pins place commit

variable {past : List Call} {new : Call} {disk : Disk}

/-- A call of a longer sequence is the last one or one of those before. -/
theorem last_or_before {earlier later : List Call} {old : Call}
    (h : past ++ [new] = earlier ++ old :: later) :
    (past = earlier ∧ new = old ∧ later = []) ∨
      ∃ before, later = before ++ [new] ∧ past = earlier ++ old :: before := by
  rcases List.eq_nil_or_concat later with rfl | ⟨before, last, rfl⟩
  · obtain ⟨rfl, hlast⟩ := List.append_inj' h rfl
    exact .inl ⟨rfl, List.singleton_inj.1 hlast, rfl⟩
  · rw [List.concat_eq_append, ← List.cons_append, ← List.append_assoc] at h
    obtain ⟨rfl, hlast⟩ := List.append_inj' h rfl
    exact .inr ⟨before, by rw [List.concat_eq_append, List.singleton_inj.1 hlast], rfl⟩

theorem Traced.concat (h : Traced past)
    (hnew : ∀ place, new.place? = some place → (Identifier.parse new.identifier).revision.isSome →
      ∃ first ∈ past ++ [new], first.identifier = new.identifier ∧
        ∃ commit, first.Pins place commit) : Traced (past ++ [new]) := by
  intro earlier old later hsplit
  rcases last_or_before hsplit with ⟨rfl, rfl, rfl⟩ | ⟨before, rfl, rfl⟩
  · exact hnew
  · exact h earlier old before rfl

theorem HeadsKept.concat {later : Disk} (h : HeadsKept past disk)
    (hold : ∀ old ∈ past, ∀ place commit, old.Pins place commit → disk.head? place = some commit →
      (∀ other, new.Pins place other → other = commit) → later.head? place = some commit)
    (hnew : ∀ place commit, new.Pins place commit → later.head? place = some commit) :
    HeadsKept (past ++ [new]) later := by
  intro earlier old rest hsplit place commit hpins hundisturbed
  rcases last_or_before hsplit with ⟨rfl, rfl, rfl⟩ | ⟨before, rfl, rfl⟩
  · exact hnew place commit hpins
  · -- the head was kept up to the new call, which leaves it or moves it to the same commit
    have hhead := h earlier old before rfl place commit hpins
      fun next hnext => hundisturbed next (List.mem_append_left [new] hnext)
    exact hold old (by simp) place commit hpins hhead
      (hundisturbed new (List.mem_append_right before (List.mem_singleton_self new)))

/-- A call that spares every head and gives nothing but what is remembered adds nothing to what
holds. -/
theorem After.unpinned (h : After base past s) {place? : Option Location}
    (hspares : s.SparesAll n after)
    (hplace : ∀ place, place? = some place → s.fetched.lookup identifier = some place) :
    After base (past ++ [⟨identifier, place?, none⟩]) after := by
  have hnone : ∀ place commit, ¬ (Call.mk identifier place? none).Pins place commit := by
    rintro place commit ⟨-, ⟨⟩⟩
  constructor
  · refine h.traced.concat fun place hgiven hnamed => ?_
    obtain ⟨first, hfirst, hpins⟩ := h.remembered identifier place (hplace place hgiven) hnamed
    exact ⟨first, List.mem_append_left _ hfirst, hpins⟩
  · refine h.heads.concat (fun old _ place commit _ hhead _ => ?_) fun place commit hpins => ?_
    · exact hspares.heads place commit trivial hhead
    · exact absurd hpins (hnone place commit)
  · intro old hold place commit hpins
    rcases List.mem_append.1 hold with hold | hold
    · exact h.places old hold place commit hpins
    · rw [List.mem_singleton.1 hold] at hpins
      exact absurd hpins (hnone place commit)
  · intro other place hlookup hnamed
    rw [hspares.fetched] at hlookup
    obtain ⟨first, hfirst, hpins⟩ := h.remembered other place hlookup hnamed
    exact ⟨first, List.mem_append_left _ hfirst, hpins⟩

/-- A call that is answered anew may move the head at its place, and is remembered. -/
theorem After.served (h : After base past s) {place : Location} {commit : Option String}
    (hserves : Serves base identifier s place commit after) :
    After base (past ++ [⟨identifier, some place, commit⟩]) after := by
  have hself : (Identifier.parse identifier).revision.isSome →
      ∃ c, (Call.mk identifier (some place) commit).Pins place c := by
    intro hnamed
    rw [← hserves.named] at hnamed
    obtain ⟨c, rfl⟩ := Option.isSome_iff_exists.1 hnamed
    exact ⟨c, rfl, rfl⟩
  constructor
  · refine h.traced.concat ?_
    rintro _ ⟨⟩ hnamed
    exact ⟨_, List.mem_append_right past (List.mem_singleton_self _), rfl, hself hnamed⟩
  · -- an older head moves only where the new call disturbs it
    refine h.heads.concat ?_ ?_
    · intro old hold elsewhere c hpins hhead hundisturbed
      refine hserves.keeps_undisturbed (h.places old hold elsewhere c hpins) hhead ?_
      rintro other rfl rfl
      exact hundisturbed other ⟨rfl, rfl⟩
    · rintro _ c ⟨⟨⟩, hc⟩
      exact hserves.moves c hc
  · intro old hold elsewhere c hpins
    rcases List.mem_append.1 hold with hold | hold
    · exact h.places old hold elsewhere c hpins
    · rw [List.mem_singleton.1 hold] at hpins
      obtain ⟨⟨⟩, -⟩ := hpins
      exact hserves.isChild
  · intro other elsewhere hlookup hnamed
    -- the identifier itself is remembered in front of the others
    rw [hserves.fetched, List.lookup_cons] at hlookup
    by_cases hother : other = identifier
    · subst hother
      rw [beq_self_eq_true] at hlookup
      cases hlookup
      exact ⟨_, List.mem_append_right past (List.mem_singleton_self _), rfl, hself hnamed⟩
    · rw [beq_eq_false_iff_ne.2 hother] at hlookup
      obtain ⟨first, hfirst, hpins⟩ := h.remembered other elsewhere hlookup hnamed
      exact ⟨first, List.mem_append_left _ hfirst, hpins⟩

/-- One call more. -/
theorem After.call (h : After base past s) (hgit : s.AsksGit (n + 3)) (hbase : base.WellFormed)
    (identifier : String) :
    After base (past ++ [(Fetcher.call base identifier s).1]) (Fetcher.call base identifier s).2 ∧
      (Fetcher.call base identifier s).2.AsksGit n := by
  have hleads := pinned_leads hgit hbase identifier
  cases hpinned : pinned base identifier s with
  | error e after =>
    rw [call_of_error hpinned]
    have hspares := hleads.error hpinned
    refine ⟨h.unpinned hspares ?_, hspares.asksGit⟩
    rintro place ⟨⟩
  | ok answer after =>
    obtain ⟨place, commit⟩ := answer
    rw [call_of_ok hpinned]
    obtain ⟨hgit', ⟨hlookup, rfl, rfl⟩ | hserves⟩ := hleads.ok hpinned
    · refine ⟨h.unpinned hgit'.spares ?_, hgit'⟩
      rintro place ⟨⟩
      exact hlookup
    · exact ⟨h.served hserves, hgit'⟩

/-- All calls of a sequence, after those before it. A call runs three commands at most: a clone and
a fetch may stand in front of its checkout. -/
theorem After.calls (hbase : base.WellFormed) {identifiers : List String} (h : After base past s)
    (hgit : s.AsksGit (3 * identifiers.length)) :
    After base (past ++ (Fetcher.calls base identifiers s).1)
      (Fetcher.calls base identifiers s).2 := by
  induction identifiers generalizing past s with
  | nil =>
    rw [Fetcher.calls, List.append_nil]
    exact h
  | cons identifier rest ih =>
    obtain ⟨hcall, hgit'⟩ := h.call (n := 3 * rest.length) hgit hbase identifier
    have hrest := ih hcall hgit'
    rw [List.append_assoc] at hrest
    exact hrest

theorem after_nil (h : s.fetched = []) : After base [] s := by
  constructor
  · intro earlier call later hsplit
    cases earlier <;> cases hsplit
  · intro earlier call later hsplit
    cases earlier <;> cases hsplit
  · rintro call ⟨⟩
  · intro identifier place hlookup
    rw [h] at hlookup
    cases hlookup

/-- No call of a sequence spoils an earlier one, unless it gets another commit checked out at the
same place. While git answers the commands, every call that gives the checkout of a revision is or
repeats one that got its commit checked out there, and at the end of the sequence the head at that
place stands at the commit, if no later call got another one checked out there. -/
theorem heads_kept (hbase : base.WellFormed) (hfresh : s.fetched = []) (identifiers : List String)
    (hgit : ∀ r ∈ s.recorder.script, r.ActsAsGit)
    (henough : 3 * identifiers.length ≤ s.recorder.script.length) :
    Traced (Fetcher.calls base identifiers s).1 ∧
      HeadsKept (Fetcher.calls base identifiers s).1 (Fetcher.calls base identifiers s).2.disk := by
  have hafter := (after_nil hfresh).calls hbase ⟨hgit, henough⟩
  rw [List.nil_append] at hafter
  exact ⟨hafter.traced, hafter.heads⟩

/-! ## Two revisions of one address -/

/-- The directory of the checkouts of the sample. -/
def sampleBase : Location :=
  .parse "/work/.gen-src"

/-- The checkout of the sample. -/
def samplePlace : Location :=
  sampleBase.child (checkoutName "https://example.com/zlib.git")

/-- A session at the start of a pass in which git answers all commands. The repository of the sample
has two commits and its head at the later one. -/
def sampleSession : Session :=
  .new (Disk.addRepository ⟨⟨[]⟩, []⟩ samplePlace ⟨["first", "second"], some 1, [("v1", 0)], []⟩)
    (List.replicate 6 (.git 0))

/-- Identifiers of two revisions of the sample. -/
def sampleIdentifiers : List String :=
  ["https://example.com/zlib.git#second", "https://example.com/zlib.git#v1"]

theorem asksGit_sampleSession : sampleSession.AsksGit (3 * sampleIdentifiers.length) := by
  refine ⟨fun r hr => ?_, by decide⟩
  rw [List.eq_of_mem_replicate hr]
  exact Reply.actsAsGit_git 0

/-- Two calls of a sequence, and what holds at its end. -/
theorem heads_kept_sample :
    sampleBase.WellFormed ∧ sampleSession.fetched = [] ∧
      (∀ r ∈ sampleSession.recorder.script, r.ActsAsGit) ∧
      3 * sampleIdentifiers.length ≤ sampleSession.recorder.script.length ∧
      Traced (calls sampleBase sampleIdentifiers sampleSession).1 ∧
      HeadsKept (calls sampleBase sampleIdentifiers sampleSession).1
        (calls sampleBase sampleIdentifiers sampleSession).2.disk :=
  have hbase : sampleBase.WellFormed := Location.wellFormed_parse _
  have hgit := asksGit_sampleSession
  ⟨hbase, rfl, hgit.actsAsGit, hgit.enough,
    heads_kept hbase rfl sampleIdentifiers hgit.actsAsGit hgit.enough⟩

/-- Both revisions of the sample are checked out at the same place. The second call moves the head
from the commit of the first one. -/
theorem calls_share_head :
    (∀ r ∈ sampleSession.recorder.script, r.ActsAsGit) ∧
      3 * sampleIdentifiers.length ≤ sampleSession.recorder.script.length ∧
      (calls sampleBase sampleIdentifiers sampleSession).1 =
        [⟨"https://example.com/zlib.git#second", some samplePlace, some "second"⟩,
          ⟨"https://example.com/zlib.git#v1", some samplePlace, some "first"⟩] ∧
      (calls sampleBase sampleIdentifiers sampleSession).2.disk.head? samplePlace = some "first" :=
  ⟨asksGit_sampleSession.actsAsGit, asksGit_sampleSession.enough, by decide +kernel,
    by decide +kernel⟩

end Fetcher

end Makewright
