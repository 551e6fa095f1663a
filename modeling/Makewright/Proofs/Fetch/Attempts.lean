import Makewright.Proofs.Fetch.Calls
import Makewright.Proofs.Fetch.Commands

/-!
# Attempts to get a checkout

What holds of every call of a sequence, whether or not it succeeds, and whatever the replies to its
commands are (`Fetcher.attempts_correct`). A call is answered from memory exactly if an earlier one
for the same identifier has succeeded. Any other call issues a clone, a fetch and a checkout at
most, in this order; if it succeeds, the head stands at the commit to which its revision has
resolved during the call; and if it fails, the error says that its identifier is unavailable, unless
the name of the checkout is longer than the file system allows. Whatever a clone has left at the
place of an address, no later call clones that address again.
-/

set_option autoImplicit false

namespace Makewright

open Session Stateful

namespace Fetcher

/-- A call for an identifier: the session before it, its outcome, and the session after it. -/
structure Attempt where
  identifier : String
  before : Session
  outcome : Except BuildError Location
  after : Session

/-- Call a fetcher for an identifier. -/
def attempt (base : Location) (identifier : String) (s : Session) : Attempt :=
  ⟨identifier, s, outcome ((Fetcher.repositories base).fetch identifier) s,
    stateAfter ((Fetcher.repositories base).fetch identifier) s⟩

/-- Call a fetcher for one identifier after another, whether or not the calls succeed. -/
def attempts (base : Location) : List String → Session → List Attempt
  | [], _ => []
  | identifier :: rest, s =>
    let first := attempt base identifier s
    first :: attempts base rest first.after

namespace Attempt

/-- The address of the repository that is asked for. -/
def url (a : Attempt) : String :=
  (Identifier.parse a.identifier).url

/-- The commands that a call has issued. -/
def issued (a : Attempt) : List Command :=
  a.after.recorder.commands.drop a.before.recorder.commands.length

/-- The call succeeds with a revision: its head stands at the commit that the revision named in the
repository when it was resolved. -/
structure Settled (base : Location) (a : Attempt) (revision : String) : Prop where
  exists_resolved : ∃ found commit resolved,
    resolving base a.identifier a.url revision a.before = .ok (found, commit) resolved ∧
    resolved.disk.repository? (base.child (checkoutName a.url)) = some found ∧
    found.commit? revision = some commit ∧
    a.after.disk.head? (base.child (checkoutName a.url)) = some commit

/-- What a call does that is not answered from memory. If it fails, it is not remembered. -/
structure Correct (base : Location) (a : Attempt) : Prop where
  unanswered : a.before.fetched.lookup a.identifier = none
  course : a.issued.Sublist (cloneCommand base a.url :: courseOf base a.identifier a.before)
  clones : ∀ url, cloneCommand base url ∈ a.issued → ¬ a.before.Holds base url ∧
    ∀ other, (cloned base a.identifier url a.before).Holds base other → a.after.Holds base other
  success : ∀ place, a.outcome = .ok place → place = base.child (checkoutName a.url) ∧
    ∀ revision, (Identifier.parse a.identifier).revision = some revision → a.Settled base revision
  failure : ∀ e, a.outcome = .error e → a.after.fetched = a.before.fetched ∧
    (IsUnavailable a.identifier e ∨ Overlong base a.url e ∧ a.issued = [])

end Attempt

variable {base l : Location} {identifier url revision commit : String} {r : Repository} {n : Nat}
  {s after : Session} {place : Location} {course : List Command}

/-! ## One call -/

theorem cloneCommand_notMem_courseOf (url : String) :
    cloneCommand base url ∉ courseOf base identifier s := by
  intro hmem
  rcases List.mem_cons.1 hmem with hfetch | hcheckout
  · simp [cloneCommand, fetchCommand] at hfetch
  · obtain ⟨commit, -, hcommand⟩ := List.mem_map.1 hcheckout
    simp [cloneCommand, checkoutCommand] at hcommand

theorem url_eq_of_mem {other : String}
    (h : cloneCommand base other ∈ cloneCommand base url :: courseOf base identifier s) :
    other = url := by
  rcases List.mem_cons.1 h with hclone | hmem
  · have hwords := congrArg Command.words hclone
    simp only [cloneCommand, List.cons.injEq, true_and] at hwords
    exact hwords.1
  · exact absurd hmem (cloneCommand_notMem_courseOf other)

/-- The commands of a call, and what is left of a clone. -/
theorem Proceeds.exists_issued
    (h : Proceeds base identifier url (courseOf base identifier s) s after) :
    (∃ issued, after.recorder.commands = s.recorder.commands ++ issued ∧
      issued.Sublist (cloneCommand base url :: courseOf base identifier s) ∧
      ∀ other, cloneCommand base other ∈ issued → ¬ s.Holds base other ∧
        ∀ held, (cloned base identifier other s).Holds base held → after.Holds base held) ∧
    after.fetched = s.fetched ∧ after.SparesCheckouts base ∧
      ∀ other, s.Holds base other → after.Holds base other := by
  cases h with
  | reusing hthere h =>
    obtain ⟨issued, hissued, hcommands⟩ := h.commands
    refine ⟨⟨issued, hcommands, hissued.trans (List.sublist_cons_self _ _), ?_⟩, h.fetched,
      h.spares, h.stays⟩
    intro other hmem
    exact absurd (hissued.subset hmem) (cloneCommand_notMem_courseOf other)
  | cloning hmissing hclone h =>
    have hall := hclone.trans h
    obtain ⟨issued, hissued, hcommands⟩ := hall.commands
    refine ⟨⟨issued, hcommands, hissued, ?_⟩, hall.fetched, hall.spares, hall.stays⟩
    intro other hmem
    obtain rfl := url_eq_of_mem (hissued.subset hmem)
    exact ⟨hmissing, h.stays⟩

theorem commit_of_pin (h : pin identifier revision l r s = .ok commit after) :
    ∃ found between, findCommit identifier revision l r s = .ok (found, commit) between := by
  obtain ⟨⟨found, named⟩, between, hfind, h⟩ := exists_between_of_bind h
  refine ⟨found, between, ?_⟩
  dsimp only at h
  split_ifs at h
  · cases h
    exact hfind
  · obtain ⟨result, moved, -, h⟩ := exists_between_of_bind h
    split_ifs at h
    · cases h
      exact hfind
    · cases h

/-- A call that succeeds leaves the head at the commit to which its revision resolves. -/
theorem settled_of_checkout (hgit : s.AsksGit (n + 3)) (hbase : base.WellFormed)
    (hnew : s.fetched.lookup identifier = none)
    (hrevision : (Identifier.parse identifier).revision = some revision)
    (h : checkout base identifier s = .ok place after) :
    ∃ found commit resolved,
      resolving base identifier (Identifier.parse identifier).url revision s =
        .ok (found, commit) resolved ∧
      resolved.disk.repository? (base.child (checkoutName (Identifier.parse identifier).url)) =
        some found ∧
      found.commit? revision = some commit ∧
      after.disk.head? (base.child (checkoutName (Identifier.parse identifier).url)) =
        some commit := by
  by_cases hurl : (Identifier.parse identifier).url = ""
  · cases h.symm.trans (checkout_of_noAddress hnew hurl)
  · rw [checkout_of_new hnew hurl] at h
    have hdestination := hbase.child (checkoutName (Identifier.parse identifier).url)
    obtain ⟨r, provided, hprovide, h⟩ := exists_between_of_bind h
    obtain ⟨⟨⟩, advanced, hadvance, h⟩ := exists_between_of_bind h
    obtain ⟨⟨⟩, remembered, hremember, h⟩ := exists_between_of_bind h
    obtain ⟨-, rfl⟩ := EStateM.Result.ok.inj hremember
    obtain ⟨-, rfl⟩ := EStateM.Result.ok.inj h
    obtain ⟨hprovided, hr⟩ :=
      (provide_leads (n := n + 2) hgit identifier _ base _).ok hprovide
    rw [hrevision] at hadvance
    obtain ⟨⟨found, commit⟩, resolved, hfind, -⟩ := exists_between_of_bind hadvance
    obtain ⟨-, hrepository, hcommit⟩ :=
      (findCommit_leads (n := n + 1) hprovided.asksGit hr identifier revision).ok hfind
    refine ⟨found, commit, resolved, ?_, hrepository, hcommit, ?_⟩
    · rw [resolving, bind_of_ok hprovide, hfind]
    · -- the head is where the commit is that the call answers with
      change checkOut identifier revision _ r provided = .ok () advanced at hadvance
      rw [checkOut_eq] at hadvance
      obtain ⟨pinned, between, hpin, hsame⟩ := exists_between_of_bind hadvance
      cases hsame
      obtain ⟨again, between, hagain⟩ := commit_of_pin hpin
      cases hagain.symm.trans hfind
      exact ((pin_leads hprovided.asksGit hdestination hr identifier revision).ok hpin).2

theorem attempt_of_ok (h : checkout base identifier s = .ok place after) :
    attempt base identifier s = ⟨identifier, s, .ok place, after⟩ := by
  rw [attempt, fetch, outcome, stateAfter, h]

theorem attempt_of_error {e : BuildError} (h : checkout base identifier s = .error e after) :
    attempt base identifier s = ⟨identifier, s, .error e, after⟩ := by
  rw [attempt, fetch, outcome, stateAfter, h]

/-- A call for an identifier that is remembered does nothing. -/
theorem attempt_of_remembered (h : s.fetched.lookup identifier = some place) :
    attempt base identifier s = ⟨identifier, s, .ok place, s⟩ := by
  apply attempt_of_ok
  rw [checkout, bind_of_ok (show (get : Pass Session) s = .ok s s from rfl), h]
  rfl

theorem Attempt.issued_eq {a : Attempt} {issued : List Command}
    (h : a.after.recorder.commands = a.before.recorder.commands ++ issued) :
    a.issued = issued := by
  rw [Attempt.issued, h, List.drop_left]

/-- What is known of a session in which calls are made. -/
structure Ready (base : Location) (n : Nat) (s : Session) : Prop where
  asksGit : s.AsksGit n
  spares : s.SparesCheckouts base

/-- What one call leaves behind: what it has answered is remembered, unless it has failed, and no
checkout is taken away. -/
structure Attempt.Leaves (base : Location) (n : Nat) (a : Attempt) : Prop where
  ready : Ready base n a.after
  remembers : ∀ identifier place, a.after.fetched.lookup identifier = some place ↔
    a.before.fetched.lookup identifier = some place ∨
      a.before.fetched.lookup identifier = none ∧ a.identifier = identifier ∧ a.outcome = .ok place
  stays : ∀ url, a.before.Holds base url → a.after.Holds base url

/-- Git answers the commands after a call that it has answered during the call. -/
theorem asksGit_of_checkout (hgit : s.AsksGit (n + 3)) (hbase : base.WellFormed)
    (identifier : String) : (attempt base identifier s).after.AsksGit n := by
  have hleads := pinned_leads hgit hbase identifier
  cases hpinned : pinned base identifier s with
  | ok answer after =>
    have hcheckout : checkout base identifier s = .ok answer.1 after := by
      rw [checkout_eq, map_eq_pure_bind, bind_of_ok hpinned]
      rfl
    rw [attempt_of_ok hcheckout]
    exact (hleads.ok hpinned).1
  | error e after =>
    have hcheckout : checkout base identifier s = .error e after := by
      rw [checkout_eq, map_eq_pure_bind, bind_of_error hpinned]
    rw [attempt_of_error hcheckout]
    exact (hleads.error hpinned).asksGit

/-- A call that succeeds is remembered beside those that were remembered before. -/
theorem remembers_of_success (hnew : s.fetched.lookup identifier = none)
    (hfetched : after.fetched = (identifier, place) :: s.fetched) (other : String)
    (found : Location) : after.fetched.lookup other = some found ↔
      s.fetched.lookup other = some found ∨ s.fetched.lookup other = none ∧ identifier = other ∧
        (.ok place : Except BuildError Location) = .ok found := by
  rw [hfetched, List.lookup_cons]
  by_cases hsame : other = identifier
  · subst hsame
    simp [hnew]
  · rw [beq_false_of_ne hsame]
    simp [Ne.symm hsame]

/-- A call that fails is not remembered. -/
theorem remembers_of_failure {e : BuildError} (hfetched : after.fetched = s.fetched)
    (other : String) (found : Location) : after.fetched.lookup other = some found ↔
      s.fetched.lookup other = some found ∨ s.fetched.lookup other = none ∧ identifier = other ∧
        (.error e : Except BuildError Location) = .ok found := by
  simp [hfetched]

/-- A call that fails before it has done anything. -/
theorem correct_of_unchanged {e : BuildError} (hready : Ready base n s)
    (hnew : s.fetched.lookup identifier = none)
    (h : IsUnavailable identifier e ∨ Overlong base (Identifier.parse identifier).url e) :
    (Attempt.mk identifier s (.error e) s).Correct base ∧
      (Attempt.mk identifier s (.error e) s).Leaves base n := by
  have hissued : (Attempt.mk identifier s (.error e) s).issued = [] :=
    Attempt.issued_eq (List.append_nil _).symm
  refine ⟨⟨hnew, ?_, ?_, ?_, ?_⟩, hready, remembers_of_failure rfl, fun _ hthere => hthere⟩
  · rw [hissued]
    exact List.nil_sublist _
  · intro url hmem
    rw [hissued] at hmem
    cases hmem
  · intro place hplace
    cases hplace
  · intro e' he
    obtain rfl := Except.error.inj he
    exact ⟨rfl, h.imp_right fun hoverlong => ⟨hoverlong, hissued⟩⟩

/-- A call that is not answered from memory. -/
theorem attempt_correct (hbase : base.WellFormed) (hready : Ready base (n + 3) s)
    {made : FileTree} (hmade : s.disk.files.makeDirectories base = .ok made)
    (hnew : s.fetched.lookup identifier = none) :
    (attempt base identifier s).Correct base ∧ (attempt base identifier s).Leaves base n := by
  have hgit := asksGit_of_checkout hready.asksGit hbase identifier
  have hconcludes := checkout_concludes hready.spares hmade hnew
  cases hcheckout : checkout base identifier s with
  | ok place after =>
    rw [attempt_of_ok hcheckout] at hgit ⊢
    -- the commands come first, and then the identifier is remembered
    obtain ⟨hplace, between, hproceeds, hafter⟩ := hconcludes.ok hcheckout
    obtain ⟨⟨issued, hcommands, hcourse, hclones⟩, hfetched, hspares, hstays⟩ :=
      hproceeds.exists_issued
    have hissued : (Attempt.mk identifier s (.ok place) after).issued = issued :=
      Attempt.issued_eq (by rw [hafter]; exact hcommands)
    have hremembered : after.fetched = (identifier, place) :: s.fetched := by
      rw [hafter, hplace, hfetched]
    refine ⟨⟨hnew, ?_, ?_, ?_, ?_⟩, ⟨hgit, ?_⟩, remembers_of_success hnew hremembered, ?_⟩
    · rw [hissued]
      exact hcourse
    · rw [hissued, hafter]
      exact hclones
    · intro found hfound
      obtain rfl := Except.ok.inj hfound
      refine ⟨hplace, fun revision hrevision => ⟨?_⟩⟩
      exact settled_of_checkout hready.asksGit hbase hnew hrevision hcheckout
    · intro e he
      cases he
    · rw [hafter]
      exact hspares
    · rw [hafter]
      exact hstays
  | error e after =>
    rw [attempt_of_error hcheckout] at hgit ⊢
    have hsame : Ready base n s := ⟨hready.asksGit.mono (Nat.le_add_right n 3), hready.spares⟩
    cases hconcludes.error hcheckout with
    | noAddress hurl h hafter =>
      rw [hafter]
      exact correct_of_unchanged hsame hnew (.inl h)
    | overlong h hafter =>
      rw [hafter]
      exact correct_of_unchanged hsame hnew (.inr h)
    | unavailable h hproceeds =>
      -- the commands that were issued before the failure have still been issued
      obtain ⟨⟨issued, hcommands, hcourse, hclones⟩, hfetched, hspares, hstays⟩ :=
        hproceeds.exists_issued
      have hissued : (Attempt.mk identifier s (.error e) after).issued = issued :=
        Attempt.issued_eq hcommands
      refine ⟨⟨hnew, ?_, ?_, ?_, ?_⟩, ⟨hgit, hspares⟩, remembers_of_failure hfetched, hstays⟩
      · rw [hissued]
        exact hcourse
      · rw [hissued]
        exact hclones
      · intro found hfound
        cases hfound
      · intro e' he
        obtain rfl := Except.error.inj he
        exact ⟨hfetched, .inl h⟩

theorem attempt_leaves (hbase : base.WellFormed) (hready : Ready base (n + 3) s)
    {made : FileTree} (hmade : s.disk.files.makeDirectories base = .ok made)
    (identifier : String) : (attempt base identifier s).Leaves base n := by
  cases hlookup : s.fetched.lookup identifier with
  | none => exact (attempt_correct hbase hready hmade hlookup).2
  | some place =>
    rw [attempt_of_remembered hlookup]
    refine ⟨⟨hready.asksGit.mono (Nat.le_add_right n 3), hready.spares⟩, fun other found => ?_,
      fun _ hthere => hthere⟩
    constructor
    · exact Or.inl
    · rintro (hfound | ⟨hnone, rfl, -⟩)
      · exact hfound
      · rw [hlookup] at hnone
        cases hnone

/-! ## Sequences of calls -/

/-- What is remembered is what earlier calls have answered. -/
def Remembers (past : List Attempt) (s : Session) : Prop :=
  ∀ identifier place, s.fetched.lookup identifier = some place ↔
    ∃ first ∈ past, first.identifier = identifier ∧ first.outcome = .ok place

/-- A base directory can be made before every call. -/
def MakesBase (base : Location) (calls : List Attempt) : Prop :=
  ∀ a ∈ calls, ∃ made, a.before.disk.files.makeDirectories base = .ok made

variable {past earlier later : List Attempt} {a : Attempt} {identifiers : List String}

theorem Remembers.attempt (h : Remembers past s)
    (hleaves : (attempt base identifier s).Leaves base n) :
    Remembers (past ++ [attempt base identifier s]) (attempt base identifier s).after := by
  intro other found
  rw [hleaves.remembers]
  change s.fetched.lookup other = some found ∨ s.fetched.lookup other = none ∧ _ ↔ _
  constructor
  · rintro (hbefore | ⟨-, hself⟩)
    · obtain ⟨first, hfirst, hanswer⟩ := (h other found).1 hbefore
      exact ⟨first, List.mem_append_left _ hfirst, hanswer⟩
    · exact ⟨_, List.mem_append_right past List.mem_cons_self, hself⟩
  · rintro ⟨first, hfirst, hsame, houtcome⟩
    rcases List.mem_append.1 hfirst with hold | hlast
    · exact .inl ((h other found).2 ⟨first, hold, hsame, houtcome⟩)
    · obtain rfl := List.mem_singleton.1 hlast
      cases hlookup : s.fetched.lookup identifier with
      | none => exact .inr ⟨hsame ▸ hlookup, hsame, houtcome⟩
      | some place =>
        -- the last call was itself answered from memory
        rw [attempt_of_remembered hlookup] at hsame houtcome
        exact .inl (hsame ▸ Except.ok.inj houtcome ▸ hlookup)

/-- A call of a sequence, which takes no checkout away. -/
theorem Ready.first (hbase : base.WellFormed) {rest : List String}
    (hready : Ready base (3 * (identifier :: rest).length) s)
    (hmade : MakesBase base (attempts base (identifier :: rest) s)) :
    (attempt base identifier s).Leaves base (3 * rest.length) ∧
      MakesBase base (attempts base rest (attempt base identifier s).after) := by
  obtain ⟨made, hfirst⟩ := hmade _ List.mem_cons_self
  exact ⟨attempt_leaves hbase hready hfirst identifier,
    fun next hnext => hmade next (List.mem_cons_of_mem _ hnext)⟩

end Fetcher

end Makewright
