import Makewright.Proofs.Fetch.Git
import Makewright.Proofs.Location

/-!
# What a call for a checkout does

The commit that a call gets checked out is no part of its answer. `pinned` answers it as well and
does otherwise what `checkout` does (`checkout_eq`). A call that is answered anew leaves the head at
the place that it answers where the commit is, and no call moves another head (`pinned_leads`).
-/

set_option autoImplicit false

namespace Makewright

open Makewright.Path Session

/-! ## Names of checkouts -/

section Names

theorem noSlash_of_isPlainNameChar {c : Char} (h : isPlainNameChar c) : c ≠ '/' := by
  rintro rfl
  exact absurd h (by decide)

theorem noSlash_replaceUnsafe (inRun : Bool) (text : List Char) :
    '/' ∉ replaceUnsafe inRun text := by
  induction text generalizing inRun with
  | nil => exact List.not_mem_nil
  | cons c rest ih =>
    unfold replaceUnsafe
    split_ifs with hplain hrun
    · exact List.not_mem_cons_of_ne_of_not_mem (noSlash_of_isPlainNameChar hplain).symm (ih false)
    · exact ih true
    · exact List.not_mem_cons_of_ne_of_not_mem (by decide) (ih true)

theorem noSlash_hexDigest (message : List UInt8) : '/' ∉ (Sha1.hexDigest message).toList := by
  unfold Sha1.hexDigest
  rw [String.toList_ofList]
  intro h
  obtain ⟨word, -, hword⟩ := List.mem_flatMap.1 h
  rcases List.mem_append.1 hword with hzero | hdigit
  · exact absurd (List.eq_of_mem_replicate hzero) (by decide)
  · exact Text.noSlash_toDigits (by decide) (by decide) word.toNat hdigit

/-- The name of a checkout is one plain component. -/
theorem isPlain_checkoutName (url : String) : IsPlain (checkoutName url).toList := by
  -- the dash between the two parts tells the name from a dot and from two
  have hdash : '-' ∈ (checkoutName url).toList := by
    simp [checkoutName]
  refine ⟨?_, ?_, ?_, ?_⟩
  · exact List.ne_nil_of_mem hdash
  · intro h
    rw [h] at hdash
    exact absurd hdash (by decide)
  · intro h
    rw [h] at hdash
    exact absurd hdash (by decide)
  · have hstem : '/' ∉ (if (replaceUnsafe false (repositoryStem url)).isEmpty then "source"
        else String.ofList (replaceUnsafe false (repositoryStem url))).toList := by
      split_ifs
      · decide
      · rw [String.toList_ofList]
        exact noSlash_replaceUnsafe false (repositoryStem url)
    have hdigest : '/' ∉ (Sha1.hexDigest url.toUTF8.toList).toList.take 10 :=
      fun h => noSlash_hexDigest url.toUTF8.toList (List.mem_of_mem_take h)
    simp only [checkoutName, String.toList_append, List.mem_append, String.toList_ofList, not_or]
    exact ⟨⟨hstem, by decide⟩, hdigest⟩

end Names

/-! ## Calls and the commits that they get checked out -/

namespace Fetcher

/-- Have a revision checked out, and answer with its commit. -/
def pin (identifier revision : String) (l : Location) (r : Repository) : Pass String := do
  let (r, commit) ← findCommit identifier revision l r
  if r.headCommit? = some commit then pure commit
  else
    let result ← Pass.run ["git", "checkout", "--quiet", "--detach", commit] (some l)
    if result.returncode = 0 then pure commit
    else
      throw (unavailable identifier (reasonOf result ("unable to check out '" ++ revision ++ "'")))

/-- The repository of an address at its place, cloned if nothing is there. -/
def provide (identifier url : String) (base destination : Location) : Pass Repository := do
  let found ← Pass.onFiles (·.isThere destination)
  let () ←
    if found then
      Pass.report .debug .fetcher
        ("reusing checkout of " ++ url ++ " at " ++ destination.render)
    else clone base identifier url destination
  openRepository identifier destination

/-- The commit of a revision that is checked out, if one is named. -/
def pin? (identifier : String) (l : Location) (r : Repository) :
    Option String → Pass (Option String)
  | some revision => some <$> pin identifier revision l r
  | none => pure none

/-- The checkout that an identifier names, and the commit that the call got checked out there: none
when no revision is named or the checkout is remembered from an earlier call. -/
def pinned (base : Location) (identifier : String) : Pass (Location × Option String) := do
  match (← get).fetched.lookup identifier with
  | some l => pure (l, none)
  | none =>
    let ⟨url, revision⟩ := Identifier.parse identifier
    if url.isEmpty then throw (unavailable identifier "no repository URL given")
    else
      let destination := base.child (checkoutName url)
      let r ← provide identifier url base destination
      let commit ← pin? identifier destination r revision
      modify fun s => { s with fetched := (identifier, destination) :: s.fetched }
      pure (destination, commit)

theorem checkOut_eq (identifier revision : String) (l : Location) (r : Repository) :
    checkOut identifier revision l r = (do let _ ← pin identifier revision l r) := by
  unfold checkOut pin
  simp only [bind_assoc]
  refine bind_congr fun found => ?_
  by_cases hhead : found.1.headCommit? = some found.2
  · simp [hhead]
  · simp only [ne_eq, hhead, not_false_eq_true, if_true, if_false, bind_assoc]
    refine bind_congr fun result => ?_
    by_cases hsuccess : result.returncode = 0
    · simp [hsuccess]
    · simp only [hsuccess, not_false_eq_true, if_true, if_false]
      rfl

/-- Apart from the commit in its answer, `pinned` is `checkout`. -/
theorem checkout_eq (base : Location) (identifier : String) :
    checkout base identifier = Prod.fst <$> pinned base identifier := by
  unfold checkout pinned provide
  simp only [checkOut_eq, map_bind]
  refine bind_congr fun s => ?_
  cases s.fetched.lookup identifier with
  | some l => simp
  | none =>
    obtain ⟨url, revision⟩ := Identifier.parse identifier
    by_cases hurl : url.isEmpty
    · simp only [hurl, if_true]
      rfl
    · simp only [hurl, if_false, Bool.false_eq_true, map_bind, bind_assoc]
      refine bind_congr fun found => ?_
      cases found <;> cases revision <;> simp [pin?]

variable {n : Nat} {s after : Session} {base l : Location} {identifier : String}

/-- A checkout asks for the head at the location whose text is its working directory. -/
theorem place_eq_of_checksOut (hl : l.WellFormed) {words : List String} {commit : String}
    {place : Location}
    (h : Command.ChecksOut ⟨words, (some l).map Location.render, []⟩ commit place) : place = l := by
  have hplace : some (Location.parse l.render) = some place := h.cwd_eq
  rw [Location.parse_render hl] at hplace
  exact (Option.some.inj hplace).symm

/-- A revision that is checked out leaves the head at its commit and spares the other heads; where
that fails, all heads stay where they stand. -/
theorem pin_leads (h : s.AsksGit (n + 2)) (hl : l.WellFormed) {r : Repository}
    (hr : s.disk.repository? l = some r) (identifier revision : String) :
    Leads (fun commit after => s.Passes n (fun other => other.settled ≠ l.settled) after ∧
        after.disk.head? l = some commit) (s.SparesAll n)
      (pin identifier revision l r) s := by
  refine .seq (findCommit_leads h hr identifier revision)
    (fun after hafter => hafter.le (Nat.le_succ n)) ?_
  rintro ⟨found, commit⟩ between ⟨hfound, hrepository, hcommit⟩
  by_cases hhead : found.headCommit? = some commit
  · -- no command is run
    simp only [hhead, if_true]
    refine .pure ⟨.of_all (hfound.le (Nat.le_succ n)), ?_⟩
    rw [Disk.head?, hrepository]
    exact hhead
  · simp only [hhead, if_false]
    refine .seq (Pass.run_leads hfound.asksGit _ (some l)) (fun _ hbad => hbad) ?_
    rintro result after ⟨hspares, hmoves⟩
    by_cases hsuccess : result.returncode = 0
    · simp only [hsuccess, if_true]
      refine .pure ⟨(Passes.of_all hfound).trans
        (hspares.mono fun other hother _ name place hasks => ?_), ?_⟩
      · rw [place_eq_of_checksOut hl hasks]
        exact hother.symm
      · exact hmoves commit l found hsuccess ⟨rfl, congrArg some (Location.parse_render hl)⟩
          hrepository (Repository.mem_of_commit? hcommit)
    · simp only [hsuccess, if_false]
      exact .throw (hfound.trans (hspares.mono fun _ _ hzero => absurd hzero hsuccess))

theorem pin?_leads (h : s.AsksGit (n + 2)) (hl : l.WellFormed) {r : Repository}
    (hr : s.disk.repository? l = some r) (identifier : String) (revision : Option String) :
    Leads (fun commit after =>
        s.Passes n (fun other => commit = none ∨ other.settled ≠ l.settled) after ∧
        (∀ c, commit = some c → after.disk.head? l = some c) ∧ commit.isSome = revision.isSome)
      (s.SparesAll n) (pin? identifier l r revision) s := by
  cases revision with
  | none =>
    refine .pure ⟨.of_all (h.spares.le (Nat.le_add_right n 2)), ?_, rfl⟩
    rintro c ⟨⟩
  | some revision =>
    rw [pin?, map_eq_pure_bind]
    refine .seq (pin_leads h hl hr identifier revision) (fun _ hbad => hbad) ?_
    rintro commit after ⟨hspares, hhead⟩
    refine .pure ⟨hspares.mono fun other hother => ?_, ?_, rfl⟩
    · exact hother.resolve_left (Option.some_ne_none commit)
    · rintro c ⟨⟩
      exact hhead

theorem provide_leads (h : s.AsksGit (n + 1)) (identifier url : String)
    (base destination : Location) :
    Leads (fun r after => s.SparesAll n after ∧ after.disk.repository? destination = some r)
      (s.SparesAll n) (provide identifier url base destination) s := by
  have hspares : s.SparesAll n s := h.spares.le (Nat.le_succ n)
  have hopens : ∀ between, s.SparesAll n between →
      Leads (fun r after => s.SparesAll n after ∧ after.disk.repository? destination = some r)
        (s.SparesAll n) (openRepository identifier destination) between := by
    intro between hbetween
    refine (openRepository_leads hbetween.asksGit identifier destination).mono ?_ ?_
    · exact fun r after hopened => ⟨hbetween.trans hopened.1, hopened.2⟩
    · exact fun after hafter => hbetween.trans hafter
  refine .bind (Pass.onFiles_leads (fun found _ => ?_) fun _ _ => hspares)
  cases found with
  | true =>
    exact .seq (Pass.report_leads hspares.asksGit _ _ _) (fun _ hbad => hbad)
      fun _ between hreported => hopens between hreported.1
  | false =>
    exact .seq (clone_leads h base identifier url destination) (fun _ hbad => hbad)
      fun _ between hcloned => hopens between hcloned

/-- What a call does that is answered anew: it is remembered, the head at its place stands at the
commit that it got checked out, and apart from that the heads stay where they stand. -/
structure Serves (base : Location) (identifier : String) (s : Session) (place : Location)
    (commit : Option String) (after : Session) : Prop where
  isChild : ∃ name, IsPlain name.toList ∧ place = base.child name
  fetched : after.fetched = (identifier, place) :: s.fetched
  named : commit.isSome = (Identifier.parse identifier).revision.isSome
  moves : ∀ c, commit = some c → after.disk.head? place = some c
  keeps : ∀ other c, commit = none ∨ other.settled ≠ place.settled →
    s.disk.head? other = some c → after.disk.head? other = some c

/-- The head of a checkout stays where it stands, unless the call gets another commit checked out
there. -/
theorem Serves.keeps_undisturbed {place elsewhere : Location} {commit : Option String} {c : String}
    (h : Serves base identifier s place commit after)
    (hchild : ∃ name, IsPlain name.toList ∧ elsewhere = base.child name)
    (hhead : s.disk.head? elsewhere = some c)
    (hundisturbed : ∀ other, commit = some other → place = elsewhere → other = c) :
    after.disk.head? elsewhere = some c := by
  by_cases hsame : elsewhere.settled = place.settled
  · -- the checkout is shared, so its head stays only if the commit is the same
    obtain ⟨name, hname, rfl⟩ := hchild
    obtain ⟨other, hother, rfl⟩ := h.isChild
    have hplace := Location.child_plain_injective hname hother hsame
    cases commit with
    | none => exact h.keeps _ c (.inl rfl) hhead
    | some moved =>
      rw [hplace, ← hundisturbed moved rfl hplace.symm]
      exact h.moves moved rfl
  · exact h.keeps elsewhere c (.inr hsame) hhead

/-- A call is answered from an earlier one or anew; a call that fails spares every head. -/
theorem pinned_leads (h : s.AsksGit (n + 3)) (hbase : base.WellFormed) (identifier : String) :
    Leads (fun answer after => after.AsksGit n ∧
        (s.fetched.lookup identifier = some answer.1 ∧ answer.2 = none ∧ after = s ∨
          Serves base identifier s answer.1 answer.2 after)) (s.SparesAll n)
      (pinned base identifier) s := by
  refine .get_bind ?_
  cases hlookup : s.fetched.lookup identifier with
  | some l => exact .pure ⟨h.mono (Nat.le_add_right n 3), .inl ⟨rfl, rfl, rfl⟩⟩
  | none =>
    rcases hparse : Identifier.parse identifier with ⟨url, revision⟩
    by_cases hurl : url.isEmpty
    · simp only [hurl, if_true]
      exact .throw (h.spares.le (Nat.le_add_right n 3))
    · simp only [hurl, if_false, Bool.false_eq_true]
      have hdestination := hbase.child (checkoutName url)
      -- which name the checkout has no longer matters, only that it is a plain one
      generalize hplace : base.child (checkoutName url) = destination at hdestination ⊢
      refine .seq (provide_leads h identifier url base _)
        (fun after hafter => hafter.le (Nat.le_add_right n 2)) ?_
      rintro r between ⟨hprovided, hr⟩
      refine .seq (pin?_leads hprovided.asksGit hdestination hr identifier revision)
        (fun after hafter => (hprovided.le (Nat.le_add_right n 2)).trans hafter) ?_
      rintro commit after ⟨hpinned, hmoves, hnamed⟩
      refine .bind (.modify (.pure ⟨⟨hpinned.asksGit.actsAsGit, hpinned.asksGit.enough⟩,
        .inr ⟨?_, ?_, ?_, hmoves, ?_⟩⟩))
      · exact ⟨checkoutName url, isPlain_checkoutName url, hplace.symm⟩
      · rw [← hprovided.fetched, ← hpinned.fetched]
      · rw [hparse]
        exact hnamed
      · intro other c hother hhead
        exact hpinned.heads other c hother (hprovided.heads other c trivial hhead)

end Fetcher

end Makewright
