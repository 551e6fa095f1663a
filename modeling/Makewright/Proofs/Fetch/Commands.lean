import Makewright.Proofs.Fetch.Checkout

/-!
# The commands of a call for a checkout

A call that is not answered from memory clones the repository of its address unless something is at
its place, fetches if the revision is not there, and checks the commit of the revision out if the
head is elsewhere. It issues these three commands at most, in this order, whatever their replies
are (`Fetcher.checkout_concludes`). All that is assumed is that no reply takes a checkout away
(`Reply.SparesCheckouts`) and that the base directory can be made.

A call fails with the error that its identifier is unavailable. Only where the name of the checkout
is longer than the file system allows, the fault of the file system is passed on.
-/

set_option autoImplicit false

namespace Makewright

open Stateful

/-- The reply does not take checkouts away: what is there stays there. -/
def Reply.SparesCheckouts (base : Location) (r : Reply) : Prop :=
  ∀ c disk url, disk.files.isThere (base.child (checkoutName url)) = .ok true →
    (r.effect c disk).files.isThere (base.child (checkoutName url)) = .ok true

namespace Session

variable {base : Location} {s between after : Session} {course more : List Command}

/-- Something is at the place of the checkout of an address. -/
def Holds (base : Location) (url : String) (s : Session) : Prop :=
  s.disk.files.isThere (base.child (checkoutName url)) = .ok true

/-- The replies to come do not take checkouts away. -/
def SparesCheckouts (base : Location) (s : Session) : Prop :=
  ∀ r ∈ s.recorder.script, r.SparesCheckouts base

/-- Steps of a pass that issue some of the commands, in their order. They take no checkout away and
leave what is remembered as it is. -/
structure Issues (base : Location) (course : List Command) (s after : Session) : Prop where
  commands : ∃ issued, issued.Sublist course ∧
    after.recorder.commands = s.recorder.commands ++ issued
  fetched : after.fetched = s.fetched
  spares : after.SparesCheckouts base
  stays : ∀ url, s.Holds base url → after.Holds base url

theorem SparesCheckouts.issues (h : s.SparesCheckouts base) (course : List Command) :
    s.Issues base course s :=
  ⟨⟨[], List.nil_sublist course, (List.append_nil _).symm⟩, rfl, h, fun _ hthere => hthere⟩

namespace Issues

theorem trans (h : s.Issues base course between) (h' : between.Issues base more after) :
    s.Issues base (course ++ more) after := by
  obtain ⟨issued, hissued, hcommands⟩ := h.commands
  obtain ⟨further, hfurther, hcommands'⟩ := h'.commands
  refine ⟨⟨issued ++ further, hissued.append hfurther, ?_⟩, h'.fetched.trans h.fetched, h'.spares,
    fun url hthere => h'.stays url (h.stays url hthere)⟩
  rw [hcommands', hcommands, List.append_assoc]

theorem mono (h : s.Issues base course after) (hmore : course.Sublist more) :
    s.Issues base more after := by
  obtain ⟨issued, hissued, hcommands⟩ := h.commands
  exact ⟨⟨issued, hissued.trans hmore, hcommands⟩, h.fetched, h.spares, h.stays⟩

end Issues

end Session

namespace Pass

variable {base : Location} {s : Session} {bad : BuildError → Session → Prop}

theorem report_concludes (h : s.SparesCheckouts base) (level : LogLevel) (reporter : Reporter)
    (text : String) :
    Concludes (fun _ after => s.Issues base [] after ∧ after.disk = s.disk) bad
      (Pass.report level reporter text) s :=
  .modify ⟨⟨⟨[], List.nil_sublist [], (List.append_nil _).symm⟩, rfl, h, fun _ hthere => hthere⟩,
    rfl⟩

/-- A command is issued, whatever comes of it. -/
theorem run_concludes (h : s.SparesCheckouts base) (words : List String) (cwd : Option Location) :
    Concludes (fun _ after => s.Issues base [⟨words, cwd.map Location.render, []⟩] after) bad
      (Pass.run words cwd) s := by
  refine .get_bind (.bind (fun _ next hset => ?_) fun e after hset => nomatch hset)
  cases hset
  refine .pure ⟨⟨_, List.Sublist.refl _, rfl⟩, rfl, ?_, ?_⟩
  · exact fun r hr => h r (List.mem_of_mem_drop hr)
  · -- when the script is used up, the reply changes nothing
    intro url hthere
    cases hscript : s.recorder.script with
    | nil => simpa [Session.Holds, Recorder.run, hscript, Reply.silent] using hthere
    | cons reply rest =>
      have hreply := h reply (hscript ▸ List.mem_cons_self)
      simpa [Session.Holds, Recorder.run, hscript] using hreply _ _ url hthere

/-- Directories are made where that is possible. -/
theorem makeDirectories_concludes (h : s.SparesCheckouts base) {l : Location} {made : FileTree}
    (hmade : s.disk.files.makeDirectories l = .ok made) :
    Concludes (fun _ after => s.Issues base [] after) bad
      (Pass.changeFiles (·.makeDirectories l)) s := by
  apply changeFiles_concludes
  · intro files hfiles
    obtain rfl := Except.ok.inj (hfiles.symm.trans hmade)
    refine ⟨⟨[], List.nil_sublist [], (List.append_nil _).symm⟩, rfl, h, ?_⟩
    exact fun url hthere => (FileTree.makeDirectories_furnished hmade).grows.isThere hthere
  · intro e herror
    cases hmade.symm.trans herror

end Pass

namespace Fetcher

open Session

/-- The command that clones a repository to its place. -/
def cloneCommand (base : Location) (url : String) : Command :=
  ⟨["git", "clone", "--quiet", url, (base.child (checkoutName url)).render], none, []⟩

/-- The command that fetches what is new into a checkout. -/
def fetchCommand (l : Location) : Command :=
  ⟨["git", "fetch", "--quiet", "origin"], some l.render, []⟩

/-- The command that checks a commit out. -/
def checkoutCommand (l : Location) (commit : String) : Command :=
  ⟨["git", "checkout", "--quiet", "--detach", commit], some l.render, []⟩

/-- The error says that the identifier is unavailable, for some reason. -/
def IsUnavailable (identifier : String) (e : BuildError) : Prop :=
  ∃ reason, e = unavailable identifier reason

variable {base l : Location} {identifier url revision commit : String} {r : Repository}
  {s between after : Session} {course more : List Command}

theorem openRepository_concludes (identifier : String) (l : Location) (s : Session) :
    Concludes (fun r after => after = s ∧ s.disk.repository? l = some r)
      (fun e after => after = s ∧ IsUnavailable identifier e) (openRepository identifier l) s := by
  refine .get_bind ?_
  cases hrepository : s.disk.repository? l with
  | some r => exact .pure ⟨rfl, rfl⟩
  | none => exact .throw ⟨rfl, _, rfl⟩

theorem clone_concludes (h : s.SparesCheckouts base) {made : FileTree}
    (hmade : s.disk.files.makeDirectories base = .ok made) (identifier url : String) :
    Concludes (fun _ after => s.Issues base [cloneCommand base url] after)
      (fun e after => s.Issues base [cloneCommand base url] after ∧ IsUnavailable identifier e)
      (clone base identifier url (base.child (checkoutName url))) s := by
  refine .andThen (Pass.report_concludes h _ _ _) ?_
  rintro ⟨⟩ reported ⟨hreported, hdisk⟩
  rw [← hdisk] at hmade
  refine .andThen (Pass.makeDirectories_concludes hreported.spares hmade) fun _ there hthere => ?_
  refine .andThen (Pass.run_concludes hthere.spares _ none) fun result cloned hcloned => ?_
  have hissues := (hreported.trans hthere).trans hcloned
  split_ifs
  · exact .throw ⟨hissues, _, rfl⟩
  · exact .pure hissues

/-- The commit of a revision is what the repository names that is there, be it fetched or not. -/
theorem findCommit_concludes (h : s.SparesCheckouts base) (hr : s.disk.repository? l = some r)
    (identifier revision : String) :
    Concludes (fun found after => s.Issues base [fetchCommand l] after ∧
        after.disk.repository? l = some found.1 ∧ found.1.commit? revision = some found.2)
      (fun e after => s.Issues base [fetchCommand l] after ∧ IsUnavailable identifier e)
      (findCommit identifier revision l r) s := by
  unfold findCommit
  cases hcommit : r.commit? revision with
  | some commit => exact .pure ⟨h.issues _, hr, hcommit⟩
  | none =>
    refine .andThen (Pass.report_concludes h _ _ _) ?_
    rintro ⟨⟩ reported ⟨hreported, -⟩
    refine .andThen (Pass.run_concludes hreported.spares _ (some l)) fun _ fetched hcommand => ?_
    have hfetched := hreported.trans hcommand
    refine .seq (openRepository_concludes identifier l fetched) ?_ ?_
    · rintro e after ⟨rfl, hunavailable⟩
      exact ⟨hfetched, hunavailable⟩
    · rintro found opened ⟨rfl, hfound⟩
      cases hagain : found.commit? revision with
      | some commit => exact .pure ⟨hfetched, hfound, hagain⟩
      | none => exact .throw ⟨hfetched, _, rfl⟩

/-- Have the head of a repository at the commit that a revision names in it. -/
def settle (identifier revision : String) (l : Location) (found : Repository × String) :
    Pass Unit := do
  if found.1.headCommit? ≠ some found.2 then
    let result ← Pass.run ["git", "checkout", "--quiet", "--detach", found.2] (some l)
    if result.returncode ≠ 0 then
      throw (unavailable identifier
        (reasonOf result ("unable to check out '" ++ revision ++ "'")))

theorem checkOut_eq_settle (identifier revision : String) (l : Location) (r : Repository) :
    checkOut identifier revision l r =
      findCommit identifier revision l r >>= settle identifier revision l :=
  rfl

theorem settle_concludes (h : s.SparesCheckouts base) (identifier revision : String) (l : Location)
    (found : Repository × String) :
    Concludes (fun _ after => s.Issues base [checkoutCommand l found.2] after)
      (fun e after => s.Issues base [checkoutCommand l found.2] after ∧
        IsUnavailable identifier e)
      (settle identifier revision l found) s := by
  unfold settle
  by_cases hhead : found.1.headCommit? = some found.2
  · rw [if_neg (not_not_intro hhead)]
    exact .pure (h.issues _)
  · rw [if_pos hhead]
    refine .andThen (Pass.run_concludes h _ (some l)) fun result moved hmoved => ?_
    split_ifs
    · exact .throw ⟨hmoved, _, rfl⟩
    · exact .pure hmoved

/-! ## A whole call -/

/-- The state after a repository has been cloned. -/
def cloned (base : Location) (identifier url : String) (s : Session) : Session :=
  stateAfter (clone base identifier url (base.child (checkoutName url))) s

/-- Steps of a call that issue some of the commands behind a clone: either something is at the place
of the checkout and nothing is cloned, or nothing is there and the steps start with the clone. -/
inductive Proceeds (base : Location) (identifier url : String) (course : List Command)
    (s after : Session) : Prop
  | reusing (hthere : s.Holds base url) (h : s.Issues base course after)
  | cloning (hmissing : ¬ s.Holds base url)
    (hclone : s.Issues base [cloneCommand base url] (cloned base identifier url s))
    (h : (cloned base identifier url s).Issues base course after)

theorem Proceeds.issue (h : Proceeds base identifier url course s between)
    (h' : between.Issues base more after) :
    Proceeds base identifier url (course ++ more) s after := by
  cases h with
  | reusing hthere h => exact .reusing hthere (h.trans h')
  | cloning hmissing hclone h => exact .cloning hmissing hclone (h.trans h')

theorem Proceeds.mono (h : Proceeds base identifier url course s after)
    (hmore : course.Sublist more) : Proceeds base identifier url more s after := by
  cases h with
  | reusing hthere h => exact .reusing hthere (h.mono hmore)
  | cloning hmissing hclone h => exact .cloning hmissing hclone (h.mono hmore)

theorem Proceeds.spares (h : Proceeds base identifier url course s after) :
    after.SparesCheckouts base := by
  cases h with
  | reusing hthere h => exact h.spares
  | cloning hmissing hclone h => exact h.spares

/-- The name of the checkout is longer than a name may be. -/
structure Overlong (base : Location) (url : String) (e : BuildError) : Prop where
  longer : FileTree.longestName < (checkoutName url).utf8ByteSize
  error_eq : e = .file .nameTooLong (base.child (checkoutName url)).render

/-- Below a base directory that can be made, only a name that is too long cannot be looked up. -/
theorem overlong_of_isThere {files made : FileTree} (hmade : files.makeDirectories base = .ok made)
    {e : BuildError} (h : files.isThere (base.child (checkoutName url)) = .error e) :
    Overlong base url e := by
  obtain ⟨hwalk, rfl⟩ := FileTree.isThere_eq_error h
  refine ⟨?_, rfl⟩
  rw [Location.child_plain (isPlain_checkoutName url)] at hwalk
  rcases FileTree.walk_concat_nameTooLong hwalk with hbase | ⟨-, -, -, hlong⟩
  · exact absurd hbase (FileTree.walk_ne_nameTooLong hmade)
  · exact hlong

/-- Have something at the place of a checkout. -/
def prepare (identifier url : String) (base : Location) : Pass Unit := do
  let destination := base.child (checkoutName url)
  if ← Pass.onFiles (·.isThere destination) then
    Pass.report .debug .fetcher ("reusing checkout of " ++ url ++ " at " ++ destination.render)
  else clone base identifier url destination

theorem provide_eq (identifier url : String) (base : Location) :
    provide identifier url base (base.child (checkoutName url)) = (do
      prepare identifier url base
      openRepository identifier (base.child (checkoutName url))) := by
  rw [provide, prepare, bind_assoc]
  refine bind_congr fun found => ?_
  cases found <;> rfl

theorem prepare_concludes (h : s.SparesCheckouts base) {made : FileTree}
    (hmade : s.disk.files.makeDirectories base = .ok made) (identifier url : String) :
    Concludes (fun _ after => Proceeds base identifier url [] s after)
      (fun e after => Proceeds base identifier url [] s after ∧ IsUnavailable identifier e ∨
        Overlong base url e ∧ after = s) (prepare identifier url base) s := by
  -- looking for the checkout fails only if its name is too long
  have hlooking : Concludes
      (fun found after => after = s ∧
        s.disk.files.isThere (base.child (checkoutName url)) = .ok found)
      (fun e after => Overlong base url e ∧ after = s)
      (Pass.onFiles (·.isThere (base.child (checkoutName url)))) s := by
    apply Pass.onFiles_concludes
    · exact fun found hfound => ⟨rfl, hfound⟩
    · exact fun e herror => ⟨overlong_of_isThere hmade herror, rfl⟩
  refine .seq hlooking (fun _ _ => .inr) ?_
  rintro found next ⟨rfl, hfound⟩
  cases found with
  | true =>
    refine (Pass.report_concludes h _ _ _).mono ?_ fun _ _ hbad => hbad
    rintro ⟨⟩ after ⟨hreported, -⟩
    exact .reusing hfound hreported
  | false =>
    have hmissing : ¬ next.Holds base url := by
      intro hthere
      rw [Holds, hfound] at hthere
      simp at hthere
    have hclone := clone_concludes h hmade identifier url
    -- the clone is issued whether or not it succeeds
    have hproceeds : ∀ {after}, cloned base identifier url next = after →
        next.Issues base [cloneCommand base url] after →
        Proceeds base identifier url [] next after := by
      rintro after rfl hissues
      exact .cloning hmissing hissues (hissues.spares.issues [])
    constructor
    · intro _ after hrun
      exact hproceeds (stateAfter_of_ok hrun) (hclone.ok hrun)
    · intro e after hrun
      obtain ⟨hissues, hunavailable⟩ := hclone.error hrun
      exact .inl ⟨hproceeds (stateAfter_of_error hrun) hissues, hunavailable⟩

theorem provide_concludes (h : s.SparesCheckouts base) {made : FileTree}
    (hmade : s.disk.files.makeDirectories base = .ok made) (identifier url : String) :
    Concludes (fun r after => Proceeds base identifier url [] s after ∧
        after.disk.repository? (base.child (checkoutName url)) = some r)
      (fun e after => Proceeds base identifier url [] s after ∧ IsUnavailable identifier e ∨
        Overlong base url e ∧ after = s)
      (provide identifier url base (base.child (checkoutName url))) s := by
  rw [provide_eq]
  refine .andThen (prepare_concludes h hmade identifier url) fun _ prepared hprepared => ?_
  refine (openRepository_concludes identifier _ prepared).mono ?_ ?_
  · rintro r after ⟨rfl, hr⟩
    exact ⟨hprepared, hr⟩
  · rintro e after ⟨rfl, hunavailable⟩
    exact .inl ⟨hprepared, hunavailable⟩

/-- The part of a call up to the point where the revision is resolved: the repository, and the
commit that the revision names in it. -/
def resolving (base : Location) (identifier url revision : String) : Pass (Repository × String) :=
  provide identifier url base (base.child (checkoutName url)) >>=
    findCommit identifier revision (base.child (checkoutName url))

/-- The commit to which the revision of an identifier resolves during a call. -/
def resolvedCommit? (base : Location) (identifier : String) (s : Session) : Option String :=
  (Identifier.parse identifier).revision.bind fun revision =>
    match resolving base identifier (Identifier.parse identifier).url revision s with
    | .ok found _ => some found.2
    | .error _ _ => none

/-- The commands that a call may issue behind a clone: a fetch, and a checkout of the commit to
which the revision resolves. -/
def courseOf (base : Location) (identifier : String) (s : Session) : List Command :=
  let l := base.child (checkoutName (Identifier.parse identifier).url)
  fetchCommand l :: (resolvedCommit? base identifier s).toList.map (checkoutCommand l)

/-- How a call fails: with the error that its identifier is unavailable, or because the name of the
checkout is longer than a name may be, before any command is issued. -/
inductive Fails (base : Location) (identifier : String) (s : Session) (e : BuildError)
    (after : Session) : Prop
  | noAddress (hurl : (Identifier.parse identifier).url = "") (h : IsUnavailable identifier e)
    (hafter : after = s)
  | unavailable (h : IsUnavailable identifier e)
    (hafter : Proceeds base identifier (Identifier.parse identifier).url
      (courseOf base identifier s) s after)
  | overlong (h : Overlong base (Identifier.parse identifier).url e) (hafter : after = s)

/-- How a call succeeds: its checkout is remembered. -/
structure Succeeds (base : Location) (identifier : String) (s : Session) (place : Location)
    (after : Session) : Prop where
  place_eq : place = base.child (checkoutName (Identifier.parse identifier).url)
  exists_before : ∃ between, Proceeds base identifier (Identifier.parse identifier).url
      (courseOf base identifier s) s between ∧
    after = { between with fetched := (identifier, place) :: between.fetched }

/-- The rest of a call, once it has its repository. -/
def advance (identifier : String) (l : Location) (r : Repository) : Option String → Pass Unit
  | some revision => findCommit identifier revision l r >>= settle identifier revision l
  | none => pure ()

/-- Remember the checkout of an identifier. -/
def remember (identifier : String) (l : Location) : Pass Unit :=
  modify fun s => { s with fetched := (identifier, l) :: s.fetched }

theorem checkout_of_new (hnew : s.fetched.lookup identifier = none)
    (hurl : (Identifier.parse identifier).url ≠ "") :
    checkout base identifier s = (do
      let l := base.child (checkoutName (Identifier.parse identifier).url)
      let r ← provide identifier (Identifier.parse identifier).url base l
      advance identifier l r (Identifier.parse identifier).revision
      remember identifier l
      pure l : Pass Location) s := by
  have hfull : (Identifier.parse identifier).url.isEmpty = false := by simpa using hurl
  rw [checkout, bind_of_ok (show (get : Pass Session) s = .ok s s from rfl)]
  simp only [hnew, hfull, Bool.false_eq_true, if_false, provide, remember, bind_assoc]
  refine congrFun (bind_congr fun found => ?_) s
  cases found <;> cases (Identifier.parse identifier).revision <;>
    simp [advance, checkOut_eq_settle]

theorem checkout_of_noAddress (hnew : s.fetched.lookup identifier = none)
    (hurl : (Identifier.parse identifier).url = "") :
    checkout base identifier s =
      .error (unavailable identifier "no repository URL given") s := by
  rw [checkout, bind_of_ok (show (get : Pass Session) s = .ok s s from rfl)]
  simp only [hnew, hurl]
  rfl

theorem courseOf_of_resolving (hrevision : (Identifier.parse identifier).revision = some revision)
    {found : Repository × String}
    (h : resolving base identifier (Identifier.parse identifier).url revision s = .ok found after) :
    courseOf base identifier s =
      [fetchCommand (base.child (checkoutName (Identifier.parse identifier).url)),
        checkoutCommand (base.child (checkoutName (Identifier.parse identifier).url)) found.2] := by
  have hcommit : resolvedCommit? base identifier s = some found.2 := by
    rw [resolvedCommit?, hrevision, Option.bind_some, h]
  rw [courseOf, hcommit]
  rfl

/-- A call that has its repository goes on to resolve the revision and to check its commit out, if
it names one. -/
theorem advance_concludes {provided : Session}
    (hprovide : provide identifier (Identifier.parse identifier).url base
      (base.child (checkoutName (Identifier.parse identifier).url)) s = .ok r provided)
    (hproceeds : Proceeds base identifier (Identifier.parse identifier).url [] s provided)
    (hr : provided.disk.repository?
      (base.child (checkoutName (Identifier.parse identifier).url)) = some r) :
    Concludes
      (fun _ after => Proceeds base identifier (Identifier.parse identifier).url
        (courseOf base identifier s) s after)
      (fun e after => Proceeds base identifier (Identifier.parse identifier).url
        (courseOf base identifier s) s after ∧ IsUnavailable identifier e)
      (advance identifier (base.child (checkoutName (Identifier.parse identifier).url)) r
        (Identifier.parse identifier).revision) provided := by
  cases hrevision : (Identifier.parse identifier).revision with
  | none => exact .pure (hproceeds.mono (List.nil_sublist _))
  | some revision =>
    have hfetch := findCommit_concludes hproceeds.spares hr identifier revision
    refine .bind (fun found resolved hfind => ?_) fun e after hfind => ?_
    · obtain ⟨hissues, -⟩ := hfetch.ok hfind
      have hresolving : resolving base identifier (Identifier.parse identifier).url revision s =
          .ok found resolved := by rw [resolving, bind_of_ok hprovide, hfind]
      rw [courseOf_of_resolving hrevision hresolving]
      refine (settle_concludes hissues.spares identifier revision _ found).mono ?_ ?_
      · exact fun _ after hsettled => (hproceeds.issue hissues).issue hsettled
      · rintro e after ⟨hsettled, hunavailable⟩
        exact ⟨(hproceeds.issue hissues).issue hsettled, hunavailable⟩
    · obtain ⟨hissues, hunavailable⟩ := hfetch.error hfind
      refine ⟨(hproceeds.issue hissues).mono ?_, hunavailable⟩
      exact List.Sublist.cons_cons _ (List.nil_sublist _)

theorem remember_concludes {bad : BuildError → Session → Prop} (identifier : String)
    (l : Location) (s : Session) :
    Concludes (fun _ after => after = { s with fetched := (identifier, l) :: s.fetched }) bad
      (remember identifier l) s :=
  .modify rfl

/-- What a call does that is not answered from memory. -/
theorem checkout_concludes (h : s.SparesCheckouts base) {made : FileTree}
    (hmade : s.disk.files.makeDirectories base = .ok made)
    (hnew : s.fetched.lookup identifier = none) :
    Concludes (Succeeds base identifier s) (Fails base identifier s)
      (checkout base identifier) s := by
  by_cases hurl : (Identifier.parse identifier).url = ""
  · have hfails : checkout base identifier s =
        .error (unavailable identifier "no repository URL given") s :=
      checkout_of_noAddress hnew hurl
    constructor
    · intro place after hafter
      cases hfails.symm.trans hafter
    · intro e after hafter
      cases hfails.symm.trans hafter
      exact .noAddress hurl ⟨_, rfl⟩ rfl
  · -- a checkout is provided, moved to the revision and remembered
    apply Concludes.congr (checkout_of_new hnew hurl)
    have hopen := provide_concludes h hmade identifier (Identifier.parse identifier).url
    refine .bind (fun r provided hprovide => ?_) fun e after hprovide => ?_
    · obtain ⟨hproceeds, hr⟩ := hopen.ok hprovide
      refine .seq (advance_concludes hprovide hproceeds hr) ?_ ?_
      · rintro e after ⟨hafter, hunavailable⟩
        exact .unavailable hunavailable hafter
      · intro _ between hbetween
        refine .andThen (remember_concludes identifier _ between) ?_
        rintro _ after rfl
        exact .pure ⟨rfl, between, hbetween, rfl⟩
    · rcases hopen.error hprovide with ⟨hproceeds, hunavailable⟩ | ⟨hoverlong, rfl⟩
      · exact .unavailable hunavailable (hproceeds.mono (List.nil_sublist _))
      · exact .overlong hoverlong rfl

end Fetcher

end Makewright
