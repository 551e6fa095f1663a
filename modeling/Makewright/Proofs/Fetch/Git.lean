import Makewright.Fetch.Fetcher
import Makewright.Proofs.Disk
import Makewright.Proofs.Stateful

/-!
# Commands that are answered as git answers them

What a reply is assumed to do when it stands for git (`Reply.ActsAsGit`): a checkout that succeeds
moves the head of its repository to the commit, and nothing else moves a head that stands at one.
Every step of a fetcher that runs commands is described by what it does to heads: it spares those at
some locations (`Session.Passes`), and a checkout that succeeds leaves the head where it was asked
to.
-/

set_option autoImplicit false

namespace Makewright

/-- The command asks for the head of the repository at a location to be detached at a commit. -/
structure Command.ChecksOut (c : Command) (commit : String) (l : Location) : Prop where
  words_eq : c.words = ["git", "checkout", "--quiet", "--detach", commit]
  cwd_eq : c.cwd.map Location.parse = some l

/-- The disk after a checkout: the head of the repository stands at the commit. -/
def Command.moveHead (c : Command) (disk : Disk) : Disk :=
  match c.words, c.cwd with
  | ["git", "checkout", "--quiet", "--detach", commit], some text =>
    disk.modifyRepository (.parse text) (·.moveHead commit)
  | _, _ => disk

/-- Heads at other places than that of the checkout stay where they stand. -/
theorem Command.head?_moveHead_of_ne (c : Command) {disk : Disk} {l : Location} {commit : String}
    (hhead : disk.head? l = some commit)
    (hother : ∀ other place, c.ChecksOut other place → place.settled ≠ l.settled) :
    (c.moveHead disk).head? l = some commit := by
  unfold moveHead
  split
  · next other text hwords hcwd =>
    have hplace := hother other (.parse text) ⟨hwords, congrArg (Option.map Location.parse) hcwd⟩
    cases hrepository : disk.repository? (.parse text) with
    | none =>
      simp only [Disk.modifyRepository, hrepository]
      exact hhead
    | some repository =>
      rw [Disk.head?, Disk.repository?_modifyRepository hrepository, if_neg hplace.symm]
      exact hhead
  · exact hhead

namespace Reply

/-- The reply does to the heads of repositories what git does. -/
structure ActsAsGit (r : Reply) : Prop where
  moves : ∀ {c : Command} {commit : String} {l : Location} {disk : Disk} {repository : Repository},
    r.returncode = 0 → c.ChecksOut commit l → disk.repository? l = some repository →
    commit ∈ repository.commits → (r.effect c disk).head? l = some commit
  keeps : ∀ {c : Command} {commit : String} {l : Location} {disk : Disk},
    disk.head? l = some commit →
    (r.returncode = 0 → ∀ other place, c.ChecksOut other place → place.settled ≠ l.settled) →
    (r.effect c disk).head? l = some commit

/-- A reply of git, which moves the head for a checkout unless it reports a failure. -/
def git (returncode : Int) : Reply :=
  ⟨returncode, "", "", fun c disk => if returncode = 0 then c.moveHead disk else disk⟩

theorem actsAsGit_git (returncode : Int) : (git returncode).ActsAsGit := by
  constructor
  · rintro ⟨words, cwd, env⟩ commit l disk repository hsuccess ⟨rfl, hcwd⟩ hrepository hcommit
    obtain ⟨text, rfl, rfl⟩ := Option.map_eq_some_iff.1 hcwd
    simp only [git, if_pos (show returncode = 0 from hsuccess), Command.moveHead]
    rw [Disk.head?, Disk.repository?_modifyRepository hrepository, if_pos rfl, hrepository]
    exact Repository.headCommit?_moveHead hcommit
  · intro c commit l disk hhead hother
    by_cases hsuccess : returncode = 0
    · simp only [git, if_pos hsuccess]
      exact c.head?_moveHead_of_ne hhead (hother hsuccess)
    · simp only [git, if_neg hsuccess]
      exact hhead

end Reply

namespace Session

/-- The commands to come, of which there may be `n`, are answered by git. -/
structure AsksGit (s : Session) (n : Nat) : Prop where
  actsAsGit : ∀ r ∈ s.recorder.script, r.ActsAsGit
  enough : n ≤ s.recorder.script.length

/-- Steps of a pass with a git for `n` more commands after them: at the spared locations the head
stands where it stood, and the sources served so far are the same. -/
structure Passes (n : Nat) (spared : Location → Prop) (s after : Session) : Prop where
  asksGit : after.AsksGit n
  heads : ∀ l commit, spared l → s.disk.head? l = some commit → after.disk.head? l = some commit
  fetched : after.fetched = s.fetched

variable {n : Nat} {spared : Location → Prop} {s between after : Session}

/-- Steps that spare every head. -/
abbrev SparesAll (n : Nat) : Session → Session → Prop :=
  Passes n fun _ => True

theorem AsksGit.mono {m : Nat} (h : s.AsksGit m) (hle : n ≤ m) : s.AsksGit n :=
  ⟨h.actsAsGit, Nat.le_trans hle h.enough⟩

theorem AsksGit.spares (h : s.AsksGit n) : s.SparesAll n s :=
  ⟨h, fun _ _ _ hhead => hhead, rfl⟩

theorem Passes.trans {m : Nat} (h : s.Passes m spared between)
    (h' : between.Passes n spared after) : s.Passes n spared after :=
  ⟨h'.asksGit, fun l commit hl hhead => h'.heads l commit hl (h.heads l commit hl hhead),
    h'.fetched.trans h.fetched⟩

theorem Passes.le {m : Nat} (h : s.Passes m spared after) (hle : n ≤ m) :
    s.Passes n spared after :=
  ⟨h.asksGit.mono hle, h.heads, h.fetched⟩

theorem Passes.mono {fewer : Location → Prop} (h : s.Passes n spared after)
    (hfewer : ∀ l, fewer l → spared l) : s.Passes n fewer after :=
  ⟨h.asksGit, fun l commit hl => h.heads l commit (hfewer l hl), h.fetched⟩

theorem Passes.of_all (h : s.SparesAll n after) : s.Passes n spared after :=
  h.mono fun _ _ => trivial

end Session

namespace Pass

open Session

variable {n : Nat} {s : Session}

theorem report_leads {bad : Session → Prop} (h : s.AsksGit n) (level : LogLevel)
    (reporter : Reporter) (text : String) :
    Leads (fun _ after => s.SparesAll n after ∧ after.disk = s.disk) bad
      (Pass.report level reporter text) s :=
  .modify ⟨⟨⟨h.actsAsGit, h.enough⟩, fun _ _ _ hhead => hhead, rfl⟩, rfl⟩

theorem lift_concludes {α : Type} {answer : Except BuildError α}
    {good : α → Session → Prop} {bad : BuildError → Session → Prop}
    (hgood : ∀ a, answer = .ok a → good a s) (hbad : ∀ e, answer = .error e → bad e s) :
    Concludes good bad (Pass.lift answer) s := by
  cases answer with
  | ok a => exact .pure (hgood a rfl)
  | error e => exact .throw (hbad e rfl)

theorem onFiles_concludes {α : Type} {question : FileTree → Except BuildError α}
    {good : α → Session → Prop} {bad : BuildError → Session → Prop}
    (hgood : ∀ a, question s.disk.files = .ok a → good a s)
    (hbad : ∀ e, question s.disk.files = .error e → bad e s) :
    Concludes good bad (Pass.onFiles question) s :=
  .get_bind (lift_concludes hgood hbad)

theorem onFiles_leads {α : Type} {question : FileTree → Except BuildError α}
    {good : α → Session → Prop} {bad : Session → Prop}
    (hgood : ∀ a, question s.disk.files = .ok a → good a s)
    (hbad : ∀ e, question s.disk.files = .error e → bad s) :
    Leads good bad (Pass.onFiles question) s :=
  Leads.iff_concludes.2 (onFiles_concludes hgood hbad)

theorem changeFiles_concludes {change : FileTree → Except BuildError FileTree}
    {good : Unit → Session → Prop} {bad : BuildError → Session → Prop}
    (hgood : ∀ files, change s.disk.files = .ok files →
      good () { s with disk := { s.disk with files } })
    (hbad : ∀ e, change s.disk.files = .error e → bad e s) :
    Concludes good bad (Pass.changeFiles change) s := by
  have hquestion : Concludes (fun files after => change s.disk.files = .ok files ∧ after = s) bad
      (Pass.onFiles change) s :=
    onFiles_concludes (fun _ hfiles => ⟨hfiles, rfl⟩) hbad
  apply hquestion.andThen
  rintro files after ⟨hfiles, rfl⟩
  exact .modify (hgood files hfiles)

theorem changeFiles_leads {change : FileTree → Except BuildError FileTree}
    {good : Unit → Session → Prop} {bad : Session → Prop}
    (hgood : ∀ files, change s.disk.files = .ok files →
      good () { s with disk := { s.disk with files } })
    (hbad : ∀ e, change s.disk.files = .error e → bad s) :
    Leads good bad (Pass.changeFiles change) s :=
  Leads.iff_concludes.2 (changeFiles_concludes hgood hbad)

/-- Directories are made without a change to any repository. -/
theorem makeDirectories_leads (h : s.AsksGit n) (l : Location) :
    Leads (fun _ after => s.SparesAll n after) (fun after => s.SparesAll n after)
      (Pass.changeFiles (·.makeDirectories l)) s := by
  refine changeFiles_leads (fun files hfiles => ⟨⟨h.actsAsGit, h.enough⟩, ?_, rfl⟩)
    fun _ _ => h.spares
  intro place commit _ hhead
  obtain ⟨r, hr, hcommit⟩ := Option.bind_eq_some_iff.1 hhead
  rw [Disk.head?, Disk.repository?_of_grows (FileTree.makeDirectories_furnished hfiles).grows hr]
  exact hcommit

/-- A command is answered by git: a checkout that succeeds moves the head of its repository, and
every other head stays where it stands. -/
theorem run_leads {bad : Session → Prop} (h : s.AsksGit (n + 1)) (words : List String)
    (cwd : Option Location) :
    Leads (fun result after =>
        s.Passes n (fun l => result.returncode = 0 → ∀ other place,
          Command.ChecksOut ⟨words, cwd.map Location.render, []⟩ other place →
          place.settled ≠ l.settled) after ∧
        ∀ commit l repository, result.returncode = 0 →
          Command.ChecksOut ⟨words, cwd.map Location.render, []⟩ commit l →
          s.disk.repository? l = some repository → commit ∈ repository.commits →
          after.disk.head? l = some commit) bad
      (Pass.run words cwd) s := by
  obtain ⟨hgit, henough⟩ := h
  cases hscript : s.recorder.script with
  | nil =>
    rw [hscript] at henough
    exact absurd henough (Nat.not_succ_le_zero n)
  | cons reply rest =>
    rw [hscript] at hgit henough
    -- this reply is used up, and the rest answer the commands that follow
    have hreply := hgit reply List.mem_cons_self
    have hrest : ∀ r ∈ rest, r.ActsAsGit := fun r hr => hgit r (List.mem_cons_of_mem reply hr)
    refine .get_bind ?_
    simp only [Recorder.run, hscript, List.head?_cons, Option.getD_some, List.drop_one,
      List.tail_cons]
    refine .bind (.modify (.pure ⟨⟨⟨hrest, Nat.le_of_succ_le_succ henough⟩, ?_, rfl⟩, ?_⟩))
    · intro l commit hspared hhead
      exact hreply.keeps hhead hspared
    · intro commit l repository hsuccess hasks hrepository hcommit
      exact hreply.moves hsuccess hasks hrepository hcommit

/-- A command that is not a checkout spares every head. -/
theorem runOther_leads {bad : Session → Prop} (h : s.AsksGit (n + 1)) {words : List String}
    (hwords : ∀ commit, words ≠ ["git", "checkout", "--quiet", "--detach", commit])
    (cwd : Option Location) :
    Leads (fun _ after => s.SparesAll n after) bad (Pass.run words cwd) s := by
  refine (run_leads h words cwd).mono (fun _ after hrun => ?_) fun _ hbad => hbad
  refine hrun.1.mono fun l _ _ other place hasks => ?_
  exact absurd hasks.words_eq (hwords other)

end Pass

namespace Fetcher

open Session

variable {n : Nat} {s : Session} {l : Location} {r : Repository}

/-- Opening a repository gives the one that is there. -/
theorem openRepository_leads (h : s.AsksGit n) (identifier : String) (l : Location) :
    Leads (fun r after => s.SparesAll n after ∧ after.disk.repository? l = some r) (s.SparesAll n)
      (openRepository identifier l) s := by
  refine .get_bind ?_
  cases hrepository : s.disk.repository? l with
  | some r => exact .pure ⟨h.spares, hrepository⟩
  | none => exact .throw h.spares

theorem clone_leads (h : s.AsksGit (n + 1)) (base : Location) (identifier url : String)
    (destination : Location) :
    Leads (fun _ after => s.SparesAll n after) (s.SparesAll n)
      (clone base identifier url destination) s := by
  refine .seq (Pass.report_leads h _ _ _) (fun _ hbad => hbad) fun _ reported hreported => ?_
  refine .seq (Pass.makeDirectories_leads hreported.1.asksGit base)
    (fun after hafter => (hreported.1.trans hafter).le (Nat.le_succ n))
    fun _ made hmade => ?_
  have hclone : ∀ commit, ["git", "clone", "--quiet", url, destination.render] ≠
      ["git", "checkout", "--quiet", "--detach", commit] := by
    intro commit
    simp
  refine .seq (Pass.runOther_leads hmade.asksGit hclone none) (fun _ hbad => hbad)
    fun result cloned hcloned => ?_
  have hspares : s.SparesAll n cloned := (hreported.1.trans hmade).trans hcloned
  by_cases hsuccess : result.returncode = 0
  · rw [if_neg (not_not_intro hsuccess)]
    exact .pure hspares
  · rw [if_pos hsuccess]
    exact .throw hspares

/-- The commit that is found is the one that the revision names in the repository that is there. -/
theorem findCommit_leads (h : s.AsksGit (n + 1)) (hr : s.disk.repository? l = some r)
    (identifier revision : String) :
    Leads (fun found after => s.SparesAll n after ∧ after.disk.repository? l = some found.1 ∧
      found.1.commit? revision = some found.2) (s.SparesAll n)
      (findCommit identifier revision l r) s := by
  unfold findCommit
  cases hcommit : r.commit? revision with
  | some commit => exact .pure ⟨h.spares.le (Nat.le_succ n), hr, hcommit⟩
  | none =>
    refine .seq (Pass.report_leads h _ _ _) (fun _ hbad => hbad) fun _ reported hreported => ?_
    have hfetch : ∀ commit, ["git", "fetch", "--quiet", "origin"] ≠
        ["git", "checkout", "--quiet", "--detach", commit] := by
      intro commit
      simp
    refine .seq (Pass.runOther_leads hreported.1.asksGit hfetch (some l)) (fun _ hbad => hbad)
      fun _ fetched hfetched => ?_
    have hspares : s.SparesAll n fetched := hreported.1.trans hfetched
    -- whatever was fetched shows only when the repository is opened again
    refine .seq (openRepository_leads hspares.asksGit identifier l)
      (fun after hafter => hspares.trans hafter) fun found opened hopened => ?_
    cases hagain : found.commit? revision with
    | some commit => exact .pure ⟨hspares.trans hopened.1, hopened.2, hagain⟩
    | none => exact .throw (hspares.trans hopened.1)

end Fetcher

end Makewright
