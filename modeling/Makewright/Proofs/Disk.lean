import Makewright.Disk.Repository
import Makewright.Proofs.FileTree

/-!
# Repositories on a disk

A repository is found at the settled place of a location that can be reached
(`repository?_eq_some_iff`): which repository a location has depends on that place alone. It is
still found when the tree of files has grown, and a change of one repository leaves the others.
-/

set_option autoImplicit false

namespace Makewright

namespace Disk

variable {disk : Disk} {l : Location}

/-- The commit at which the head of the repository at a location stands. -/
def head? (disk : Disk) (l : Location) : Option String :=
  (disk.repository? l).bind Repository.headCommit?

/-- A repository is found at a location that can be reached, at its settled place. -/
theorem repository?_eq_some_iff {r : Repository} :
    disk.repository? l = some r ↔
      disk.files.walk l.parts = .ok l.settled ∧ disk.repositories.lookup l.settled = some r := by
  unfold repository?
  cases hwalk : disk.files.walk l.parts with
  | error fault => simp
  | ok place => simp [FileTree.walk_settled hwalk]

/-- A repository is found again when the tree of files has grown. -/
theorem repository?_of_grows {files : FileTree} (h : disk.files.Grows files) {r : Repository}
    (hr : disk.repository? l = some r) :
    Disk.repository? { disk with files } l = some r := by
  obtain ⟨hwalk, hlookup⟩ := repository?_eq_some_iff.1 hr
  exact repository?_eq_some_iff.2 ⟨h.walk_eq_ok hwalk, hlookup⟩

theorem lookup_putRepository {place other : List String} {r : Repository} :
    (disk.putRepository place r).repositories.lookup other =
      if other = place then some r else disk.repositories.lookup other := by
  rw [putRepository, List.lookup_cons]
  by_cases hplace : other = place
  · rw [if_pos hplace, beq_iff_eq.2 hplace]
  · rw [if_neg hplace, beq_eq_false_iff_ne.2 hplace]
    exact lookup_filter_ne hplace disk.repositories

/-- A change of one repository is found at its place, and every other place keeps its repository. -/
theorem repository?_modifyRepository {other : Location} {change : Repository → Repository}
    {r : Repository} (hr : disk.repository? l = some r) :
    (disk.modifyRepository l change).repository? other =
      if other.settled = l.settled then (disk.repository? other).map fun _ => change r
      else disk.repository? other := by
  simp only [modifyRepository, hr]
  -- the files stay, so every location is reached as before
  have hfiles : (disk.putRepository l.settled (change r)).files = disk.files := rfl
  unfold repository?
  rw [hfiles]
  cases hwalk : disk.files.walk other.parts with
  | error fault => simp
  | ok place =>
    obtain rfl := FileTree.walk_settled hwalk
    simp only [lookup_putRepository]
    by_cases hplace : other.settled = l.settled
    · rw [if_pos hplace, if_pos hplace, hplace, (repository?_eq_some_iff.1 hr).2]
      rfl
    · rw [if_neg hplace, if_neg hplace]

end Disk

/-- The head that is moved to one of the commits stands there. -/
theorem Repository.headCommit?_moveHead {r : Repository} {commit : String}
    (h : commit ∈ r.commits) : (r.moveHead commit).headCommit? = some commit := by
  unfold moveHead headCommit?
  cases hfound : r.commits.findIdx? (· == commit) with
  | none => simpa using List.findIdx?_eq_none_iff.1 hfound commit h
  | some position =>
    obtain ⟨hlt, hcommit, -⟩ := List.findIdx?_eq_some_iff_getElem.1 hfound
    rw [Option.bind_some, List.getElem?_eq_getElem hlt, beq_iff_eq.1 hcommit]

/-- A revision names one of the commits. -/
theorem Repository.mem_of_commit? {r : Repository} {revision commit : String}
    (h : r.commit? revision = some commit) : commit ∈ r.commits := by
  have hhead : r.headCommit? = some commit → commit ∈ r.commits := by
    intro h
    obtain ⟨position, -, hposition⟩ := Option.bind_eq_some_iff.1 h
    exact List.mem_of_getElem? hposition
  unfold commit? at h
  -- a full name, the head, another tag, a tag with a commit, or the branch
  by_cases hfull : revision ∈ r.commits
  · rw [if_pos hfull] at h
    exact Option.some.inj h ▸ hfull
  rw [if_neg hfull] at h
  by_cases hname : revision = "HEAD"
  · rw [if_pos hname] at h
    exact hhead h
  rw [if_neg hname] at h
  by_cases hother : revision ∈ r.otherTags
  · rw [if_pos hother] at h
    cases h
  rw [if_neg hother] at h
  cases htag : r.tags.lookup revision with
  | some position =>
    rw [htag] at h
    exact List.mem_of_getElem? h
  | none =>
    simp only [htag] at h
    by_cases hbranch : revision = branch
    · rw [if_pos hbranch] at h
      exact List.mem_of_getLast? h
    · rw [if_neg hbranch] at h
      cases h

end Makewright
