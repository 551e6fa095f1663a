import Makewright.Distinct
import Makewright.Resource

/-!
# File sets

An insertion-ordered set of resources, each with a language tag. A resource that is already
present keeps its place and its tag, so inserting is idempotent and the first insertion wins.
-/

set_option autoImplicit false

namespace Makewright

/-- Resources in the order of their first insertion, each with the tag it came with. -/
structure FileSet where
  entries : List (Resource × Language)
  nodup : (entries.map Prod.fst).Nodup

namespace FileSet

/-- The set without members. -/
def empty : FileSet := ⟨[], .nil⟩

instance : Inhabited FileSet := ⟨empty⟩

/-- The members in order. -/
def toList (s : FileSet) : List Resource :=
  s.entries.map Prod.fst

instance : Membership Resource FileSet := ⟨fun s r => r ∈ s.toList⟩

instance (r : Resource) (s : FileSet) : Decidable (r ∈ s) :=
  inferInstanceAs (Decidable (r ∈ s.toList))

/-- Insert a resource at the end unless it is present. -/
def insert (s : FileSet) (r : Resource) (tag : Language) : FileSet :=
  if h : r ∈ s.toList then s
  else
    ⟨s.entries ++ [(r, tag)], by
      rw [List.map_append]
      exact nodup_append_singleton s.nodup h⟩

/-- Insert the entries of a list one after the other. -/
def insertAll (s : FileSet) (entries : List (Resource × Language)) : FileSet :=
  entries.foldl (fun acc (r, tag) => acc.insert r tag) s

/-- Insert the members of another set with their tags. -/
def union (s other : FileSet) : FileSet :=
  s.insertAll other.entries

/-- The set of some resources under one tag. -/
def ofList (resources : List Resource) (tag : Language) : FileSet :=
  empty.insertAll (resources.map (·, tag))

/-- The tag of a member. -/
def languageOf? (s : FileSet) (r : Resource) : Option Language :=
  s.entries.lookup r

/-- The members with a given tag. -/
def withTag (s : FileSet) (tag : Language) : List Resource :=
  (s.entries.filter fun entry => entry.2 == tag).map Prod.fst

/-- The tags in use, each once, in the order of their first use. -/
def languages (s : FileSet) : List Language :=
  distinct (s.entries.map Prod.snd)

/-- The full paths of the members. -/
def paths (s : FileSet) : List String :=
  s.toList.map Resource.fullPath

/-- The number of members. -/
def size (s : FileSet) : Nat :=
  s.entries.length

@[simp]
theorem toList_empty : empty.toList = [] := rfl

/-- Inserting appends a newcomer and leaves the rest alone. -/
theorem toList_insert (s : FileSet) (r : Resource) (tag : Language) :
    (s.insert r tag).toList = addOnce s.toList r := by
  unfold insert addOnce
  split
  · rfl
  · simp [toList]

theorem insertAll_append (s : FileSet) (xs ys : List (Resource × Language)) :
    s.insertAll (xs ++ ys) = (s.insertAll xs).insertAll ys :=
  List.foldl_append

/-- Inserting several entries appends the newcomers among them. -/
theorem toList_insertAll (s : FileSet) (xs : List (Resource × Language)) :
    (s.insertAll xs).toList = addAllOnce s.toList (xs.map Prod.fst) := by
  induction xs generalizing s with
  | nil => rfl
  | cons x rest ih =>
    change ((s.insert x.1 x.2).insertAll rest).toList = _
    rw [ih, toList_insert]
    rfl

theorem mem_insertAll {s : FileSet} {xs : List (Resource × Language)} {r : Resource} :
    r ∈ (s.insertAll xs).toList ↔ r ∈ s.toList ∨ r ∈ xs.map Prod.fst := by
  rw [toList_insertAll, mem_addAllOnce]

/-- The members with a tag are members. -/
theorem mem_of_mem_withTag {s : FileSet} {tag : Language} {r : Resource} (h : r ∈ s.withTag tag) :
    r ∈ s.toList := by
  obtain ⟨entry, hentry, rfl⟩ := List.mem_map.1 h
  exact List.mem_map_of_mem (List.mem_filter.1 hentry).1

theorem mem_paths {s : FileSet} {path : String} :
    path ∈ s.paths ↔ ∃ r ∈ s.toList, r.fullPath = path :=
  List.mem_map

end FileSet

end Makewright
