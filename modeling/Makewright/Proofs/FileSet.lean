import Makewright.FileSet

/-!
# Entries of file sets

Which resources are in a set with which tags. The first tag of a resource wins, so inserting an
entry may leave its tag out. Where a resource never comes with two tags, inserting is collecting
entries (`entries_insertAll`) and nothing is left out (`mem_entries_insertAll`).
-/

set_option autoImplicit false

namespace Makewright.FileSet

variable {s : FileSet} {entry : Resource × Language} {xs : List (Resource × Language)}
  {language : Language}

/-- No resource has two of the tags that the relation allows. -/
def IsFunctional (tags : Resource → Language → Prop) : Prop :=
  ∀ r a b, tags r a → tags r b → a = b

theorem entries_insert (s : FileSet) (r : Resource) (tag : Language) :
    (s.insert r tag).entries = s.entries ∨ (s.insert r tag).entries = s.entries ++ [(r, tag)] := by
  unfold insert
  by_cases hmem : r ∈ s.toList
  · rw [dif_pos hmem]
    exact Or.inl rfl
  · rw [dif_neg hmem]
    exact Or.inr rfl

theorem mem_of_mem_insert {r : Resource} {tag : Language}
    (h : entry ∈ (s.insert r tag).entries) : entry ∈ s.entries ∨ entry = (r, tag) := by
  rcases s.entries_insert r tag with heq | heq
  · rw [heq] at h
    exact Or.inl h
  · rw [heq, List.mem_append, List.mem_singleton] at h
    exact h

theorem mem_of_mem_entries_insertAll (h : entry ∈ (s.insertAll xs).entries) :
    entry ∈ s.entries ∨ entry ∈ xs := by
  induction xs generalizing s with
  | nil => exact Or.inl h
  | cons x rest ih =>
    rcases ih h with hfirst | hrest
    · rcases mem_of_mem_insert hfirst with hold | rfl
      · exact Or.inl hold
      · exact Or.inr List.mem_cons_self
    · exact Or.inr (List.mem_cons_of_mem x hrest)

theorem mem_toList_iff {tags : Resource → Language → Prop} (htags : IsFunctional tags)
    (hs : ∀ e ∈ s.entries, tags e.1 e.2) (hentry : tags entry.1 entry.2) :
    entry.1 ∈ s.toList ↔ entry ∈ s.entries := by
  constructor
  · intro h
    obtain ⟨found, hfound, hresource⟩ := List.mem_map.1 h
    have hallowed := hs found hfound
    rw [hresource] at hallowed
    have htag := htags entry.1 found.2 entry.2 hallowed hentry
    rwa [← Prod.ext hresource htag]
  · exact fun h => List.mem_map_of_mem h

/-- If no resource comes with two tags, inserting entries is collecting them, each once. -/
theorem entries_insertAll {tags : Resource → Language → Prop} (htags : IsFunctional tags)
    (hs : ∀ e ∈ s.entries, tags e.1 e.2) (hxs : ∀ e ∈ xs, tags e.1 e.2) :
    (s.insertAll xs).entries = addAllOnce s.entries xs := by
  induction xs generalizing s with
  | nil => rfl
  | cons x rest ih =>
    have hx : tags x.1 x.2 := hxs x List.mem_cons_self
    have hinsert : (s.insert x.1 x.2).entries = addOnce s.entries x := by
      unfold insert addOnce
      simp only [mem_toList_iff htags hs hx]
      split
      · rfl
      · rfl
    have hfirst : ∀ e ∈ (s.insert x.1 x.2).entries, tags e.1 e.2 := by
      intro e he
      rcases mem_of_mem_insert he with hold | rfl
      · exact hs e hold
      · exact hx
    change ((s.insert x.1 x.2).insertAll rest).entries = addAllOnce (addOnce s.entries x) rest
    rw [ih hfirst fun e he => hxs e (List.mem_cons_of_mem x he), hinsert]

/-- If no resource comes with two tags, inserting entries adds all of them. -/
theorem mem_entries_insertAll {tags : Resource → Language → Prop} (htags : IsFunctional tags)
    (hs : ∀ e ∈ s.entries, tags e.1 e.2) (hxs : ∀ e ∈ xs, tags e.1 e.2) :
    entry ∈ (s.insertAll xs).entries ↔ entry ∈ s.entries ∨ entry ∈ xs := by
  rw [entries_insertAll htags hs hxs, mem_addAllOnce]

theorem mem_withTag {r : Resource} : r ∈ s.withTag language ↔ (r, language) ∈ s.entries := by
  simp [withTag]

theorem mem_languages : language ∈ s.languages ↔ ∃ r, (r, language) ∈ s.entries := by
  rw [languages, mem_distinct]
  simp

end Makewright.FileSet
