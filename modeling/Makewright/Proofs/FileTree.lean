import Makewright.Disk.FileTree
import Makewright.Proofs.Outcome
import Mathlib.Data.List.Basic
import Mathlib.Tactic.SplitIfs

/-!
# Changes of a file tree

What the operations on a tree do to what stands in it. Every change is an entry that is put at a
place or taken away from one (`standing?_put`, `standing?_erase`). As long as directories stay and
no place is vacated, every way through the tree stays open (`KeepsWays.walk_eq_ok`), and a location
that can be reached stands at its settled place (`walk_settled`).

Making directories furnishes a tree: nothing that stands is touched, and nothing but directories is
new (`makeDirectories_furnished`). Renaming a file over another one changes the text at one place,
and the file is gone from the other (`rename_eq_ok`).
-/

set_option autoImplicit false

namespace Makewright

/-- Dropping the entries of one place leaves what is found at the others. -/
theorem lookup_filter_ne {β : Type} {place other : List String} (hne : other ≠ place)
    (entries : List (List String × β)) :
    (entries.filter (·.1 != place)).lookup other = entries.lookup other := by
  induction entries with
  | nil => rfl
  | cons entry rest ih =>
    by_cases hentry : entry.1 = place
    · have hother : (other == entry.1) = false := beq_eq_false_iff_ne.2 (hentry ▸ hne)
      rw [List.filter_cons_of_neg (by simpa using hentry), List.lookup_cons, hother, ih]
    · rw [List.filter_cons_of_pos (by simpa using hentry), List.lookup_cons, List.lookup_cons, ih]

/-- Nothing is found at a place whose entries are dropped. -/
theorem lookup_filter_self {β : Type} (place : List String) (entries : List (List String × β)) :
    (entries.filter (·.1 != place)).lookup place = none := by
  rw [List.lookup_eq_none_iff]
  intro entry hentry
  have hne := (List.mem_filter.1 hentry).2
  rw [bne_iff_ne] at hne ⊢
  exact hne.symm

namespace Location

/-- The location leads through the place or to it. -/
def Passes (l : Location) (place : List String) : Prop :=
  ∃ front, front <+: l.parts ∧ place = (Location.mk l.slashes front).settled

theorem passes_settled {slashes other : Nat} {parts : List String} :
    (Location.mk slashes parts).Passes (Location.mk other parts).settled :=
  ⟨parts, List.prefix_refl parts, rfl⟩

theorem Passes.append {slashes : Nat} {front back place : List String}
    (h : (Location.mk slashes front).Passes place) :
    (Location.mk slashes (front ++ back)).Passes place := by
  obtain ⟨start, hstart, hplace⟩ := h
  exact ⟨start, hstart.trans (List.prefix_append front back), hplace⟩

end Location

namespace FileTree

variable {tree between made : FileTree} {place other : List String} {e : Entry} {l : Location}
  {text : String}

/-! ## One entry -/

@[simp]
theorem standing?_nil : tree.standing? [] = some .directory := rfl

theorem standing?_of_ne_nil (h : place ≠ []) :
    tree.standing? place = tree.entries.lookup place := by
  rw [standing?, if_neg (by simpa using h)]

theorem ne_nil_of_standing?_eq_none (h : tree.standing? place = none) : place ≠ [] := by
  rintro rfl
  cases h

/-- What stands somewhere below the root is one of the entries. -/
theorem mem_places_of_standing? (h : tree.standing? place = some e) (hplace : place ≠ []) :
    place ∈ tree.entries.map Prod.fst := by
  rw [standing?_of_ne_nil hplace] at h
  obtain ⟨before, after, hentries, -⟩ := List.lookup_eq_some_iff.1 h
  rw [hentries]
  simp

theorem lookup_overwrite (entries : List (List String × Entry)) :
    (entries.map fun old => if old.1 == place then (place, e) else old).lookup other =
      if other = place then (entries.lookup place).map fun _ => e else entries.lookup other := by
  induction entries with
  | nil => simp
  | cons entry rest ih =>
    obtain ⟨key, old⟩ := entry
    rw [List.map_cons, List.lookup_cons, List.lookup_cons, List.lookup_cons, ih]
    by_cases hkey : key = place
    · subst hkey
      by_cases hother : other = key
      · simp [hother]
      · simp [hother, beq_eq_false_iff_ne.2 hother]
    · have hplace : (place == key) = false := beq_eq_false_iff_ne.2 (Ne.symm hkey)
      by_cases hother : other = place
      · subst hother
        simp [hkey, hplace]
      · simp [hkey, hother]

/-- What stands in a tree with one more entry. -/
theorem standing?_put (h : place ≠ []) (e : Entry) (other : List String) :
    (tree.put place e).standing? other =
      if other = place then some e else tree.standing? other := by
  rcases eq_or_ne other [] with rfl | hother
  · rw [if_neg h.symm]
    rfl
  rw [standing?_of_ne_nil hother, standing?_of_ne_nil hother, put]
  by_cases hthere : tree.entries.any (·.1 == place)
  · -- the entry takes the place of an older one
    rw [if_pos hthere, lookup_overwrite]
    by_cases hsame : other = place
    · obtain ⟨old, hold, hkey⟩ := List.any_eq_true.1 hthere
      have hfound : tree.entries.lookup place ≠ none := by
        intro hnone
        have hne := List.lookup_eq_none_iff.1 hnone old hold
        rw [beq_iff_eq.1 hkey, bne_self_eq_false] at hne
        cases hne
      obtain ⟨found, hfound⟩ := Option.ne_none_iff_exists'.1 hfound
      rw [if_pos hsame, if_pos hsame, hfound]
      rfl
    · rw [if_neg hsame, if_neg hsame]
  · -- the entry stands behind all others
    rw [if_neg hthere, List.lookup_append]
    by_cases hsame : other = place
    · subst hsame
      have hnone : tree.entries.lookup other = none := by
        rw [List.lookup_eq_none_iff]
        intro entry hentry
        rw [bne_iff_ne]
        rintro rfl
        exact hthere (List.any_eq_true.2 ⟨entry, hentry, beq_self_eq_true _⟩)
      rw [if_pos rfl, hnone]
      simp
    · rw [if_neg hsame, List.lookup_cons, beq_eq_false_iff_ne.2 hsame]
      simp

/-- An entry that is put over another one replaces it. -/
theorem put_put (tree : FileTree) (place : List String) (first last : Entry) :
    (tree.put place first).put place last = tree.put place last := by
  by_cases hthere : tree.entries.any (·.1 == place)
  · have hafter : (tree.entries.map fun old =>
        if old.1 == place then (place, first) else old).any (·.1 == place) = true := by
      obtain ⟨old, hold, hkey⟩ := List.any_eq_true.1 hthere
      rw [List.any_map]
      exact List.any_eq_true.2 ⟨old, hold, by simp [beq_iff_eq.1 hkey]⟩
    rw [put, put, if_pos hthere, if_pos hafter, put, if_pos hthere, List.map_map]
    congr 1
    apply List.map_congr_left
    intro entry _
    by_cases hentry : entry.1 = place <;> simp [hentry]
  · have hothers : (tree.entries.map fun old => if old.1 == place then (place, last) else old) =
        tree.entries := by
      conv_rhs => rw [← List.map_id tree.entries]
      apply List.map_congr_left
      intro entry hentry
      rw [if_neg, id]
      exact fun hkey => hthere (List.any_eq_true.2 ⟨entry, hentry, hkey⟩)
    have hafter : (tree.entries ++ [(place, first)]).any (·.1 == place) = true := by
      simp
    rw [put, put, if_neg hthere, if_pos hafter, put, if_neg hthere, List.map_append, hothers]
    simp

/-- What stands in a tree with the entry of one place taken away. -/
theorem standing?_erase (h : place ≠ []) (other : List String) :
    (tree.erase place).standing? other = if other = place then none else tree.standing? other := by
  rcases eq_or_ne other [] with rfl | hother
  · rw [if_neg h.symm]
    rfl
  rw [standing?_of_ne_nil hother, standing?_of_ne_nil hother, erase]
  by_cases hsame : other = place
  · rw [if_pos hsame, hsame]
    exact lookup_filter_self place tree.entries
  · rw [if_neg hsame]
    exact lookup_filter_ne hsame tree.entries

/-! ## Ways through a tree -/

/-- Directories stay, and no place is vacated, so that every way through the tree stays open. -/
structure KeepsWays (tree made : FileTree) : Prop where
  directory : ∀ place, tree.standing? place = some .directory →
    made.standing? place = some .directory
  occupied : ∀ place, (tree.standing? place).isSome → (made.standing? place).isSome

theorem KeepsWays.step_eq_ok (h : tree.KeepsWays made) {next : List String} {part : String}
    (hstep : tree.step place part = .ok next) : made.step place part = .ok next := by
  unfold step at hstep ⊢
  cases hstanding : tree.standing? place with
  | none =>
    rw [hstanding] at hstep
    cases hstep
  | some e =>
    rw [hstanding] at hstep
    cases e with
    | file text => cases hstep
    | directory =>
      rw [h.directory place hstanding]
      by_cases hlong : longestName < part.utf8ByteSize
      · simp [hlong] at hstep
      by_cases hup : part = ".."
      · simpa [hup] using hstep
      by_cases hpart : (tree.standing? (place ++ [part])).isSome
      · simpa [hlong, hup, hpart, h.occupied _ hpart] using hstep
      · simp [hlong, hup, hpart] at hstep

theorem KeepsWays.foldlM_step_eq_ok (h : tree.KeepsWays made) {parts next : List String}
    (hwalk : parts.foldlM tree.step place = .ok next) :
    parts.foldlM made.step place = .ok next := by
  induction parts generalizing place with
  | nil => exact hwalk
  | cons part rest ih =>
    rw [List.foldlM_cons] at hwalk ⊢
    obtain ⟨between, hstep, hwalk⟩ := exists_of_bind_eq_ok hwalk
    rw [h.step_eq_ok hstep]
    exact ih hwalk

/-- Whatever could be reached can be reached at the same place. -/
theorem KeepsWays.walk_eq_ok (h : tree.KeepsWays made) {parts : List String}
    (hwalk : tree.walk parts = .ok place) : made.walk parts = .ok place :=
  h.foldlM_step_eq_ok hwalk

/-- A tree in which something is put at one place, where no directory stands, keeps every way
open. -/
theorem keepsWays_of_standing? (hfree : tree.standing? place ≠ some .directory)
    (h : ∀ other, made.standing? other =
      if other = place then some e else tree.standing? other) : tree.KeepsWays made := by
  constructor
  · intro other hother
    rw [h, if_neg]
    · exact hother
    · rintro rfl
      exact hfree hother
  · intro other hother
    rw [h]
    split_ifs
    · rfl
    · exact hother

/-- Putting a file where no directory stands keeps every way open. -/
theorem keepsWays_put (hplace : place ≠ []) (hfree : tree.standing? place ≠ some .directory) :
    tree.KeepsWays (tree.put place e) :=
  keepsWays_of_standing? hfree (standing?_put hplace e)

/-- A step takes a component into the place or, for `..`, leads back by one. -/
theorem eq_of_step {next : List String} {part : String}
    (h : tree.step place part = .ok next) :
    next = if part = ".." then place.dropLast else place ++ [part] := by
  unfold step at h
  cases hstanding : tree.standing? place with
  | none => simp [hstanding] at h
  | some e =>
    cases e with
    | file text => simp [hstanding] at h
    | directory =>
      simp only [hstanding] at h
      -- a step fails on a name that is too long and where nothing stands
      by_cases hlong : longestName < part.utf8ByteSize
      · simp [hlong] at h
      rw [if_neg hlong] at h
      by_cases hup : part = ".."
      · rw [if_pos hup] at h ⊢
        exact (Except.ok.inj h).symm
      · rw [if_neg hup] at h ⊢
        by_cases hthere : (tree.standing? (place ++ [part])).isSome
        · rw [if_pos hthere] at h
          exact (Except.ok.inj h).symm
        · rw [if_neg hthere] at h
          cases h

/-- A location that can be reached stands at its settled place. -/
theorem walk_settled (h : tree.walk l.parts = .ok place) : place = l.settled := by
  have hfold : ∀ (parts start : List String), parts.foldlM tree.step start = .ok place →
      place = parts.foldl
        (fun acc part => if part = ".." then acc.dropLast else acc ++ [part]) start := by
    intro parts
    induction parts with
    | nil =>
      intro start h
      exact (Except.ok.inj h).symm
    | cons part rest ih =>
      intro start h
      rw [List.foldlM_cons] at h
      obtain ⟨next, hstep, h⟩ := exists_of_bind_eq_ok h
      rw [List.foldl_cons, ← eq_of_step hstep]
      exact ih next h
  exact hfold l.parts [] h

/-- One more component is reached from a directory in which something stands under it. -/
theorem walk_append_singleton {parts : List String} {part : String}
    (hwalk : tree.walk parts = .ok place) (hplace : tree.standing? place = some .directory)
    (hpart : part ≠ "..") (hshort : ¬ longestName < part.utf8ByteSize)
    (hthere : (tree.standing? (place ++ [part])).isSome) :
    tree.walk (parts ++ [part]) = .ok (place ++ [part]) := by
  have hstep : tree.step place part = .ok (place ++ [part]) := by
    simp [step, hplace, hpart, hshort, hthere]
  rw [walk, List.foldlM_append, show parts.foldlM tree.step [] = .ok place from hwalk]
  simp only [bind, Except.bind, List.foldlM_cons, List.foldlM_nil, hstep]
  rfl

/-! ## Furnished trees -/

/-- The text of the file at a place. -/
def textAt? (tree : FileTree) (place : List String) : Option String :=
  match tree.standing? place with
  | some (.file text) => some text
  | _ => none

theorem mem_places_of_textAt? (h : tree.textAt? place = some text) :
    place ∈ tree.entries.map Prod.fst := by
  unfold textAt? at h
  split at h
  · next hstanding =>
    refine mem_places_of_standing? hstanding ?_
    rintro rfl
    cases hstanding
  · cases h

theorem textAt?_congr (h : made.standing? place = tree.standing? place) :
    made.textAt? place = tree.textAt? place := by
  rw [textAt?, textAt?, h]

/-- What stands in a tree stands in the other. -/
def Grows (tree made : FileTree) : Prop :=
  ∀ place e, tree.standing? place = some e → made.standing? place = some e

theorem Grows.keepsWays (h : tree.Grows made) : tree.KeepsWays made := by
  refine ⟨fun place => h place .directory, ?_⟩
  intro place hplace
  obtain ⟨e, he⟩ := Option.isSome_iff_exists.1 hplace
  rw [h place e he]
  rfl

/-- Putting something where nothing stands leaves what stands elsewhere. -/
theorem grows_put (hfree : tree.standing? place = none) : tree.Grows (tree.put place e) := by
  intro other found hfound
  rw [standing?_put (ne_nil_of_standing?_eq_none hfree), if_neg]
  · exact hfound
  · rintro rfl
    rw [hfree] at hfound
    cases hfound

/-- Whatever could be reached can be reached at the same place. -/
theorem Grows.walk_eq_ok (h : tree.Grows made) {parts : List String}
    (hwalk : tree.walk parts = .ok place) : made.walk parts = .ok place :=
  h.keepsWays.walk_eq_ok hwalk

/-- Something is there where a location leads to an entry. -/
theorem isThere_eq_ok_true_iff : tree.isThere l = .ok true ↔
    ∃ place e, tree.walk l.parts = .ok place ∧ tree.standing? place = some e := by
  rw [isThere, status]
  cases hwalk : tree.walk l.parts with
  | ok place =>
    simp only [Except.map, Except.ok.injEq, Option.isSome_iff_exists]
    constructor
    · rintro ⟨e, he⟩
      exact ⟨place, e, rfl, he⟩
    · rintro ⟨_, e, rfl, he⟩
      exact ⟨e, he⟩
  | error fault => cases fault <;> simp [Except.map]

theorem Grows.isThere (h : tree.Grows made) (hthere : tree.isThere l = .ok true) :
    made.isThere l = .ok true := by
  obtain ⟨place, e, hwalk, he⟩ := isThere_eq_ok_true_iff.1 hthere
  exact isThere_eq_ok_true_iff.2 ⟨place, e, h.walk_eq_ok hwalk, h place e he⟩

/-- The trees differ in new directories only, which stand at some of the given places. -/
def Furnished (room : List String → Prop) (tree made : FileTree) : Prop :=
  ∀ place, made.standing? place = tree.standing? place ∨
    room place ∧ tree.standing? place = none ∧ made.standing? place = some .directory

variable {room : List String → Prop}

theorem Furnished.refl (room : List String → Prop) (tree : FileTree) : Furnished room tree tree :=
  fun _ => .inl rfl

theorem Furnished.trans (h : Furnished room tree between) (h' : Furnished room between made) :
    Furnished room tree made := by
  intro place
  rcases h place with hsame | ⟨hroom, hnone, hdirectory⟩
  · rw [← hsame]
    exact h' place
  · rcases h' place with hsame' | ⟨-, hnone', -⟩
    · exact .inr ⟨hroom, hnone, hsame'.trans hdirectory⟩
    · rw [hdirectory] at hnone'
      cases hnone'

theorem Furnished.mono {more : List String → Prop} (h : Furnished room tree made)
    (hroom : ∀ place, room place → more place) : Furnished more tree made := by
  intro place
  rcases h place with hsame | ⟨hplace, hrest⟩
  · exact .inl hsame
  · exact .inr ⟨hroom place hplace, hrest⟩

theorem Furnished.grows (h : Furnished room tree made) : tree.Grows made := by
  intro place e he
  rcases h place with hsame | ⟨-, hnone, -⟩
  · exact hsame.trans he
  · rw [hnone] at he
    cases he

/-- Every file keeps its text, and there are no others. -/
theorem Furnished.textAt?_eq (h : Furnished room tree made) (place : List String) :
    made.textAt? place = tree.textAt? place := by
  rcases h place with hsame | ⟨-, hnone, hdirectory⟩
  · exact textAt?_congr hsame
  · rw [textAt?, textAt?, hnone, hdirectory]

/-- A new directory is put where nothing stands. -/
theorem furnished_put (hroom : room place) (hfree : tree.standing? place = none) :
    Furnished room tree (tree.put place .directory) := by
  intro other
  rw [standing?_put (ne_nil_of_standing?_eq_none hfree)]
  by_cases hsame : other = place
  · subst hsame
    exact .inr ⟨hroom, hfree, if_pos rfl⟩
  · exact .inl (if_neg hsame)

/-- A directory is made where the components lead and nothing stands. -/
theorem makeDirectory_furnished {parts : List String} (h : tree.makeDirectory parts = .ok made)
    (hroom : ∀ slashes, room (Location.mk slashes parts).settled) : Furnished room tree made := by
  obtain ⟨around, hwalk, h⟩ := exists_of_bind_eq_ok h
  cases haround : tree.standing? around with
  | none => simp [haround] at h
  | some e =>
    cases e with
    | file text => simp [haround] at h
    | directory =>
      cases hlast : parts.getLast? with
      | none => simp [haround, hlast] at h
      | some part =>
        simp only [haround, hlast] at h
        by_cases hlong : longestName < part.utf8ByteSize
        · simp [hlong] at h
        rw [if_neg hlong] at h
        by_cases htaken : part = ".." || (tree.standing? (around ++ [part])).isSome
        · simp [htaken] at h
        rw [if_neg htaken] at h
        simp only [Bool.or_eq_true, not_or, Option.not_isSome_iff_eq_none, decide_eq_true_eq]
          at htaken
        cases h
        -- the place is that of the location
        have hplace : (Location.mk 0 parts).settled = around ++ [part] := by
          obtain ⟨front, rfl⟩ := List.getLast?_eq_some_iff.1 hlast
          rw [List.dropLast_concat] at hwalk
          rw [walk_settled (l := ⟨0, front⟩) hwalk, Location.settled, List.foldl_append,
            List.foldl_cons, List.foldl_nil, if_neg htaken.1]
          rfl
        exact furnished_put (hplace ▸ hroom 0) htaken.2

theorem makeDirectoriesFrom_furnished {slashes : Nat} {parts : List String}
    (h : tree.makeDirectoriesFrom slashes parts = .ok made) :
    Furnished (Location.mk slashes parts.reverse).Passes tree made := by
  induction parts generalizing made with
  | nil =>
    cases h
    exact .refl _ tree
  | cons part around ih =>
    -- where no directory is made, the tree stays as it is
    have hsettle : ∀ {t : FileTree} {fault : FileFault},
        (do
          if ← t.isDirectory ⟨slashes, (part :: around).reverse⟩ then .ok t
          else .error (.file fault (Location.mk slashes (part :: around).reverse).render) :
          Except BuildError FileTree) = .ok made → t = made := by
      intro t fault hsettled
      obtain ⟨found, -, hsettled⟩ := exists_of_bind_eq_ok hsettled
      cases found with
      | true => exact Except.ok.inj hsettled
      | false => cases hsettled
    have hroom : ∀ slashes', (Location.mk slashes (part :: around).reverse).Passes
        (Location.mk slashes' (part :: around).reverse).settled :=
      fun _ => Location.passes_settled
    simp only [makeDirectoriesFrom] at h
    cases hmade : tree.makeDirectory (part :: around).reverse with
    | ok first =>
      simp only [hmade, Except.ok.injEq] at h
      rw [← h]
      exact makeDirectory_furnished hmade hroom
    | error fault =>
      cases fault with
      | notFound =>
        simp only [hmade] at h
        obtain ⟨outer, houter, h⟩ := exists_of_bind_eq_ok h
        have hfirst :
            Furnished (Location.mk slashes (part :: around).reverse).Passes tree outer := by
          rw [List.reverse_cons]
          exact (ih houter).mono fun _ => Location.Passes.append
        refine hfirst.trans ?_
        cases hagain : outer.makeDirectory (part :: around).reverse with
        | ok second =>
          simp only [hagain, Except.ok.injEq] at h
          rw [← h]
          exact makeDirectory_furnished hagain hroom
        | error fault =>
          simp only [hagain] at h
          rw [hsettle h]
          exact .refl _ made
      | _ =>
        simp only [hmade] at h
        rw [hsettle h]
        exact .refl _ made

/-- Making a directory and those around it touches nothing that stands and makes no file. -/
theorem makeDirectories_furnished (h : tree.makeDirectories l = .ok made) :
    Furnished l.Passes tree made := by
  have hmade := makeDirectoriesFrom_furnished h
  rwa [List.reverse_reverse] at hmade

/-! ## Names that are too long -/

theorem walk_concat (parts : List String) (part : String) :
    tree.walk (parts ++ [part]) = tree.walk parts >>= (tree.step · part) := by
  rw [walk, List.foldlM_append, ← walk]
  exact bind_congr fun place => bind_pure (tree.step place part)

theorem step_eq_nameTooLong_iff {part : String} : tree.step place part = .error .nameTooLong ↔
    tree.standing? place = some .directory ∧ longestName < part.utf8ByteSize := by
  unfold step
  split
  · next hplace =>
    rw [hplace, and_iff_right rfl]
    split_ifs with hlong <;> simp [hlong]
  · next hplace => simp [hplace]
  · next hplace => simp [hplace]

/-- The way through one more component leads through a name that is too long only if the way up to
it does, or if it is the component. -/
theorem walk_concat_nameTooLong {parts : List String} {part : String}
    (h : tree.walk (parts ++ [part]) = .error .nameTooLong) :
    tree.walk parts = .error .nameTooLong ∨
      ∃ around, tree.walk parts = .ok around ∧ tree.standing? around = some .directory ∧
        longestName < part.utf8ByteSize := by
  rw [walk_concat] at h
  cases hwalk : tree.walk parts with
  | error fault =>
    rw [hwalk] at h
    exact .inl h
  | ok around =>
    rw [hwalk] at h
    exact .inr ⟨around, rfl, step_eq_nameTooLong_iff.1 h⟩

/-- A directory is not made where the way leads through a name that is too long. -/
theorem makeDirectory_of_nameTooLong {parts : List String}
    (h : tree.walk parts = .error .nameTooLong) :
    tree.makeDirectory parts = .error .nameTooLong := by
  rcases List.eq_nil_or_concat parts with rfl | ⟨around, part, rfl⟩
  · cases h
  · rw [List.concat_eq_append] at h ⊢
    rw [makeDirectory, List.dropLast_concat, List.getLast?_concat]
    rcases walk_concat_nameTooLong h with hwalk | ⟨place, hwalk, hplace, hlong⟩
    · rw [hwalk]
      rfl
    · rw [hwalk]
      simp only [bind, Except.bind, hplace, if_pos hlong]

/-- The way to a directory that can be made leads through no name that is too long. -/
theorem walk_ne_nameTooLong (h : tree.makeDirectories l = .ok made) :
    tree.walk l.parts ≠ .error .nameTooLong := by
  intro hwalk
  rw [makeDirectories] at h
  cases hparts : l.parts.reverse with
  | nil =>
    rw [List.reverse_eq_nil_iff.1 hparts] at hwalk
    cases hwalk
  | cons part around =>
    have hreverse : (part :: around).reverse = l.parts := by rw [← hparts, List.reverse_reverse]
    rw [hparts, makeDirectoriesFrom, hreverse, makeDirectory_of_nameTooLong hwalk] at h
    simp only [isDirectory, status, hwalk] at h
    cases h

/-- Whether something is there cannot be said only where the way leads through a name that is too
long. -/
theorem isThere_eq_error {e : BuildError} (h : tree.isThere l = .error e) :
    tree.walk l.parts = .error .nameTooLong ∧ e = .file .nameTooLong l.render := by
  rw [isThere, status] at h
  cases hwalk : tree.walk l.parts with
  | ok place =>
    rw [hwalk] at h
    cases h
  | error fault =>
    rw [hwalk] at h
    cases fault <;> cases h
    exact ⟨rfl, rfl⟩

/-! ## Writing and renaming files -/

/-- The location leads to a file or to the place of one in a directory that stands. -/
structure IsOpen (tree : FileTree) (l : Location) (around : List String) (part : String) :
    Prop where
  walk : tree.walk l.parent.parts = .ok around
  directory : tree.standing? around = some .directory
  last : l.parts.getLast? = some part
  free : tree.standing? (around ++ [part]) ≠ some .directory
  short : ¬ longestName < part.utf8ByteSize
  ne_up : part ≠ ".."

theorem write_eq_ok (h : tree.write l text = .ok made) :
    ∃ around part, tree.IsOpen l around part ∧
      made = tree.put (around ++ [part]) (.file text) := by
  unfold write at h
  cases hwalk : tree.walk l.parent.parts with
  | error fault => simp [hwalk] at h
  | ok around =>
    cases hlast : l.parts.getLast? with
    | none => simp [hwalk, hlast] at h
    | some part =>
      simp only [hwalk, hlast] at h
      -- the ways in which writing fails, in their order
      by_cases hlong : longestName < part.utf8ByteSize
      · simp [hlong] at h
      rw [if_neg hlong] at h
      split at h
      · cases h
      · cases h
      · cases h
      · next haround hfree =>
        by_cases hup : part = ".."
        · simp [hup] at h
        · rw [if_neg hup] at h
          exact ⟨around, part, ⟨hwalk, haround, hlast, hfree, hlong, hup⟩,
            (Except.ok.inj h).symm⟩

theorem IsOpen.parts_eq {around : List String} {part : String} (h : tree.IsOpen l around part) :
    l.parts = l.parent.parts ++ [part] := by
  obtain ⟨front, hfront⟩ := List.getLast?_eq_some_iff.1 h.last
  rw [Location.parent, hfront, List.dropLast_concat]

/-- A new file is put where nothing stands. -/
theorem create_eq_ok (h : tree.create l text = .ok made) :
    ∃ around part, tree.IsOpen l around part ∧ tree.standing? (around ++ [part]) = none ∧
      made = tree.put (around ++ [part]) (.file text) := by
  obtain ⟨found, hfound, h⟩ := exists_of_bind_eq_ok h
  cases found with
  | true => cases h
  | false =>
    obtain ⟨around, part, hopen, rfl⟩ := write_eq_ok h
    refine ⟨around, part, hopen, ?_, rfl⟩
    -- whatever stood there would have been found
    by_contra hthere
    have hsome := Option.ne_none_iff_isSome.1 hthere
    have hwalk : tree.walk l.parts = .ok (around ++ [part]) := by
      rw [hopen.parts_eq]
      exact walk_append_singleton hopen.walk hopen.directory hopen.ne_up hopen.short hsome
    rw [isThere, status, hwalk] at hfound
    cases hfound.symm.trans (congrArg Except.ok hsome)

/-- Where something stands in the end, the location is reached. -/
theorem IsOpen.walk_eq_ok {around : List String} {part : String}
    (h : tree.IsOpen l around part) (hways : tree.KeepsWays made)
    (hthere : (made.standing? (around ++ [part])).isSome) :
    made.walk l.parts = .ok (around ++ [part]) := by
  rw [h.parts_eq]
  exact walk_append_singleton (hways.walk_eq_ok h.walk) (hways.directory _ h.directory) h.ne_up
    h.short hthere

/-- A file that is written over takes the place of the old one. -/
theorem IsOpen.write_put {around : List String} {name old : String} (h : tree.IsOpen l around name)
    (hwrite : (tree.put (around ++ [name]) (.file old)).write l text = .ok made) :
    made = tree.put (around ++ [name]) (.file text) := by
  obtain ⟨elsewhere, part, hopen, rfl⟩ := write_eq_ok hwrite
  have hways := keepsWays_put (e := .file old) (by simp) h.free
  obtain rfl : elsewhere = around :=
    Except.ok.inj (hopen.walk.symm.trans (hways.walk_eq_ok h.walk))
  obtain rfl : part = name := Option.some.inj (hopen.last.symm.trans h.last)
  exact put_put tree _ _ _

/-- A text is read where a file with the text stands. -/
theorem read_eq_ok_iff : tree.read l = .ok text ↔
    ∃ place, tree.walk l.parts = .ok place ∧ tree.standing? place = some (.file text) := by
  unfold read
  cases hwalk : tree.walk l.parts with
  | error fault => simp
  | ok place =>
    cases hplace : tree.standing? place with
    | none => simp [hplace]
    | some e => cases e <;> simp [hplace]

/-- A file is found where one stands. -/
theorem standing?_of_isFile (h : tree.isFile l = .ok true) :
    ∃ text, tree.standing? l.settled = some (.file text) := by
  obtain ⟨found, hfound, h⟩ := exists_of_map_eq_ok h
  unfold status at hfound
  cases hwalk : tree.walk l.parts with
  | error fault => cases fault <;> simp [hwalk] at hfound <;> simp [← hfound] at h
  | ok place =>
    simp only [hwalk, Except.ok.injEq] at hfound
    rw [← walk_settled hwalk, hfound]
    match found, h with
    | some (.file text), _ => exact ⟨text, rfl⟩

theorem unlink_eq (hwalk : tree.walk l.parts = .ok place)
    (hplace : tree.standing? place = some (.file text)) : tree.unlink l = tree.erase place := by
  rw [unlink, hwalk]
  simp only [hplace]

/-- A file that is renamed stands at the new location and no longer at the old one. -/
theorem rename_eq_ok {source goal : Location} (h : tree.rename source goal = .ok made) :
    ∃ start text around part, tree.walk source.parts = .ok start ∧
      tree.standing? start = some (.file text) ∧ tree.IsOpen goal around part ∧
      made = (tree.put (around ++ [part]) (.file text)).erase start := by
  obtain ⟨text, hread, h⟩ := exists_of_bind_eq_ok h
  obtain ⟨start, hstart, htext⟩ := read_eq_ok_iff.1 hread
  split_ifs at h with hbusy
  obtain ⟨written, hwritten, h⟩ := exists_of_bind_eq_ok h
  obtain ⟨around, part, hopen, rfl⟩ := write_eq_ok hwritten
  refine ⟨start, text, around, part, hstart, htext, hopen, ?_⟩
  have hne : around ++ [part] ≠ [] := by simp
  -- the file is still found under its old name
  have hways := (keepsWays_put (e := .file text) hne hopen.free).walk_eq_ok hstart
  have hstill : (tree.put (around ++ [part]) (.file text)).standing? start =
      some (.file text) := by
    rw [standing?_put hne]
    split_ifs
    · rfl
    · exact htext
  rw [← Except.ok.inj h]
  exact unlink_eq hways hstill

/-! ## Faults of the file system -/

theorem isFileFault_of_write {e : BuildError} (h : tree.write l text = .error e) :
    e.isFileFault := by
  unfold write at h
  split at h
  · cases h
    rfl
  · cases h
    rfl
  · next around part _ _ =>
    by_cases hlong : longestName < part.utf8ByteSize
    · rw [if_pos hlong] at h
      cases h
      rfl
    · rw [if_neg hlong] at h
      split at h
      · cases h
        rfl
      · cases h
        rfl
      · cases h
        rfl
      · split_ifs at h
        cases h
        rfl

theorem isFileFault_of_rename {source goal : Location} {e : BuildError}
    (h : tree.rename source goal = .error e) : e.isFileFault := by
  rcases eq_error_of_bind h with hread | ⟨text, -, h⟩
  · unfold read at hread
    split at hread
    · cases hread
      rfl
    · split at hread <;> cases hread <;> rfl
  · split_ifs at h
    · cases h
      rfl
    · rcases eq_error_of_bind h with hwrite | ⟨written, -, h⟩
      · exact isFileFault_of_write hwrite
      · cases h

/-! ## Replacing a file -/

/-- The file at the place holds the text, where no directory was in the way, and everything else
stands as it did. -/
structure Replaces (tree made : FileTree) (place : List String) (text : String) : Prop where
  free : tree.standing? place ≠ some .directory
  output : made.standing? place = some (.file text)
  others : ∀ other, other ≠ place → made.standing? other = tree.standing? other

section Spare

variable {spare goal : Location} {around : List String} {name : String}

/-- A new file that is moved stands where it was moved to, and everything else as at the start. -/
theorem standing?_move {first last : List String} (hfirst : first ≠ []) (hlast : last ≠ [])
    (hne : last ≠ first) (hfree : tree.standing? first = none) (other : List String) :
    (((tree.put first e).put last e).erase first).standing? other =
      if other = last then some e else tree.standing? other := by
  rw [standing?_erase hfirst, standing?_put hlast, standing?_put hfirst]
  by_cases hstart : other = first
  · rw [if_pos hstart, if_neg (hstart ▸ hne.symm), hstart, hfree]
  · rw [if_neg hstart, if_neg hstart]

/-- A new file that is renamed over another location of its directory leaves no trace but there. -/
theorem replaces_of_rename (hspare : tree.IsOpen spare around name)
    (hfree : tree.standing? (around ++ [name]) = none) (hparent : goal.parent = spare.parent)
    (hname : goal.parts.getLast? ≠ some name)
    (h : (tree.put (around ++ [name]) (.file text)).rename spare goal = .ok made) :
    ∃ place, made.walk goal.parts = .ok place ∧ tree.Replaces made place text := by
  have hne : around ++ [name] ≠ [] := by simp
  obtain ⟨start, found, elsewhere, part, hstart, hfound, hopen, rfl⟩ := rename_eq_ok h
  -- the file that is renamed is the new one, and both locations are in the same directory
  have hwritten := keepsWays_put (e := .file text) hne hspare.free
  obtain rfl : start = around ++ [name] := by
    have hnew := hspare.walk_eq_ok hwritten (by simp [standing?_put hne])
    exact Except.ok.inj (hstart.symm.trans hnew)
  obtain rfl : found = text := by
    simpa [standing?_put hne] using hfound.symm
  obtain rfl : elsewhere = around := by
    have hwalk := hwritten.walk_eq_ok hspare.walk
    rw [← hparent] at hwalk
    exact Except.ok.inj (hopen.walk.symm.trans hwalk)
  have hplace : elsewhere ++ [part] ≠ elsewhere ++ [name] := by
    intro hsame
    obtain ⟨-, hpart⟩ := List.append_inj' hsame rfl
    exact hname (List.singleton_inj.1 hpart ▸ hopen.last)
  have hgoal : elsewhere ++ [part] ≠ [] := by simp
  have hlast : tree.standing? (elsewhere ++ [part]) ≠ some .directory := by
    have hwas := hopen.free
    rw [standing?_put hne, if_neg hplace] at hwas
    exact hwas
  have hopenBefore : tree.IsOpen goal elsewhere part :=
    ⟨hparent ▸ hspare.walk, hspare.directory, hopen.last, hlast, hopen.short, hopen.ne_up⟩
  have hstanding := standing?_move (e := .file found) hne hgoal hplace hfree
  refine ⟨elsewhere ++ [part], ?_, hlast, ?_, ?_⟩
  · refine hopenBefore.walk_eq_ok (keepsWays_of_standing? hlast hstanding) ?_
    rw [hstanding, if_pos rfl]
    rfl
  · rw [hstanding, if_pos rfl]
  · intro other hother
    rw [hstanding, if_neg hother]

/-- Taking a new file away again leaves the tree as it was. -/
theorem standing?_unlink (hspare : tree.IsOpen spare around name)
    (hfree : tree.standing? (around ++ [name]) = none) (other : List String) :
    ((tree.put (around ++ [name]) (.file text)).unlink spare).standing? other =
      tree.standing? other := by
  have hne : around ++ [name] ≠ [] := by simp
  have hstill : (tree.put (around ++ [name]) (.file text)).standing? (around ++ [name]) =
      some (.file text) := by
    rw [standing?_put hne, if_pos rfl]
  have hwalk := hspare.walk_eq_ok (keepsWays_put (e := .file text) hne hspare.free)
    (by rw [hstill]; rfl)
  rw [unlink_eq hwalk hstill, standing?_erase hne, standing?_put hne]
  by_cases hsame : other = around ++ [name]
  · rw [if_pos hsame, hsame, hfree]
  · rw [if_neg hsame, if_neg hsame]

end Spare

end FileTree

end Makewright
