import Makewright.Proofs.Target
import Mathlib.Data.List.Infix
import Mathlib.Logic.Function.Basic
import Mathlib.Logic.Relation

/-!
# Installing files

A disk as the commands of an install rule see it: what stands at a place is a directory, a file or a
symbolic link. `Tree.run` carries out `mkdir -p`, `install` and `ln -sf`; a command fails if
something is in its way, and a later file or link replaces an earlier one.

An `Installation` makes a directory, copies a file into it and makes a chain of links to the copy.
Several installations that are `Apart` all last: behind the commands of the last one, every copy is
that of its own file, and every link leads to the copy of its installation
(`exists_run_installations`).
-/

set_option autoImplicit false

namespace Makewright.Install

open Makewright.Path Relation

/-- What stands at a place. A link holds the text that it was made with. -/
inductive Item where
  | directory
  | file (text : String)
  | link (text : String)
  deriving DecidableEq

/-- What stands at the places of a disk, each by its components from the root on. -/
abbrev Tree := List String → Option Item

/-- The place that a path names, seen from a directory. -/
def placeOf (cwd : Location) (path : String) : List String :=
  (cwd.child path).settled

namespace Tree

/-- A directory stands at the place, or one can be made there. -/
def Admits (t : Tree) (place : List String) : Prop :=
  t place = none ∨ t place = some .directory

instance (t : Tree) (place : List String) : Decidable (t.Admits place) :=
  inferInstanceAs (Decidable (_ ∨ _))

/-- Make a directory and those around it, as far as they are missing. -/
def makeDirectories (t : Tree) (place : List String) : Option Tree :=
  if ∀ front ∈ place.inits, t.Admits front then
    some fun other => if other <+: place then some .directory else t other
  else none

/-- Put a file or a link at a place, in a directory that is there and over a file or a link. -/
def put (t : Tree) (place : List String) (item : Item) : Option Tree :=
  if t place.dropLast = some .directory ∧ t place ≠ some .directory then
    some (Function.update t place (some item))
  else none

/-- The text of the file at a place. -/
def fileAt? (t : Tree) (place : List String) : Option String :=
  match t place with
  | some (.file text) => some text
  | _ => none

/-- Copy a file to another place. -/
def copy (t : Tree) (source place : List String) : Option Tree := do
  let text ← t.fileAt? source
  if source = place then none else t.put place (.file text)

/-- Carry out a command by its argument vector, as far as it is one that installs. -/
def run (cwd : Location) (t : Tree) : List String → Option Tree
  | ["mkdir", "-p", directory] => t.makeDirectories (placeOf cwd directory)
  | ["install", "-m", "0755", source, path] => t.copy (placeOf cwd source) (placeOf cwd path)
  | ["ln", "-sf", text, path] => t.put (placeOf cwd path) (.link text)
  | _ => none

/-- A link stands at the first place, and it names the second one. -/
def Points (t : Tree) (a b : List String) : Prop :=
  ∃ text, t a = some (.link text) ∧ placeOf ⟨1, a.dropLast⟩ text = b

end Tree

/-- A file that is copied into a directory under a name, and the names of the links that are made
there, each to the one before it. -/
structure Installation where
  source : String
  directory : String
  name : String
  links : List String
  deriving DecidableEq

namespace Installation

variable (i : Installation) (cwd : Location)

/-- The names of the links, each behind the name that it is made with. -/
def pairs : List (String × String) :=
  (i.name :: i.links).zip i.links

/-- The argument vectors of the commands. -/
def commands : List (List String) :=
  ["mkdir", "-p", i.directory]
    :: ["install", "-m", "0755", i.source, i.directory ++ "/" ++ i.name]
    :: i.pairs.map fun pair => ["ln", "-sf", pair.1, i.directory ++ "/" ++ pair.2]

/-- The place of the directory. -/
def around : List String :=
  placeOf cwd i.directory

/-- The place of a name in the directory. -/
def place (name : String) : List String :=
  i.around cwd ++ [name]

/-- The places that something is put at. -/
def places : List (List String) :=
  (i.name :: i.links).map (i.place cwd)

/-- The directory is named, and the names are distinct names of files. -/
structure WellFormed : Prop where
  directory : i.directory ≠ ""
  isPlain : ∀ name ∈ i.name :: i.links, IsPlain name.toList
  nodup : (i.name :: i.links).Nodup

/-- A copy of the file stands in the directory, and every link leads to it. -/
structure Lasts (before after : Tree) : Prop where
  copied : ∃ text, before.fileAt? (placeOf cwd i.source) = some text ∧
    after (i.place cwd i.name) = some (.file text)
  linked : ∀ link ∈ i.links, ReflTransGen after.Points (i.place cwd link) (i.place cwd i.name)

end Installation

/-! ## Places -/

section Places

variable {cwd : Location} {path directory name : String}

theorem rootSlashes_eq_zero_iff {s : List Char} : rootSlashes s = 0 ↔ s.head? ≠ some '/' := by
  cases s with
  | nil => simp [rootSlashes]
  | cons c rest =>
    by_cases hc : c = '/'
    · subst hc
      unfold rootSlashes
      split <;> simp_all
    · simp [rootSlashes, hc]

/-- No place goes upward. -/
theorem not_mem_settled (l : Location) : ".." ∉ l.settled := by
  obtain ⟨slashes, parts⟩ := l
  induction parts using List.reverseRecOn with
  | nil => exact List.not_mem_nil
  | append_singleton front part ih =>
    rw [Location.settled, List.foldl_append, List.foldl_cons, List.foldl_nil]
    split
    · exact fun h => ih (List.dropLast_subset _ h)
    · next hne =>
      rw [List.mem_append, List.mem_singleton, not_or]
      exact ⟨ih, Ne.symm hne⟩

/-- A place is what it is, seen from the root. -/
theorem settled_placeOf : (Location.mk 1 (placeOf cwd path)).settled = placeOf cwd path := by
  have hsettled : (Location.mk 1 ([] ++ (cwd.child path).settled)).settled =
      [] ++ (cwd.child path).settled :=
    Location.settled_append (not_mem_settled (cwd.child path))
  exact hsettled

/-- The place of a name in a directory. -/
theorem placeOf_append (hdirectory : directory ≠ "") (hname : IsPlain name.toList) :
    placeOf cwd (directory ++ "/" ++ name) = placeOf cwd directory ++ [name] := by
  have htext : (directory ++ "/" ++ name).toList = (directory.toList ++ ['/']) ++ name.toList := by
    simp
  have hparts : components (directory ++ "/" ++ name).toList =
      components directory.toList ++ [name.toList] := by
    rw [htext, components_append (.inr ⟨_, rfl⟩) hname, components_append_slash]
  -- only the first character says whether a path starts at the root
  have hroot : rootSlashes (directory ++ "/" ++ name).toList = 0 ↔
      rootSlashes directory.toList = 0 := by
    obtain ⟨c, rest, hcons⟩ := List.exists_cons_of_ne_nil
      (mt String.toList_eq_nil_iff.1 hdirectory)
    rw [rootSlashes_eq_zero_iff, rootSlashes_eq_zero_iff, htext, hcons]
    rfl
  have hup : ".." ∉ [name] := by
    rw [List.mem_singleton]
    rintro rfl
    exact hname.ne_up rfl
  have hsettled : ∀ front slashes other, (Location.mk slashes (front ++ (components
      (directory ++ "/" ++ name).toList).map String.ofList)).settled =
        (Location.mk other (front ++ (components directory.toList).map String.ofList)).settled
          ++ [name] := by
    intro front slashes other
    rw [hparts, List.map_append, List.map_singleton, String.ofList_toList, ← List.append_assoc]
    exact Location.settled_append hup
  unfold placeOf Location.child Location.join Location.isAbsolute
  by_cases hzero : rootSlashes directory.toList = 0
  · rw [if_neg (by simpa [Location.parse] using hroot.2 hzero),
      if_neg (by simpa [Location.parse] using hzero)]
    exact hsettled cwd.parts _ _
  · rw [if_pos (by simpa [Location.parse] using mt hroot.1 hzero),
      if_pos (by simpa [Location.parse] using hzero)]
    exact hsettled [] _ _

end Places

/-! ## One installation -/

section Commands

variable {cwd : Location} {t after : Tree} {place : List String} {item : Item} {i : Installation}

/-- No directory is made where a file stands. -/
theorem not_admits_of_fileAt? {text : String} (h : t.fileAt? place = some text) :
    ¬ t.Admits place := by
  rintro (hnone | hdirectory)
  · simp [Tree.fileAt?, hnone] at h
  · simp [Tree.fileAt?, hdirectory] at h

/-- What is put at a place stands there, and the rest is as it was. -/
theorem exists_put (place : List String) (hdirectory : t place.dropLast = some .directory)
    (hfree : t place ≠ some .directory) (item : Item) :
    ∃ after, t.put place item = some after ∧ after place = some item ∧
      ∀ other, other ≠ place → after other = t other :=
  ⟨_, if_pos ⟨hdirectory, hfree⟩, Function.update_self place (some item) t,
    fun _ hother => Function.update_of_ne hother (some item) t⟩

/-- A file that is copied to a place stands there, and the rest is as it was. -/
theorem exists_copy {source : List String} (place : List String) {text : String}
    (hsource : t.fileAt? source = some text) (hne : source ≠ place)
    (hdirectory : t place.dropLast = some .directory) (hfree : t place ≠ some .directory) :
    ∃ after, t.copy source place = some after ∧ after place = some (.file text) ∧
      ∀ other, other ≠ place → after other = t other := by
  rw [Tree.copy, hsource, Option.bind_eq_bind, Option.bind_some, if_neg hne]
  exact exists_put place hdirectory hfree (.file text)

/-- Behind the directories that are made, nothing else is new. -/
theorem exists_makeDirectories (h : ∀ front, front <+: place → t.Admits front) :
    ∃ after, t.makeDirectories place = some after ∧ after place = some .directory ∧
      ∀ other, after other = t other ∨ (after other = some .directory ∧ other <+: place) := by
  refine ⟨_, if_pos fun front hfront => h front ((List.mem_inits _ _).1 hfront), ?_, ?_⟩
  · exact if_pos (List.prefix_refl place)
  · intro other
    by_cases hother : other <+: place
    · exact .inr ⟨if_pos hother, hother⟩
    · exact .inl (if_neg hother)

/-- The commands that make links, one after the other, make all of them and nothing else. -/
theorem exists_run_links {directory : String} (hdirectory : directory ≠ "")
    {pairs : List (String × String)} (hplain : ∀ pair ∈ pairs, IsPlain pair.2.toList)
    (hnodup : (pairs.map Prod.snd).Nodup)
    (hthere : t (placeOf cwd directory) = some .directory)
    (hfree : ∀ pair ∈ pairs, t (placeOf cwd directory ++ [pair.2]) ≠ some .directory) :
    ∃ after, (pairs.map fun pair => ["ln", "-sf", pair.1, directory ++ "/" ++ pair.2]).foldlM
        (Tree.run cwd) t = some after ∧
      (∀ pair ∈ pairs, after (placeOf cwd directory ++ [pair.2]) = some (.link pair.1)) ∧
      ∀ place, (∀ pair ∈ pairs, place ≠ placeOf cwd directory ++ [pair.2]) →
        after place = t place := by
  induction pairs generalizing t with
  | nil => exact ⟨t, rfl, by simp, fun _ _ => rfl⟩
  | cons pair rest ih =>
    rw [List.forall_mem_cons] at hplain hfree
    rw [List.map_cons, List.nodup_cons] at hnodup
    have hother : ∀ next ∈ rest,
        placeOf cwd directory ++ [next.2] ≠ placeOf cwd directory ++ [pair.2] := by
      intro next hnext heq
      exact hnodup.1 (List.mem_map.2 ⟨next, hnext, by simpa using heq⟩)
    -- the first link is made, and the places of the others stay as they are
    obtain ⟨made, hmade, hlink, hsame⟩ := exists_put (placeOf cwd directory ++ [pair.2])
      (by rwa [List.dropLast_concat]) hfree.1 (.link pair.1)
    rw [← placeOf_append hdirectory hplain.1] at hmade
    have hmadeFree : ∀ next ∈ rest,
        made (placeOf cwd directory ++ [next.2]) ≠ some .directory := by
      intro next hnext
      rw [hsame _ (hother next hnext)]
      exact hfree.2 next hnext
    obtain ⟨after, hrun, hlinks, hkept⟩ := ih hplain.2 hnodup.2
      (by rwa [hsame _ (by simp)]) hmadeFree
    refine ⟨after, ?_, ?_, ?_⟩
    · rw [List.map_cons, List.foldlM_cons, Tree.run, hmade]
      exact hrun
    · rw [List.forall_mem_cons]
      refine ⟨?_, hlinks⟩
      rw [hkept _ fun next hnext => (hother next hnext).symm, hlink]
    · intro place hplace
      rw [List.forall_mem_cons] at hplace
      rw [hkept place hplace.2, hsame place hplace.1]

theorem snd_mem_of_mem_pairs {pair : String × String} (h : pair ∈ i.pairs) : pair.2 ∈ i.links :=
  (List.of_mem_zip h).2

theorem map_snd_pairs (i : Installation) : i.pairs.map Prod.snd = i.links :=
  List.map_snd_zip (by simp)

/-- A copy of a file with this text stands in the directory, and every link is there. -/
structure Stands (cwd : Location) (i : Installation) (text : String) (t : Tree) : Prop where
  copied : t (i.place cwd i.name) = some (.file text)
  linked : ∀ pair ∈ i.pairs, t (i.place cwd pair.2) = some (.link pair.1)

/-- What stands is still there as long as nothing is put over it. -/
theorem Stands.keep {text : String} (h : Stands cwd i text t)
    (hkept : ∀ place ∈ i.places cwd, after place = t place) : Stands cwd i text after := by
  have hname : ∀ name ∈ i.name :: i.links, after (i.place cwd name) = t (i.place cwd name) :=
    fun name hname => hkept _ (List.mem_map_of_mem hname)
  refine ⟨?_, fun pair hpair => ?_⟩
  · rw [hname i.name List.mem_cons_self]
    exact h.copied
  · rw [hname pair.2 (List.mem_cons_of_mem _ (snd_mem_of_mem_pairs hpair))]
    exact h.linked pair hpair

/-- The disk lets an installation take place: the file is there, and nothing is in the way. -/
structure Tree.Lets (t : Tree) (cwd : Location) (i : Installation) (text : String) : Prop where
  built : t.fileAt? (placeOf cwd i.source) = some text
  ways : ∀ front, front <+: i.around cwd → t.Admits front
  free : ∀ place ∈ i.places cwd, t place ≠ some .directory
  apart : placeOf cwd i.source ∉ i.places cwd

/-- No place of an installation lies around the others. -/
theorem not_place_prefix (i : Installation) (cwd : Location) (name : String) :
    ¬ i.place cwd name <+: i.around cwd := by
  intro hprefix
  have hlength := hprefix.length_le
  rw [Installation.place, List.length_append, List.length_singleton] at hlength
  omega

theorem place_mem_places (cwd : Location) {name : String} (h : name ∈ i.name :: i.links) :
    i.place cwd name ∈ i.places cwd :=
  List.mem_map_of_mem h

/-- Once the directories are made and the file is copied, nothing else is new. -/
theorem exists_copied {text : String} (hi : i.WellFormed) (h : t.Lets cwd i text) :
    ∃ opened copied, Tree.run cwd t ["mkdir", "-p", i.directory] = some opened ∧
      Tree.run cwd opened ["install", "-m", "0755", i.source, i.directory ++ "/" ++ i.name] =
        some copied ∧
      copied (i.place cwd i.name) = some (.file text) ∧ copied (i.around cwd) = some .directory ∧
      ∀ place, place ≠ i.place cwd i.name → copied place = t place ∨
        (copied place = some .directory ∧ place <+: i.around cwd) := by
  obtain ⟨hname, -⟩ := List.forall_mem_cons.1 hi.isPlain
  have hplace := place_mem_places (i := i) cwd List.mem_cons_self
  -- the directories
  obtain ⟨opened, hopened, hthere, hkept⟩ := exists_makeDirectories h.ways
  have hat : opened (i.place cwd i.name) = t (i.place cwd i.name) :=
    (hkept _).resolve_right fun hmade => not_place_prefix i cwd i.name hmade.2
  have hsource : opened.fileAt? (placeOf cwd i.source) = some text := by
    rcases hkept (placeOf cwd i.source) with heq | ⟨-, hprefix⟩
    · rw [Tree.fileAt?, heq]
      exact h.built
    · exact absurd (h.ways _ hprefix) (not_admits_of_fileAt? h.built)
  -- the copy
  obtain ⟨copied, hcopy, hcopied, hsame⟩ := exists_copy (i.place cwd i.name) hsource
    (fun heq => h.apart (heq ▸ hplace)) (by rwa [Installation.place, List.dropLast_concat])
    (by rw [hat]; exact h.free _ hplace)
  refine ⟨opened, copied, hopened, ?_, hcopied, ?_, fun place hne => ?_⟩
  · rw [Tree.run, placeOf_append hi.directory hname]
    exact hcopy
  · rw [hsame _ fun heq => not_place_prefix i cwd i.name (heq ▸ List.prefix_refl _), hthere]
  · rw [hsame place hne]
    exact hkept place

/-- The commands of an installation succeed where nothing is in their way, and they touch only the
places of the installation and the directories around them. -/
theorem exists_run {text : String} (hi : i.WellFormed) (h : t.Lets cwd i text) :
    ∃ after, i.commands.foldlM (Tree.run cwd) t = some after ∧ Stands cwd i text after ∧
      ∀ place ∉ i.places cwd, after place = t place ∨
        (after place = some .directory ∧ place <+: i.around cwd) := by
  obtain ⟨hnew, hnodup⟩ := List.nodup_cons.1 hi.nodup
  have hlink : ∀ pair ∈ i.pairs, pair.2 ∈ i.name :: i.links := fun pair hpair =>
    List.mem_cons_of_mem _ (snd_mem_of_mem_pairs hpair)
  obtain ⟨opened, copied, hmkdir, hinstall, hcopied, hthere, hkept⟩ := exists_copied hi h
  have hne : ∀ pair ∈ i.pairs, i.place cwd pair.2 ≠ i.place cwd i.name := by
    intro pair hpair heq
    have hnames : pair.2 = i.name := by simpa [Installation.place] using heq
    exact hnew (hnames ▸ snd_mem_of_mem_pairs hpair)
  -- no directory has been made where a link goes
  have hfree : ∀ pair ∈ i.pairs, copied (i.place cwd pair.2) ≠ some .directory := by
    intro pair hpair
    rw [(hkept _ (hne pair hpair)).resolve_right fun hmade => not_place_prefix i cwd pair.2 hmade.2]
    exact h.free _ (place_mem_places cwd (hlink pair hpair))
  obtain ⟨after, hrun, hlinked, hrest⟩ := exists_run_links hi.directory
    (fun pair hpair => hi.isPlain _ (hlink pair hpair)) (by rwa [map_snd_pairs]) hthere hfree
  refine ⟨after, ?_, ⟨?_, hlinked⟩, ?_⟩
  · rw [Installation.commands, List.foldlM_cons, hmkdir, Option.bind_eq_bind, Option.bind_some,
      List.foldlM_cons, hinstall]
    exact hrun
  · rw [hrest _ fun pair hpair => (hne pair hpair).symm, hcopied]
  · intro place hplace
    have hother : ∀ name ∈ i.name :: i.links, place ≠ i.place cwd name := fun name hname heq =>
      hplace (heq ▸ place_mem_places cwd hname)
    rw [hrest place fun pair hpair => hother _ (hlink pair hpair)]
    exact hkept place (hother _ List.mem_cons_self)

/-- A link made with a plain name points at that name in its directory. -/
theorem points_of_link {path name previous : String} (hprevious : IsPlain previous.toList)
    (h : t (placeOf cwd path ++ [name]) = some (.link previous)) :
    t.Points (placeOf cwd path ++ [name]) (placeOf cwd path ++ [previous]) := by
  refine ⟨previous, h, ?_⟩
  rw [List.dropLast_concat, placeOf, Location.settled_child_plain hprevious, settled_placeOf]

/-- A chain of links leads to where its first one does. -/
theorem leads_of_links {path previous : String} {links : List String} {goal : List String}
    (hplain : ∀ name ∈ previous :: links, IsPlain name.toList)
    (h : ∀ pair ∈ (previous :: links).zip links,
      t (placeOf cwd path ++ [pair.2]) = some (.link pair.1))
    (hfirst : ReflTransGen t.Points (placeOf cwd path ++ [previous]) goal) :
    ∀ link ∈ links, ReflTransGen t.Points (placeOf cwd path ++ [link]) goal := by
  induction links generalizing previous with
  | nil => simp
  | cons link rest ih =>
    rw [List.forall_mem_cons] at hplain
    rw [List.zip_cons_cons, List.forall_mem_cons] at h
    have hlink : ReflTransGen t.Points (placeOf cwd path ++ [link]) goal :=
      .head (points_of_link hplain.1 h.1) hfirst
    exact List.forall_mem_cons.2 ⟨hlink, ih hplain.2 h.2 hlink⟩

end Commands

/-! ## Several installations -/

section Several

variable {cwd : Location} {before t : Tree} {i : Installation} {is done rest : List Installation}

/-- No place of an installation is one of another installation or one where a directory is made. -/
structure Apart (cwd : Location) (is : List Installation) : Prop where
  places : is.Pairwise fun i j => List.Disjoint (i.places cwd) (j.places cwd)
  ways : ∀ i ∈ is, ∀ j ∈ is, ∀ place ∈ i.places cwd, ¬ place <+: j.around cwd

/-- The files that are copied are there, outside of the places that they are copied to, and nothing
is in the way of what is made. -/
structure Tree.Ready (t : Tree) (cwd : Location) (is : List Installation) : Prop where
  built : ∀ i ∈ is, (t.fileAt? (placeOf cwd i.source)).isSome
  outside : ∀ i ∈ is, ∀ j ∈ is, placeOf cwd i.source ∉ j.places cwd
  ways : ∀ i ∈ is, ∀ front, front <+: i.around cwd → t.Admits front
  free : ∀ i ∈ is, ∀ place ∈ i.places cwd, t place ≠ some .directory

instance (cwd : Location) (is : List Installation) : Decidable (Apart cwd is) :=
  decidable_of_iff
    (is.Pairwise (fun i j => ∀ place ∈ i.places cwd, place ∉ j.places cwd) ∧
      ∀ i ∈ is, ∀ j ∈ is, ∀ place ∈ i.places cwd, ¬ place <+: j.around cwd)
    ⟨fun h => ⟨h.1.imp fun hij _ hi hj => hij _ hi hj, h.2⟩,
      fun h => ⟨h.1.imp fun hij _ hi hj => hij hi hj, h.2⟩⟩

instance (t : Tree) (cwd : Location) (is : List Installation) : Decidable (t.Ready cwd is) :=
  decidable_of_iff
    ((∀ i ∈ is, (t.fileAt? (placeOf cwd i.source)).isSome) ∧
      (∀ i ∈ is, ∀ j ∈ is, placeOf cwd i.source ∉ j.places cwd) ∧
      (∀ i ∈ is, ∀ front ∈ (i.around cwd).inits, t.Admits front) ∧
      ∀ i ∈ is, ∀ place ∈ i.places cwd, t place ≠ some .directory)
    (by
      simp only [List.mem_inits]
      exact ⟨fun h => ⟨h.1, h.2.1, h.2.2.1, h.2.2.2⟩, fun h => ⟨h.1, h.2, h.3, h.4⟩⟩)

/-- Of several installations some are done: each of these stands, with a copy of the file that was
there before all of them, and elsewhere there is nothing new but directories. -/
structure Carried (cwd : Location) (before : Tree) (done : List Installation) (t : Tree) :
    Prop where
  stands : ∀ i ∈ done, ∃ text, before.fileAt? (placeOf cwd i.source) = some text ∧
    Stands cwd i text t
  kept : ∀ place, (∀ i ∈ done, place ∉ i.places cwd) → t place = before place ∨
    (t place = some .directory ∧ ∃ i ∈ done, place <+: i.around cwd)

/-- What is done so far lets the next installation take place. -/
theorem Carried.lets (h : Carried cwd before done t) (hready : before.Ready cwd is)
    (hapart : Apart cwd is) (hdone : done ⊆ is) (hi : i ∈ is)
    (hnew : ∀ j ∈ done, List.Disjoint (j.places cwd) (i.places cwd)) :
    ∃ text, before.fileAt? (placeOf cwd i.source) = some text ∧ t.Lets cwd i text := by
  obtain ⟨text, htext⟩ := Option.isSome_iff_exists.1 (hready.built i hi)
  refine ⟨text, htext, ?_, ?_, ?_, hready.outside i hi i hi⟩
  · rcases h.kept _ fun j hj => hready.outside i hi j (hdone hj) with heq | ⟨-, j, hj, hprefix⟩
    · rw [Tree.fileAt?, heq]
      exact htext
    · -- a directory would have been made of the file
      exact absurd (hready.ways j (hdone hj) _ hprefix) (not_admits_of_fileAt? htext)
  · intro front hfront
    rcases h.kept front fun j hj hplace => hapart.ways j (hdone hj) i hi front hplace hfront with
      heq | ⟨hdirectory, -⟩
    · unfold Tree.Admits
      rw [heq]
      exact hready.ways i hi front hfront
    · exact .inr hdirectory
  · intro place hplace
    rcases h.kept place fun j hj hother => hnew j hj hother hplace with
      heq | ⟨-, j, hj, hprefix⟩
    · rw [heq]
      exact hready.free i hi place hplace
    · exact absurd hprefix (hapart.ways i hi j (hdone hj) place hplace)

/-- The next installation leaves the ones before it as they are. -/
theorem Carried.step (h : Carried cwd before done t) (hready : before.Ready cwd is)
    (hapart : Apart cwd is) (hdone : done ⊆ is) (hi : i ∈ is) (hwell : i.WellFormed)
    (hnew : ∀ j ∈ done, List.Disjoint (j.places cwd) (i.places cwd)) :
    ∃ after, i.commands.foldlM (Tree.run cwd) t = some after ∧
      Carried cwd before (done ++ [i]) after := by
  obtain ⟨text, htext, hlets⟩ := h.lets hready hapart hdone hi hnew
  obtain ⟨after, hrun, hstands, hkept⟩ := exists_run hwell hlets
  refine ⟨after, hrun, ?_, ?_⟩
  · rw [List.forall_mem_append, List.forall_mem_singleton]
    refine ⟨?_, text, htext, hstands⟩
    intro j hj
    obtain ⟨other, hother, hold⟩ := h.stands j hj
    refine ⟨other, hother, hold.keep fun place hplace => ?_⟩
    refine (hkept place (hnew j hj hplace)).resolve_right fun hmade => ?_
    exact hapart.ways j (hdone hj) i hi place hplace hmade.2
  · intro place hplace
    rw [List.forall_mem_append, List.forall_mem_singleton] at hplace
    rcases hkept place hplace.2 with heq | ⟨hdirectory, hprefix⟩
    · rw [heq]
      refine (h.kept place hplace.1).imp_right fun hmade => ⟨hmade.1, ?_⟩
      obtain ⟨j, hj, hprefix⟩ := hmade.2
      exact ⟨j, List.mem_append_left _ hj, hprefix⟩
    · exact .inr ⟨hdirectory, i, by simp, hprefix⟩

/-- All installations that are left take place, one after the other. -/
theorem Carried.exists_run (h : Carried cwd before done t)
    (hready : before.Ready cwd (done ++ rest)) (hapart : Apart cwd (done ++ rest))
    (hwell : ∀ i ∈ rest, i.WellFormed) :
    ∃ after, (rest.flatMap Installation.commands).foldlM (Tree.run cwd) t = some after ∧
      Carried cwd before (done ++ rest) after := by
  induction rest generalizing done t with
  | nil => exact ⟨t, rfl, by rwa [List.append_nil]⟩
  | cons i rest ih =>
    rw [List.forall_mem_cons] at hwell
    have hi : i ∈ done ++ i :: rest := by simp
    have hnew : ∀ j ∈ done, List.Disjoint (j.places cwd) (i.places cwd) := fun j hj =>
      (List.pairwise_append.1 hapart.places).2.2 j hj i List.mem_cons_self
    obtain ⟨between, hfirst, hbetween⟩ := h.step hready hapart (List.subset_append_left _ _) hi
      hwell.1 hnew
    rw [List.append_cons] at hready hapart ⊢
    obtain ⟨after, hrest, hafter⟩ := ih hbetween hready hapart hwell.2
    refine ⟨after, ?_, hafter⟩
    rw [List.flatMap_cons, List.foldlM_append, hfirst]
    exact hrest

/-- Behind the commands of installations that are apart, each of them lasts. -/
theorem exists_run_installations (hwell : ∀ i ∈ is, i.WellFormed) (hready : before.Ready cwd is)
    (hapart : Apart cwd is) :
    ∃ after, (is.flatMap Installation.commands).foldlM (Tree.run cwd) before = some after ∧
      ∀ i ∈ is, i.Lasts cwd before after := by
  have hnone : Carried cwd before [] before := ⟨by simp, fun _ _ => .inl rfl⟩
  obtain ⟨after, hrun, hafter⟩ := hnone.exists_run hready hapart hwell
  refine ⟨after, hrun, fun i hi => ?_⟩
  obtain ⟨text, htext, hstands⟩ := hafter.stands i hi
  exact ⟨⟨text, htext, hstands.copied⟩, leads_of_links (hwell i hi).isPlain hstands.linked .refl⟩

/-- The order of the installations does not matter. -/
theorem Apart.perm {other : List Installation} (h : Apart cwd is) (hperm : is.Perm other) :
    Apart cwd other := by
  refine ⟨?_, fun i hi j hj => h.ways i (hperm.symm.subset hi) j (hperm.symm.subset hj)⟩
  exact (hperm.pairwise_iff fun hij => List.disjoint_comm.1 hij).1 h.places

theorem Tree.Ready.mono {other : List Installation} (h : t.Ready cwd is) (hsubset : other ⊆ is) :
    t.Ready cwd other :=
  ⟨fun i hi => h.built i (hsubset hi),
    fun i hi j hj => h.outside i (hsubset hi) j (hsubset hj),
    fun i hi => h.ways i (hsubset hi), fun i hi => h.free i (hsubset hi)⟩

end Several

end Makewright.Install
