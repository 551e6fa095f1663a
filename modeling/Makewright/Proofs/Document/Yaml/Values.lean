import Makewright.Document.Yaml.Basic
import Makewright.Proofs.Document.Yaml.Tree

/-!
# Making the value of a tree

Making the value of a tree is stopped only because the text does not follow the format, or by a part
of the tree that counts as a scalar and names no value under its tag (`Refuses`). With what stops
the reading of the tree, these are all faults that the reader finds in a YAML text (`read_error`).
-/

set_option autoImplicit false

namespace Makewright.Yaml

open Makewright.Document

/-- A tree is the whole of another one or stands somewhere in it. -/
inductive Part (part : Tree) : Tree → Prop
  | refl : Part part part
  | item {tag : Tag} {items : List Tree} {t : Tree} (ht : t ∈ items) (h : Part part t) :
    Part part (.sequence tag items)
  | key {tag : Tag} {entries : List (Tree × Tree)} {entry : Tree × Tree} (hentry : entry ∈ entries)
    (h : Part part entry.1) : Part part (.mapping tag entries)
  | value {tag : Tag} {entries : List (Tree × Tree)} {entry : Tree × Tree}
    (hentry : entry ∈ entries) (h : Part part entry.2) : Part part (.mapping tag entries)

/-- What may stop the making of the value of a tree. -/
inductive Refuses (whole : Tree) : DocumentFault → Prop
  | malformed : Refuses whole .malformed
  | scalar {part : Tree} {e : DocumentFault} (hpart : Part part whole)
    (h : scalarOf part = .error e) : Refuses whole e

variable {whole t : Tree}

theorem Part.trans {part middle : Tree} (h : Part part middle) (hmiddle : Part middle whole) :
    Part part whole := by
  induction hmiddle with
  | refl => exact h
  | item ht _ ih => exact .item ht ih
  | key hentry _ ih => exact .key hentry ih
  | value hentry _ ih => exact .value hentry ih

theorem scalarOf_ends (h : Part t whole) : Ends (fun _ => True) (Refuses whole) (scalarOf t) :=
  .of_errors fun _ he => .scalar h he

/-! ## Entries -/

/-- An entry consists of parts of the tree; its key may have become a text. -/
def Holds (whole : Tree) (entry : Tree × Tree) : Prop :=
  (∃ key, Part key whole ∧ entry.1 = asKey key) ∧ Part entry.2 whole

theorem own_holds {key value : Tree} (hkey : Part key whole) (hvalue : Part value whole) :
    ∀ entry ∈ [] ++ [(asKey key, value)], Holds whole entry := by
  intro entry hentry
  obtain rfl := List.mem_singleton.1 hentry
  exact ⟨⟨key, hkey, rfl⟩, hvalue⟩

mutual

theorem entriesOf_holds : ∀ t, Part t whole →
    Ends (fun found => ∀ entry ∈ found, Holds whole entry) (· = .malformed) (entriesOf t)
  | .mapping _ entries, h =>
    Ends.map (Ends.mono
      (sortEntries_holds entries fun _ hentry =>
        ⟨(Part.key hentry .refl).trans h, (Part.value hentry .refl).trans h⟩)
      (fun _ hfound => hfound) fun _ he => he)
  | .scalar .., _ => rfl
  | .sequence .., _ => rfl
termination_by structural t => t

theorem sortEntries_holds : ∀ entries : List (Tree × Tree),
    (∀ entry ∈ entries, Part entry.1 whole ∧ Part entry.2 whole) →
    Ends (fun found => ∀ entry ∈ found.1 ++ found.2, Holds whole entry) (· = .malformed)
      (sortEntries entries)
  | [], _ => nofun
  | entry :: rest, h => by
    have hentry := h entry List.mem_cons_self
    have hrest := sortEntries_holds rest fun other hother => h other (List.mem_cons_of_mem _ hother)
    rw [sortEntries]
    refine Ends.bind (Ends.mono (sortEntry_holds entry hentry.1 hentry.2) ?_ fun _ he => he)
    intro found hfound
    refine Ends.bind (Ends.mono hrest ?_ fun _ he => he)
    intro more hmore one hone
    simp only [List.mem_append] at hone hfound hmore
    rcases hone with (hone | hone) | (hone | hone)
    · exact hfound one (.inl hone)
    · exact hmore one (.inl hone)
    · exact hfound one (.inr hone)
    · exact hmore one (.inr hone)
termination_by structural entries => entries

theorem sortEntry_holds : ∀ entry : Tree × Tree, Part entry.1 whole → Part entry.2 whole →
    Ends (fun found => ∀ entry ∈ found.1 ++ found.2, Holds whole entry) (· = .malformed)
      (sortEntry entry)
  | (key, .mapping tag entries), hkey, hvalue => by
    have hentries := entriesOf_holds (.mapping tag entries) hvalue
    have heq : sortEntry (key, .mapping tag entries) =
        if key.tag = .merge then (entriesOf (.mapping tag entries)).map (·, [])
        else .ok ([], [(asKey key, .mapping tag entries)]) := rfl
    rw [heq]
    split
    · exact Ends.map (Ends.mono hentries (fun found hfound => (List.append_nil found).symm ▸ hfound)
        fun _ he => he)
    · exact own_holds hkey hvalue
  | (key, .sequence tag items), hkey, hvalue => by
    have hitems := entriesOfAll_holds items fun t ht => (Part.item ht .refl).trans hvalue
    have heq : sortEntry (key, .sequence tag items) =
        if key.tag = .merge then (entriesOfAll items).map (·, [])
        else .ok ([], [(asKey key, .sequence tag items)]) := rfl
    rw [heq]
    split
    · exact Ends.map (Ends.mono hitems (fun found hfound => (List.append_nil found).symm ▸ hfound)
        fun _ he => he)
    · exact own_holds hkey hvalue
  | (key, .scalar tag text), hkey, hvalue => by
    have heq : sortEntry (key, .scalar tag text) =
        if key.tag = .merge then .error .malformed
        else .ok ([], [(asKey key, .scalar tag text)]) := rfl
    rw [heq]
    split
    · exact rfl
    · exact own_holds hkey hvalue
termination_by structural entry => entry

theorem entriesOfAll_holds : ∀ items : List Tree, (∀ t ∈ items, Part t whole) →
    Ends (fun found => ∀ entry ∈ found, Holds whole entry) (· = .malformed) (entriesOfAll items)
  | [], _ => nofun
  | t :: rest, h => by
    have hrest := entriesOfAll_holds rest fun other hother => h other (List.mem_cons_of_mem _ hother)
    rw [entriesOfAll]
    refine Ends.bind (Ends.mono (entriesOf_holds t (h t List.mem_cons_self)) ?_ fun _ he => he)
    intro first hfirst
    refine Ends.bind (Ends.mono hrest ?_ fun _ he => he)
    intro others hothers entry hentry
    rcases List.mem_append.1 hentry with hentry | hentry
    · exact hothers entry hentry
    · exact hfirst entry hentry
termination_by structural items => items

end

/-! ## Faults, level by level -/

/-- The trees that are put off are parts of the whole one. -/
def Defers (whole : Tree) (x : Except DocumentFault (List Tree)) : Prop :=
  Ends (fun later => ∀ part ∈ later, Part part whole) (Refuses whole) x

theorem meet_defers (h : Part t whole) : Defers whole (meet t) := by
  unfold meet
  split
  · intro part hpart
    obtain rfl := List.mem_singleton.1 hpart
    exact h
  · exact Ends.andThen (scalarOf_ends h) fun _ _ => nofun

/-- A mark that has become a text has a value. -/
theorem meetKey_ends {key : Tree} (h : Part key whole) :
    Ends (fun _ => True) (Refuses whole) (meetKey (asKey key)) := by
  unfold asKey
  split
  · exact trivial
  · unfold meetKey
    split
    · exact .malformed
    · exact Ends.mono (meet_defers h) (fun _ _ => trivial) fun _ he => he

/-- One more tree behind those that are put off already. -/
theorem Defers.append {x : Except DocumentFault (List Tree)} (h : Defers whole x)
    {later : List Tree} (hlater : ∀ part ∈ later, Part part whole) :
    Defers whole (x.map (later ++ ·)) :=
  Ends.map (Ends.mono h (fun _ hfound part hpart =>
    (List.mem_append.1 hpart).elim (hlater part) (hfound part)) fun _ he => he)

/-- Steps for all members of a list, each of which may put trees off. -/
theorem Defers.foldlM {α : Type} {step : List Tree → α → Except DocumentFault (List Tree)}
    {xs : List α} (hstep : ∀ x ∈ xs, ∀ later, (∀ part ∈ later, Part part whole) →
      Defers whole (step later x)) : Defers whole (xs.foldlM step []) := by
  refine Ends.mono (Ends.foldlM
    (fun rest later => (∀ x ∈ rest, x ∈ xs) ∧ ∀ part ∈ later, Part part whole) ?_
    ⟨fun _ hx => hx, nofun⟩) (fun _ h => h.2) fun _ he => he
  rintro x rest later ⟨hrest, hlater⟩
  refine Ends.mono (hstep x (hrest x List.mem_cons_self) later hlater) ?_ fun _ he => he
  exact fun found hfound => ⟨fun y hy => hrest y (List.mem_cons_of_mem x hy), hfound⟩

theorem entriesOf_ends (h : Part t whole) :
    Ends (fun found => ∀ entry ∈ found, Holds whole entry) (Refuses whole) (entriesOf t) :=
  Ends.mono (entriesOf_holds t h) (fun _ hfound => hfound) fun _ he => he ▸ .malformed

theorem entries_defer (h : Part t whole) :
    Defers whole (do
      (← entriesOf t).foldlM (fun later (key, value) => do
        let _ ← meetKey key
        .ok (later ++ (← meet value))) []) := by
  refine (entriesOf_ends h).andThen fun entries hentries => ?_
  refine Defers.foldlM fun entry hentry later hlater => ?_
  obtain ⟨⟨key, hkey, hasKey⟩, hvalue⟩ := hentries entry hentry
  refine Ends.andThen (hasKey ▸ meetKey_ends hkey) fun _ _ => ?_
  exact (meet_defers hvalue).append hlater

theorem pairs_defer {tag : Tag} {items : List Tree} (h : Part (.sequence tag items) whole) :
    Defers whole (items.foldlM (fun later item =>
      match item with
      | .mapping _ [(key, value)] => do
        let first ← meet key
        .ok (later ++ first ++ (← meet value))
      | _ => .error .malformed) []) := by
  refine Defers.foldlM fun item hitem later hlater => ?_
  have hpart : Part item whole := (Part.item hitem .refl).trans h
  split
  · next key value =>
    have hkey := (Part.key List.mem_cons_self .refl).trans hpart
    have hvalue := (Part.value List.mem_cons_self .refl).trans hpart
    refine Ends.andThen (meet_defers hkey) fun first hfirst => (meet_defers hvalue).append ?_
    exact fun part hpart => (List.mem_append.1 hpart).elim (hlater part) (hfirst part)
  · exact .malformed

theorem meetMembers_defers (h : Part t whole) : Defers whole (meetMembers t) := by
  unfold meetMembers
  split
  · exact .foldlM fun item hitem later hlater =>
      (meet_defers ((Part.item hitem .refl).trans h)).append hlater
  · exact entries_defer h
  · exact entries_defer h
  · exact pairs_defer h
  · exact pairs_defer h
  · exact .malformed

theorem meetLevels_ends (fuel : Nat) (level : List Tree) (h : ∀ t ∈ level, Part t whole) :
    Ends (fun _ => True) (Refuses whole) (meetLevels fuel level) := by
  induction fuel generalizing level with
  | zero =>
    cases level with
    | nil => exact trivial
    | cons t rest => exact .malformed
  | succ fuel ih =>
    cases level with
    | nil => exact trivial
    | cons t rest =>
      have hnext : Defers whole
          ((t :: rest).foldlM (fun later t => (meetMembers t).map (later ++ ·)) []) :=
        .foldlM fun t ht later hlater => (meetMembers_defers (h t ht)).append hlater
      rw [meetLevels]
      · exact Ends.bind (Ends.mono hnext (fun later hlater => ih later hlater) fun _ he => he)
      · nofun

/-! ## Values -/

/-- Entries that come out of a mapping or a list of mappings. -/
theorem singleEntries_ends {tag : Tag} {items : List Tree} (h : Part (.sequence tag items) whole) :
    Ends (fun entries => ∀ entry ∈ entries, Part entry.1 whole ∧ Part entry.2 whole)
      (Refuses whole) (singleEntries items) := by
  cases hentries : singleEntries items with
  | ok entries =>
    intro entry hentry
    obtain ⟨item, hitem, heq⟩ := exists_of_mem_mapM hentries hentry
    have hpart : Part item whole := (Part.item hitem .refl).trans h
    split at heq
    · cases heq
      exact ⟨(Part.key List.mem_cons_self .refl).trans hpart,
        (Part.value List.mem_cons_self .refl).trans hpart⟩
    · cases heq
  | error e =>
    obtain ⟨item, hitem, heq⟩ := exists_of_mapM_eq_error hentries
    split at heq
    · cases heq
    · cases heq
      exact .malformed

/-- The values of all parts of the tree, made with as much fuel, fail in no other way. -/
def Makes (whole : Tree) (fuel : Nat) : Prop :=
  ∀ t, Part t whole → Ends (fun _ => True) (Refuses whole) (valueOf fuel t)

section Makes

variable {fuel : Nat} (h : Makes whole fuel)

include h

theorem Makes.asKey {key : Tree} (hkey : Part key whole) :
    Ends (fun _ => True) (Refuses whole) (valueOf fuel (asKey key)) := by
  unfold Yaml.asKey
  split
  · cases fuel with
    | zero => exact .malformed
    | succ fuel => exact trivial
  · exact h _ hkey

theorem Makes.entry {key value : Tree}
    (hkey : Ends (fun _ => True) (Refuses whole) (valueOf fuel key)) (hvalue : Part value whole) :
    Ends (fun _ => True) (Refuses whole) (do .ok (← valueOf fuel key, ← valueOf fuel value)) :=
  hkey.andThen fun _ _ => (h value hvalue).andThen fun _ _ => trivial

/-- The values of the entries of a mapping, whatever is made of them. -/
theorem Makes.mapping {β : Type} (ht : Part t whole) (f : List (Value × Value) → β) :
    Ends (fun _ => True) (Refuses whole) (do
      let entries ← (← entriesOf t).mapM fun entry => do
        .ok (← valueOf fuel entry.1, ← valueOf fuel entry.2)
      .ok (f entries)) := by
  refine (entriesOf_ends ht).andThen fun entries hentries => ?_
  refine Ends.andThen (.mapM fun entry hmem => ?_) fun _ _ => trivial
  obtain ⟨⟨key, hpart, hasKey⟩, hvalue⟩ := hentries entry hmem
  exact h.entry (hasKey ▸ h.asKey hpart) hvalue

/-- The values of the entries of mappings with one entry each. -/
theorem Makes.pairs {tag : Tag} {items : List Tree} (ht : Part (.sequence tag items) whole)
    (f : List (Value × Value) → Value) :
    Ends (fun _ => True) (Refuses whole) (do
      let entries ← (← singleEntries items).mapM fun entry => do
        .ok (← valueOf fuel entry.1, ← valueOf fuel entry.2)
      .ok (f entries)) := by
  refine (singleEntries_ends ht).andThen fun entries hentries => ?_
  refine Ends.andThen (.mapM fun entry hmem => ?_) fun _ _ => trivial
  exact h.entry (h _ (hentries entry hmem).1) (hentries entry hmem).2

end Makes

theorem makes (whole : Tree) (fuel : Nat) : Makes whole fuel := by
  induction fuel with
  | zero => exact fun _ _ => .malformed
  | succ fuel ih =>
    intro t ht
    rw [valueOf.eq_def]
    dsimp only
    split
    · exact Ends.map (Ends.errors (.mapM fun item hitem => ih _ ((Part.item hitem .refl).trans ht)))
    · exact Ends.map (ih.mapping ht _).errors
    · exact Ends.map (ih.mapping ht _).errors
    · exact ih.pairs ht _
    · exact ih.pairs ht _
    · exact scalarOf_ends ht

/-- What may be wrong with a YAML text: something in it stops the reading of its tree, or a part of
the tree names no value. -/
theorem read_error {text : List Char} {e : DocumentFault} (h : read text = .error e) :
    Halts text e ∨ ∃ whole, treeOf text = .ok (some whole) ∧ Refuses whole e := by
  unfold read at h
  split at h
  · cases h
    exact .inl .malformed
  · rcases eq_error_of_bind h with htree | ⟨found, htree, h⟩
    · exact .inl (treeOf_halts htree)
    · cases found with
      | none => cases h
      | some whole =>
        refine .inr ⟨whole, htree, ?_⟩
        have hmade : Ends (fun _ => True) (Refuses whole) (do
            meetLevels (text.length + 1) (← meet whole)
            valueOf (text.length + 1) whole) :=
          Ends.andThen (meet_defers .refl) fun later hlater =>
            Ends.andThen (meetLevels_ends _ later hlater) fun _ _ => makes whole _ whole .refl
        exact Ends.of_eq_error hmade h

end Makewright.Yaml
