import Mathlib.Control.Basic
import Mathlib.Data.List.Forall2

/-!
# Outcomes

`Ends good bad x` says what is known of the outcome of a computation that may fail: an answer is
`good` and an error is `bad`. The rules follow the ways in which such computations are put together,
one step after another and a step for every member of a list.
-/

set_option autoImplicit false

namespace Makewright

variable {ε α β σ : Type}

/-- Two steps that end with an answer both have one. -/
theorem exists_of_bind_eq_ok {x : Except ε α} {f : α → Except ε β} {b : β}
    (h : x >>= f = .ok b) : ∃ a, x = .ok a ∧ f a = .ok b := by
  cases x with
  | ok a => exact ⟨a, rfl, h⟩
  | error e => cases h

/-- An answer that is made from another one comes from that answer. -/
theorem exists_of_map_eq_ok {x : Except ε α} {f : α → β} {b : β} (h : x.map f = .ok b) :
    ∃ a, x = .ok a ∧ f a = b := by
  cases x with
  | ok a => exact ⟨a, rfl, Except.ok.inj h⟩
  | error e => cases h

/-- An error of two steps is one of the first or, behind an answer, of the second. -/
theorem eq_error_of_bind {x : Except ε α} {f : α → Except ε β} {e : ε}
    (h : x >>= f = .error e) : x = .error e ∨ ∃ a, x = .ok a ∧ f a = .error e := by
  cases x with
  | ok a => exact .inr ⟨a, rfl, h⟩
  | error fault =>
    cases h
    exact .inl rfl

theorem eq_error_of_map {x : Except ε α} {f : α → β} {e : ε} (h : x.map f = .error e) :
    x = .error e := by
  cases x with
  | ok a => cases h
  | error fault =>
    cases h
    rfl

/-- A computation whose answer is known has ended with it. -/
theorem eq_ok_of_toOption {x : Except ε α} {a : α} (h : x.toOption = some a) : x = .ok a := by
  cases x with
  | ok b => exact congrArg Except.ok (Option.some.inj h)
  | error e => cases h

theorem exists_ok_of_isSome {x : Except ε α} (h : x.toOption.isSome = true) : ∃ a, x = .ok a := by
  obtain ⟨a, ha⟩ := Option.isSome_iff_exists.1 h
  exact ⟨a, eq_ok_of_toOption ha⟩

/-- What every step for a member of a list preserves holds at the end. -/
theorem invariant_of_foldlM {inv : σ → Prop} {step : σ → β → Except ε σ} {xs : List β}
    {s after : σ} (hstep : ∀ s x after, inv s → step s x = .ok after → inv after)
    (h : xs.foldlM step s = .ok after) (hs : inv s) : inv after := by
  induction xs generalizing s with
  | nil =>
    cases h
    exact hs
  | cons x rest ih =>
    rw [List.foldlM_cons] at h
    obtain ⟨next, hnext, h⟩ := exists_of_bind_eq_ok h
    exact ih h (hstep s x next hs hnext)

/-- What a step that succeeds for every member gives comes from one of them. -/
theorem exists_of_mem_mapM {f : α → Except ε β} {xs : List α} {ys : List β}
    (h : xs.mapM f = .ok ys) {y : β} (hy : y ∈ ys) : ∃ x ∈ xs, f x = .ok y := by
  induction xs generalizing ys with
  | nil =>
    cases h
    cases hy
  | cons x rest ih =>
    rw [List.mapM_cons] at h
    obtain ⟨first, hfirst, h⟩ := exists_of_bind_eq_ok h
    obtain ⟨others, hothers, h⟩ := exists_of_bind_eq_ok h
    cases h
    rcases List.mem_cons.1 hy with rfl | hy
    · exact ⟨x, List.mem_cons_self, hfirst⟩
    · obtain ⟨found, hfound, hfy⟩ := ih hothers hy
      exact ⟨found, List.mem_cons_of_mem x hfound, hfy⟩

/-- Every member of a list that is related to another list is related to something. -/
theorem exists_of_forall₂ {R : α → β → Prop} {xs : List α} {ys : List β}
    (h : List.Forall₂ R xs ys) {x : α} (hx : x ∈ xs) : ∃ y, R x y := by
  obtain ⟨n, hn, rfl⟩ := List.getElem_of_mem hx
  exact ⟨_, h.get hn (h.length_eq ▸ hn)⟩

/-- A step succeeds for every member exactly with the list of what it gives for each. -/
theorem mapM_eq_ok_iff {f : α → Except ε β} {xs : List α} {ys : List β} :
    xs.mapM f = .ok ys ↔ List.Forall₂ (fun x y => f x = .ok y) xs ys := by
  induction xs generalizing ys with
  | nil =>
    rw [List.mapM_nil, List.forall₂_nil_left_iff]
    exact ⟨fun h => (Except.ok.inj h).symm, fun h => congrArg Except.ok h.symm⟩
  | cons x rest ih =>
    rw [List.mapM_cons]
    constructor
    · intro h
      obtain ⟨first, hfirst, h⟩ := exists_of_bind_eq_ok h
      obtain ⟨others, hothers, h⟩ := exists_of_bind_eq_ok h
      cases h
      exact .cons hfirst (ih.1 hothers)
    · rintro (_ | ⟨hfirst, hrest⟩)
      rw [hfirst, ih.2 hrest]
      rfl

/-- An error of a step for every member is the error of one of them. -/
theorem exists_of_mapM_eq_error {f : α → Except ε β} {xs : List α} {e : ε}
    (h : xs.mapM f = .error e) : ∃ x ∈ xs, f x = .error e := by
  induction xs with
  | nil => cases h
  | cons x rest ih =>
    rw [List.mapM_cons] at h
    rcases eq_error_of_bind h with hfirst | ⟨first, -, h⟩
    · exact ⟨x, List.mem_cons_self, hfirst⟩
    · rcases eq_error_of_bind h with hrest | ⟨others, -, h⟩
      · obtain ⟨found, hfound, he⟩ := ih hrest
        exact ⟨found, List.mem_cons_of_mem x hfound, he⟩
      · cases h

/-- The error of a step for every member is that of the first member for which the step fails. -/
theorem mapM_eq_error {f : α → Except ε β} {before after : List α} {x : α} {e : ε}
    (hbefore : ∀ y ∈ before, ∃ b, f y = .ok b) (hx : f x = .error e) :
    (before ++ x :: after).mapM f = .error e := by
  induction before with
  | nil =>
    rw [List.nil_append, List.mapM_cons, hx]
    rfl
  | cons y rest ih =>
    obtain ⟨⟨b, hb⟩, hrest⟩ := List.forall_mem_cons.1 hbefore
    rw [List.cons_append, List.mapM_cons, hb, ih hrest]
    rfl

/-- What a filter keeps are members for which the question was answered with yes. -/
theorem of_mem_filterM {question : β → Except ε Bool} {xs kept : List β}
    (h : xs.filterM question = .ok kept) : ∀ x ∈ kept, x ∈ xs ∧ question x = .ok true := by
  -- `filterM` gathers what it keeps in reverse, hence the list already seen
  have haux : ∀ (xs seen kept : List β), xs.filterAuxM question seen = .ok kept →
      ∀ x ∈ kept, x ∈ seen ∨ x ∈ xs ∧ question x = .ok true := by
    intro xs
    induction xs with
    | nil =>
      intro seen kept h x hx
      cases h
      exact .inl hx
    | cons first rest ih =>
      intro seen kept h x hx
      obtain ⟨answer, hanswer, h⟩ := exists_of_bind_eq_ok h
      rcases ih _ kept h x hx with hseen | ⟨hrest, hx⟩
      · cases answer with
        | false => exact .inl hseen
        | true =>
          rcases List.mem_cons.1 hseen with rfl | hseen
          · exact .inr ⟨List.mem_cons_self, hanswer⟩
          · exact .inl hseen
      · exact .inr ⟨List.mem_cons_of_mem first hrest, hx⟩
  obtain ⟨found, hfound, h⟩ := exists_of_bind_eq_ok h
  cases h
  intro x hx
  exact (haux xs [] found hfound x (List.mem_reverse.1 hx)).resolve_left List.not_mem_nil

/-- An answer of the computation is good, and an error of it is bad. -/
def Ends (good : α → Prop) (bad : ε → Prop) : Except ε α → Prop
  | .ok a => good a
  | .error e => bad e

namespace Ends

variable {good : α → Prop} {bad : ε → Prop} {x : Except ε α}

@[simp]
theorem ok_iff {a : α} : Ends good bad (.ok a) ↔ good a := Iff.rfl

@[simp]
theorem error_iff {e : ε} : Ends good bad (.error e) ↔ bad e := Iff.rfl

theorem of_eq_ok (h : Ends good bad x) {a : α} (hx : x = .ok a) : good a := by
  rw [hx] at h
  exact h

theorem of_eq_error (h : Ends good bad x) {e : ε} (hx : x = .error e) : bad e := by
  rw [hx] at h
  exact h

theorem mono {better : α → Prop} {worse : ε → Prop} (h : Ends good bad x)
    (hgood : ∀ a, good a → better a) (hbad : ∀ e, bad e → worse e) : Ends better worse x := by
  cases x with
  | ok a => exact hgood a h
  | error e => exact hbad e h

/-- One step after another. -/
theorem bind {f : α → Except ε β} {goodAfter : β → Prop}
    (h : Ends (fun a => Ends goodAfter bad (f a)) bad x) : Ends goodAfter bad (x >>= f) := by
  cases x with
  | ok a => exact h
  | error e => exact h

/-- One step after another, where the second one fails in the way that the first one may. -/
theorem andThen {f : α → Except ε β} {goodAfter : β → Prop} (h : Ends good bad x)
    (hf : ∀ a, good a → Ends goodAfter bad (f a)) : Ends goodAfter bad (x >>= f) :=
  bind (h.mono hf fun _ he => he)

/-- What is known of the errors alone. -/
theorem errors (h : Ends good bad x) : Ends (fun _ => True) bad x :=
  h.mono (fun _ _ => trivial) fun _ he => he

/-- An answer that is changed afterwards. -/
theorem map {f : α → β} {goodAfter : β → Prop} (h : Ends (fun a => goodAfter (f a)) bad x) :
    Ends goodAfter bad (x.map f) := by
  cases x with
  | ok a => exact h
  | error e => exact h

/-- Where only the errors matter, they are all that has to be looked at. -/
theorem of_errors (h : ∀ e, x = .error e → bad e) : Ends (fun _ => True) bad x := by
  cases x with
  | ok a => trivial
  | error e => exact h e rfl

/-- The errors of a step for every member of a list. -/
theorem mapM {f : β → Except ε α} {xs : List β}
    (h : ∀ y ∈ xs, Ends (fun _ => True) bad (f y)) : Ends (fun _ => True) bad (xs.mapM f) :=
  of_errors fun _ he =>
    have ⟨y, hy, hfault⟩ := exists_of_mapM_eq_error he
    (h y hy).of_eq_error hfault

/-- A step for every member of a list: `inv rest s` holds whenever the state is `s` and the members
`rest` are still to come. -/
theorem foldlM (inv : List β → σ → Prop) {step : σ → β → Except ε σ}
    (hstep : ∀ x rest s, inv (x :: rest) s → Ends (inv rest) bad (step s x)) {xs : List β} {s : σ}
    (h : inv xs s) : Ends (inv []) bad (xs.foldlM step s) := by
  induction xs generalizing s with
  | nil => exact h
  | cons x rest ih =>
    rw [List.foldlM_cons]
    exact bind ((hstep x rest s h).mono (fun _ hs => ih hs) fun _ he => he)

end Ends

end Makewright
