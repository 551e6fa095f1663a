import Mathlib.Data.List.Forall2

/-!
# How make expands a text

A dollar sign introduces a reference to a variable, which make replaces by the value. `Expands value
s t` says that `s` becomes `t` wherever it stands, so a text can be expanded part by part
(`Expands.intercalate`). A text without a dollar sign stays as it is.
-/

set_option autoImplicit false

namespace Makewright.Make

/-- Where the reading of a text stands: outside of references, behind a dollar sign, or in a
reference that `close` ends, behind a part of its name. -/
inductive Spot where
  | outside
  | dollar
  | name (close : Char) (read : List Char)

/-- A text with its references replaced by values, from some spot on, unless a reference has no end.
Two dollar signs stand for one; other references are a character or a name in brackets. -/
def expandFrom (value : String → List Char) : Spot → List Char → Option (List Char)
  | .outside, [] => some []
  | .dollar, [] => some ['$']
  | .name _ _, [] => none
  | .outside, c :: rest =>
    if c = '$' then expandFrom value .dollar rest
    else (expandFrom value .outside rest).map (c :: ·)
  | .dollar, c :: rest =>
    if c = '$' then (expandFrom value .outside rest).map (c :: ·)
    else if c = '(' then expandFrom value (.name ')' []) rest
    else if c = '\x7b' then expandFrom value (.name '\x7d' []) rest
    else (expandFrom value .outside rest).map (value (String.ofList [c]) ++ ·)
  | .name close read, c :: rest =>
    if c = close then (expandFrom value .outside rest).map (value (String.ofList read) ++ ·)
    else expandFrom value (.name close (read ++ [c])) rest

/-- A text with its references replaced by values. -/
def expand (value : String → List Char) (s : List Char) : Option (List Char) :=
  expandFrom value .outside s

/-- Wherever it stands, the first text expands to the second one. -/
def Expands (value : String → List Char) (s t : List Char) : Prop :=
  ∀ rest, expandFrom value .outside (s ++ rest) =
    (expandFrom value .outside rest).map (t ++ ·)

namespace Expands

variable {value : String → List Char} {s t s' t' : List Char}

theorem nil (value : String → List Char) : Expands value [] [] := by
  intro rest
  simp

theorem append (h : Expands value s t) (h' : Expands value s' t') :
    Expands value (s ++ s') (t ++ t') := by
  intro rest
  rw [List.append_assoc, h, h', Option.map_map]
  simp only [Function.comp_def, List.append_assoc]

/-- A text without dollar signs stays as it is. -/
theorem plain (h : '$' ∉ s) : Expands value s s := by
  induction s with
  | nil => exact nil value
  | cons c rest ih =>
    simp only [List.mem_cons, not_or] at h
    intro more
    rw [List.cons_append, expandFrom, if_neg (Ne.symm h.1), ih h.2, Option.map_map]
    rfl

/-- The end of a reference in brackets. -/
theorem expandFrom_name {close : Char} {name : List Char} (h : close ∉ name)
    (read rest : List Char) : expandFrom value (.name close read) (name ++ close :: rest) =
      (expandFrom value .outside rest).map (value (String.ofList (read ++ name)) ++ ·) := by
  induction name generalizing read with
  | nil => simp [expandFrom]
  | cons c more ih =>
    simp only [List.mem_cons, not_or] at h
    rw [List.cons_append, expandFrom, if_neg (Ne.symm h.1), ih h.2]
    simp

theorem reference (value : String → List Char) {name : String} (h : ')' ∉ name.toList) :
    Expands value ("$(" ++ name ++ ")").toList (value name) := by
  intro rest
  have htext : ("$(" ++ name ++ ")").toList ++ rest =
      '$' :: '(' :: (name.toList ++ ')' :: rest) := by
    simp
  rw [htext, expandFrom, if_pos rfl, expandFrom, if_neg (by decide), if_pos rfl, expandFrom_name h]
  simp

/-- The target of the rule. -/
theorem target (value : String → List Char) : Expands value "$@".toList (value "@") := by
  intro rest
  rfl

theorem intercalate {sep : List Char} (hsep : '$' ∉ sep) {texts expanded : List (List Char)}
    (h : List.Forall₂ (Expands value) texts expanded) :
    Expands value (sep.intercalate texts) (sep.intercalate expanded) := by
  induction h with
  | nil => exact nil value
  | cons hfirst hrest ih =>
    cases hrest with
    | nil => simpa using hfirst
    | cons _ _ =>
      rw [List.intercalate_cons_cons, List.intercalate_cons_cons]
      exact (hfirst.append (plain hsep)).append ih

theorem expand_eq (h : Expands value s t) : expand value s = some t := by
  have hwhole := h []
  rw [List.append_nil] at hwhole
  rw [expand, hwhole]
  simp [expandFrom]

end Expands

end Makewright.Make
