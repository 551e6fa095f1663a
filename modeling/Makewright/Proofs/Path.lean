import Makewright.Path
import Mathlib.Data.List.Induction

/-!
# Files side by side

Paths that differ in their last component only have the same directory in front of it, also after
they are put behind another path or brought into normal form. So a file is found from the directory
of another one in the same directory by its last component alone (`join_dirname`).
-/

set_option autoImplicit false

namespace Makewright

namespace Text

variable {c : Char}

theorem cutLast?_eq_none {s : List Char} (h : c ∉ s) : cutLast? c s = none := by
  induction s with
  | nil => rfl
  | cons x rest ih =>
    obtain ⟨hx, hrest⟩ := List.ne_and_not_mem_of_not_mem_cons h
    rw [cutLast?, ih hrest]
    exact if_neg hx.symm

/-- The last cut is the one behind which the character does not stand. -/
theorem cutLast?_append {before after : List Char} (h : c ∉ after) :
    cutLast? c (before ++ c :: after) = some (before, after) := by
  induction before with
  | nil =>
    rw [List.nil_append, cutLast?, cutLast?_eq_none h]
    exact if_pos rfl
  | cons x rest ih =>
    rw [List.cons_append, cutLast?, ih]

theorem cutLast?_eq_some {s before after : List Char} (h : cutLast? c s = some (before, after)) :
    s = before ++ c :: after := by
  induction s generalizing before with
  | nil => cases h
  | cons x rest ih =>
    rw [cutLast?] at h
    cases hrest : cutLast? c rest with
    | some found =>
      simp only [hrest, Option.some.injEq, Prod.mk.injEq] at h
      obtain ⟨rfl, rfl⟩ := h
      exact congrArg (List.cons x) (ih hrest)
    | none =>
      simp only [hrest, ite_eq_iff, Option.some.injEq, Prod.mk.injEq, reduceCtorEq, and_false,
        or_false] at h
      obtain ⟨rfl, rfl, rfl⟩ := h
      rfl

theorem not_mem_of_mem_splitOn {s part : List Char} (h : part ∈ s.splitOn c) : c ∉ part := by
  induction s generalizing part with
  | nil =>
    rw [List.splitOn_nil, List.mem_singleton] at h
    rw [h]
    exact List.not_mem_nil
  | cons x rest ih =>
    rw [List.splitOn_cons_eq_if_modifyHead] at h
    by_cases hx : x = c
    · rw [if_pos (beq_iff_eq.2 hx)] at h
      rcases List.mem_cons.1 h with rfl | hrest
      · exact List.not_mem_nil
      · exact ih hrest
    · rw [if_neg (by simpa using hx)] at h
      cases hsplit : rest.splitOn c with
      | nil => exact absurd hsplit (List.splitOn_ne_nil c rest)
      | cons first others =>
        rw [hsplit] at h ih
        rcases List.mem_cons.1 h with rfl | hother
        · have hfirst := ih List.mem_cons_self
          simp [hfirst, Ne.symm hx]
        · exact ih (List.mem_cons_of_mem first hother)

theorem mem_of_mem_intercalate {α : Type} {sep : List α} {lists : List (List α)} {x : α}
    (h : x ∈ sep.intercalate lists) : x ∈ sep ∨ x ∈ lists.flatten := by
  induction lists with
  | nil => exact absurd h List.not_mem_nil
  | cons first rest ih =>
    cases rest with
    | nil => exact .inr (by simpa using h)
    | cons second more =>
      rw [List.intercalate_cons_cons, List.append_assoc, List.mem_append, List.mem_append] at h
      rcases h with h | h | h
      · exact .inr (List.mem_append_left _ h)
      · exact .inl h
      · exact (ih h).imp_right (List.mem_append_right _)

theorem mem_intercalate_of_mem {α : Type} (sep : List α) {lists : List (List α)} {list : List α}
    (hlist : list ∈ lists) {x : α} (hx : x ∈ list) : x ∈ sep.intercalate lists := by
  induction lists with
  | nil => cases hlist
  | cons first rest ih =>
    cases rest with
    | nil => simpa [← List.mem_singleton.1 hlist] using hx
    | cons second more =>
      rw [List.intercalate_cons_cons]
      rcases List.mem_cons.1 hlist with rfl | hlist
      · exact List.mem_append_left _ (List.mem_append_left _ hx)
      · exact List.mem_append_right _ (ih hlist)

theorem intercalate_append {α : Type} (sep : List α) {xs ys : List (List α)} (hxs : xs ≠ [])
    (hys : ys ≠ []) : sep.intercalate (xs ++ ys) =
      sep.intercalate xs ++ (sep ++ sep.intercalate ys) := by
  induction xs with
  | nil => exact absurd rfl hxs
  | cons x rest ih =>
    by_cases hrest : rest = []
    · rw [hrest, List.singleton_append, List.intercalate_cons_of_ne_nil hys,
        List.intercalate_singleton, List.append_assoc]
    · rw [List.cons_append, List.intercalate_cons_of_ne_nil (by simp [hrest]), ih hrest,
        List.intercalate_cons_of_ne_nil hrest]
      simp only [List.append_assoc]

theorem digitChar_ne_slash : ∀ n < 16, Nat.digitChar n ≠ '/' := by
  decide

/-- Numbers are written without slashes. -/
theorem noSlash_toDigits {base : Nat} (hbase : 1 < base) (hsmall : base ≤ 16) (n : Nat) :
    '/' ∉ Nat.toDigits base n := by
  induction n using Nat.strongRecOn with
  | ind n ih =>
    rw [Nat.toDigits_eq_if hbase]
    split_ifs with hn
    · exact fun h => digitChar_ne_slash n (by omega) (List.mem_singleton.1 h).symm
    · intro h
      have hless := Nat.div_lt_self (show 0 < n by omega) hbase
      have hdigit := Nat.mod_lt n (show base > 0 by omega)
      rcases List.mem_append.1 h with hfront | hlast
      · exact ih (n / base) hless hfront
      · exact digitChar_ne_slash (n % base) (by omega) (List.mem_singleton.1 hlast).symm

end Text

namespace Path

open Text

/-- The text can stand in front of the last component of a path: it is empty or ends in a slash. -/
def IsFront (front : List Char) : Prop :=
  front = [] ∨ ∃ before, front = before ++ ['/']

/-- The text is slashes only or does not end in one. -/
def IsBare (text : List Char) : Prop :=
  (∃ n, text = List.replicate n '/') ∨ ∃ before c, c ≠ '/' ∧ text = before ++ [c]

/-- The text names a directory in front of a component: it is slashes only or ends in one slash. -/
def IsDirectory (front : List Char) : Prop :=
  (∃ n, front = List.replicate n '/') ∨ ∃ before c, c ≠ '/' ∧ front = before ++ [c, '/']

theorem IsDirectory.isFront {front : List Char} (h : IsDirectory front) : IsFront front := by
  rcases h with ⟨n, rfl⟩ | ⟨before, c, -, rfl⟩
  · cases n with
    | zero => exact Or.inl rfl
    | succ n => exact Or.inr ⟨List.replicate n '/', List.replicate_succ'⟩
  · exact Or.inr ⟨before ++ [c], by simp⟩

/-- A component that names a file: it is not empty, has no slash in it and is neither of the two
that name directories. -/
structure IsPlain (part : List Char) : Prop where
  ne_nil : part ≠ []
  ne_dot : part ≠ ['.']
  ne_up : part ≠ up
  noSlash : '/' ∉ part

/-- A component with a character in it that is no dot names a file. -/
theorem IsPlain.of_mark {part : List Char} (hslash : '/' ∉ part) {c : Char} (hc : c ∈ part)
    (hdot : c ≠ '.') : IsPlain part := by
  refine ⟨List.ne_nil_of_mem hc, ?_, ?_, hslash⟩
  · rintro rfl
    exact hdot (List.mem_singleton.1 hc)
  · rintro rfl
    simp [up, hdot] at hc

variable {front part : List Char}

/-- Every path without a last slash is a front and a text without slashes. -/
theorem exists_front (s : List Char) :
    ∃ front part, s = front ++ part ∧ IsFront front ∧ '/' ∉ part := by
  induction s using List.reverseRecOn with
  | nil => exact ⟨[], [], rfl, Or.inl rfl, List.not_mem_nil⟩
  | append_singleton s c ih =>
    by_cases hc : c = '/'
    · exact ⟨s ++ [c], [], (List.append_nil _).symm, Or.inr ⟨s, by rw [hc]⟩, List.not_mem_nil⟩
    · obtain ⟨front, part, rfl, hfront, hpart⟩ := ih
      refine ⟨front, part ++ [c], List.append_assoc _ _ _, hfront, ?_⟩
      simp [hpart, Ne.symm hc]

/-! ## The last component in a normal form -/

/-- The components on both sides of a slash. -/
theorem components_append_cons (front path : List Char) :
    components (front ++ '/' :: path) = components front ++ components path := by
  rw [components, List.splitOn_append_cons_self, List.filter_append]
  rfl

/-- A last slash adds no component. -/
theorem components_append_slash (s : List Char) : components (s ++ ['/']) = components s :=
  (components_append_cons s []).trans (List.append_nil _)

theorem IsPlain.components_eq (h : IsPlain part) : components part = [part] := by
  rw [components, List.splitOn_eq_singleton h.noSlash]
  simp [h.ne_nil, h.ne_dot]

theorem components_append (hfront : IsFront front) (hpart : IsPlain part) :
    components (front ++ part) = components front ++ [part] := by
  rcases hfront with rfl | ⟨before, rfl⟩
  · rw [List.nil_append, hpart.components_eq]
    rfl
  · rw [components_append_slash, List.append_assoc, List.singleton_append, components_append_cons,
      hpart.components_eq]

/-- The leading slashes all stand in front of a component. -/
theorem rootSlashes_append (hpart : IsPlain part) :
    rootSlashes (front ++ part) = rootSlashes front := by
  obtain ⟨c, rest, rfl⟩ := List.exists_cons_of_ne_nil hpart.ne_nil
  have hc : c ≠ '/' := fun h => hpart.noSlash (h ▸ List.mem_cons_self)
  -- only the first three characters count
  match front with
  | [] => simp [rootSlashes, hc]
  | [x] => by_cases hx : x = '/' <;> simp [rootSlashes, hx, hc]
  | [x, y] =>
    by_cases hx : x = '/'
    · by_cases hy : y = '/' <;> simp [rootSlashes, hx, hy, hc]
    · simp [rootSlashes, hx]
  | x :: y :: z :: others =>
    by_cases hx : x = '/'
    · by_cases hy : y = '/'
      · by_cases hz : z = '/' <;> simp [rootSlashes, hx, hy, hz]
      · simp [rootSlashes, hx, hy]
    · simp [rootSlashes, hx]

theorem settle_of_ne_up {rooted : Bool} {settled : List (List Char)} (h : part ≠ up) :
    settle rooted settled part = part :: settled :=
  if_neg h

/-- Settling a component brings no other one in. -/
theorem mem_settle {rooted : Bool} {settled : List (List Char)} {x : List Char}
    (h : x ∈ settle rooted settled part) : x = part ∨ x ∈ settled := by
  by_cases hup : part = up
  · subst hup
    unfold settle at h
    rw [if_pos rfl] at h
    cases settled with
    | nil =>
      cases rooted with
      | true => simp at h
      | false => exact Or.inl (List.mem_singleton.1 h)
    | cons last earlier =>
      by_cases hlast : last = up
      · simp only [if_pos hlast] at h
        exact List.mem_cons.1 h
      · simp only [if_neg hlast] at h
        exact Or.inr (List.mem_cons_of_mem last h)
  · rw [settle_of_ne_up hup] at h
    exact List.mem_cons.1 h

theorem settledComponents_append (hfront : IsFront front) (hpart : IsPlain part) :
    settledComponents (front ++ part) = settledComponents front ++ [part] := by
  unfold settledComponents
  rw [rootSlashes_append hpart, components_append hfront hpart, List.foldl_append, List.foldl_cons,
    List.foldl_nil, settle_of_ne_up hpart.ne_up, List.reverse_cons]

/-- Whatever is settled was there before or is one of the components. -/
theorem mem_foldl_settle {rooted : Bool} {parts settled : List (List Char)} {x : List Char}
    (h : x ∈ parts.foldl (settle rooted) settled) : x ∈ parts ∨ x ∈ settled := by
  induction parts generalizing settled with
  | nil => exact Or.inr h
  | cons first rest ih =>
    rcases ih h with hrest | hsettled
    · exact Or.inl (List.mem_cons_of_mem first hrest)
    · rcases mem_settle hsettled with rfl | hsettled
      · exact Or.inl List.mem_cons_self
      · exact Or.inr hsettled

/-- No settled component is empty or has a slash in it. -/
theorem mem_settledComponents {s : List Char} (h : part ∈ settledComponents s) :
    part ≠ [] ∧ '/' ∉ part := by
  have hcomponent : part ∈ components s := by
    rcases mem_foldl_settle (List.mem_reverse.1 h) with hcomponent | hnone
    · exact hcomponent
    · exact absurd hnone List.not_mem_nil
  obtain ⟨hsplit, hkept⟩ := List.mem_filter.1 hcomponent
  refine ⟨?_, not_mem_of_mem_splitOn hsplit⟩
  rintro rfl
  simp at hkept

theorem intercalate_append_singleton {sep x : List Char} {xs : List (List Char)} (h : xs ≠ []) :
    sep.intercalate (xs ++ [x]) = sep.intercalate xs ++ sep ++ x := by
  rw [Text.intercalate_append sep h (List.cons_ne_nil x []), List.intercalate_singleton,
    List.append_assoc]

/-- Settled components between slashes end in something other than a slash. -/
theorem exists_last_of_settledComponents {s : List Char} (h : settledComponents s ≠ []) :
    ∃ before c, c ≠ '/' ∧ List.intercalate ['/'] (settledComponents s) = before ++ [c] := by
  obtain ⟨earlier, last, hlast⟩ := (List.eq_nil_or_concat (settledComponents s)).resolve_left h
  have hmem : last ∈ settledComponents s := by simp [hlast]
  obtain ⟨hne, hslash⟩ := mem_settledComponents hmem
  obtain ⟨before, c, rfl⟩ := (List.eq_nil_or_concat last).resolve_left hne
  rw [List.concat_eq_append] at hlast hslash
  have hc : c ≠ '/' := by
    rintro rfl
    simp at hslash
  rw [hlast, List.concat_eq_append]
  by_cases hearlier : earlier = []
  · exact ⟨before, c, hc, by simp [hearlier]⟩
  · refine ⟨List.intercalate ['/'] earlier ++ ['/'] ++ before, c, hc, ?_⟩
    rw [intercalate_append_singleton hearlier]
    simp

/-- Behind a front, the normal form keeps a last component behind one directory. -/
theorem exists_directory (hfront : IsFront front) :
    ∃ directory, IsDirectory directory ∧
      ∀ part, IsPlain part → normalizeList (front ++ part) = directory ++ part := by
  have hnormal : ∀ {part}, IsPlain part → normalizeList (front ++ part) =
      List.replicate (rootSlashes front) '/' ++
        List.intercalate ['/'] (settledComponents front ++ [part]) := by
    intro part hpart
    unfold normalizeList
    rw [rootSlashes_append hpart, settledComponents_append hfront hpart]
    refine if_neg ?_
    by_cases hempty : settledComponents front = []
    · simp [hempty, hpart.ne_nil]
    · simp [intercalate_append_singleton hempty]
  -- without components of its own, `front` leaves its leading slashes only
  by_cases hempty : settledComponents front = []
  · refine ⟨List.replicate (rootSlashes front) '/', Or.inl ⟨_, rfl⟩, ?_⟩
    intro part hpart
    rw [hnormal hpart, hempty]
    simp
  · obtain ⟨before, c, hc, hlast⟩ := exists_last_of_settledComponents hempty
    refine ⟨List.replicate (rootSlashes front) '/' ++ before ++ [c, '/'],
      Or.inr ⟨_, c, hc, rfl⟩, ?_⟩
    intro part hpart
    rw [hnormal hpart, intercalate_append_singleton hempty, hlast]
    simp

/-- A normal form does not end in a slash unless it is slashes only. -/
theorem normalizeList_isBare (s : List Char) : IsBare (normalizeList s) := by
  unfold normalizeList
  by_cases hempty : settledComponents s = []
  · rw [hempty]
    by_cases hroot : rootSlashes s = 0
    · rw [hroot]
      exact Or.inr ⟨[], '.', by decide, rfl⟩
    · rw [if_neg (by simp [hroot])]
      exact Or.inl ⟨rootSlashes s, by simp⟩
  · obtain ⟨before, c, hc, hlast⟩ := exists_last_of_settledComponents hempty
    rw [hlast, if_neg (by simp)]
    exact Or.inr ⟨_, c, hc, (List.append_assoc _ _ _).symm⟩

/-- A normal form has no characters of its own but slashes and dots. -/
theorem mem_normalizeList {s : List Char} {c : Char} (h : c ∈ normalizeList s) :
    c ∈ s ∨ c = '/' ∨ c = '.' := by
  have hcomponent : ∀ part ∈ settledComponents s, c ∈ part → c ∈ s := by
    intro part hpart hc
    rcases mem_foldl_settle (List.mem_reverse.1 hpart) with hpart | hpart
    · have hmem := mem_intercalate_of_mem ['/'] (List.mem_filter.1 hpart).1 hc
      rwa [List.intercalate_splitOn] at hmem
    · cases hpart
  unfold normalizeList at h
  simp only at h
  split at h
  · exact .inr (.inr (List.mem_singleton.1 h))
  · rcases List.mem_append.1 h with h | h
    · exact .inr (.inl (List.eq_of_mem_replicate h))
    · rcases mem_of_mem_intercalate h with h | h
      · exact .inr (.inl (List.mem_singleton.1 h))
      · obtain ⟨part, hpart, hc⟩ := List.mem_flatten.1 h
        exact .inl (hcomponent part hpart hc)

theorem normalizeList_ne_nil (s : List Char) : normalizeList s ≠ [] := by
  unfold normalizeList
  simp only
  split
  · exact List.cons_ne_nil _ _
  · next h => simpa using h

/-! ## Paths one behind the other -/

theorem toList_join (a b : String) :
    (join a b).toList =
      if b.toList.head? = some '/' then b.toList
      else if a.toList = [] ∨ a.toList.getLast? = some '/' then a.toList ++ b.toList
      else a.toList ++ '/' :: b.toList := by
  unfold join isAbsolute
  by_cases hb : b.toList.head? = some '/'
  · simp [hb]
  · by_cases ha : a.toList = [] ∨ a.toList.getLast? = some '/'
    · have ha' : (a.isEmpty || a.toList.getLast? == some '/') = true := by
        simpa [String.toList_eq_nil_iff] using ha
      rw [if_neg (by simpa using hb), if_pos ha', if_neg hb, if_pos ha, String.toList_append]
    · have ha' : ¬ (a.isEmpty || a.toList.getLast? == some '/') = true := by
        simpa [String.toList_eq_nil_iff] using ha
      rw [if_neg (by simpa using hb), if_neg ha', if_neg hb, if_neg ha]
      simp

/-- A path behind another one has no characters of its own but a slash. -/
theorem mem_join {a b : String} {c : Char} (h : c ∈ (join a b).toList) :
    c ∈ a.toList ∨ c ∈ b.toList ∨ c = '/' := by
  rw [toList_join] at h
  split_ifs at h
  · exact .inr (.inl h)
  · exact (List.mem_append.1 h).imp_right .inl
  · rcases List.mem_append.1 h with h | h
    · exact .inl h
    · exact .inr ((List.mem_cons.1 h).symm)

theorem join_ne_empty (a : String) {b : String} (h : b ≠ "") : join a b ≠ "" := by
  intro hempty
  have hb : b.toList ≠ [] := fun hnil => h (String.toList_eq_nil_iff.1 hnil)
  have hjoin := toList_join a b
  rw [hempty] at hjoin
  split_ifs at hjoin
  · exact hb hjoin.symm
  · exact hb (List.append_eq_nil_iff.1 hjoin.symm).2
  · simp at hjoin

/-- A path behind another one keeps its last component. -/
theorem join_append {a : String} (hpart : '/' ∉ part) :
    join a (String.ofList (front ++ part)) =
      String.ofList ((join a (String.ofList front)).toList ++ part) := by
  have hhead : (front ++ part).head? = some '/' ↔ front.head? = some '/' := by
    cases front with
    | nil =>
      cases part with
      | nil => rfl
      | cons c rest =>
        have hc : c ≠ '/' := fun h => hpart (h ▸ List.mem_cons_self)
        simp [hc]
    | cons c rest => rfl
  refine String.toList_injective ?_
  rw [String.toList_ofList, toList_join, toList_join, String.toList_ofList, String.toList_ofList]
  by_cases habsolute : front.head? = some '/'
  · rw [if_pos (hhead.2 habsolute), if_pos habsolute]
  · rw [if_neg (fun h => habsolute (hhead.1 h)), if_neg habsolute]
    by_cases ha : a.toList = [] ∨ a.toList.getLast? = some '/'
    · rw [if_pos ha, if_pos ha, List.append_assoc]
    · rw [if_neg ha, if_neg ha, List.append_assoc, List.cons_append]

theorem isFront_join {a : String} (hfront : IsFront front) :
    IsFront (join a (String.ofList front)).toList := by
  rw [toList_join, String.toList_ofList]
  rcases hfront with rfl | ⟨before, rfl⟩
  · rw [if_neg (by simp)]
    by_cases ha : a.toList = [] ∨ a.toList.getLast? = some '/'
    · rw [if_pos ha, List.append_nil]
      exact ha.imp_right fun h => List.getLast?_eq_some_iff.1 h
    · rw [if_neg ha]
      exact Or.inr ⟨a.toList, rfl⟩
  · refine Or.inr ?_
    split_ifs
    · exact ⟨before, rfl⟩
    · exact ⟨a.toList ++ before, (List.append_assoc _ _ _).symm⟩
    · exact ⟨a.toList ++ '/' :: before, by simp⟩

theorem isDirectory_join {a : String} (ha : IsBare a.toList) (hfront : IsDirectory front) :
    IsDirectory (join a (String.ofList front)).toList := by
  rw [toList_join, String.toList_ofList]
  by_cases habsolute : front.head? = some '/'
  · rw [if_pos habsolute]
    exact hfront
  rw [if_neg habsolute]
  -- a front of slashes only is absolute unless it is empty
  rcases hfront with ⟨n, rfl⟩ | ⟨before, c, hc, rfl⟩
  · obtain rfl : n = 0 := by
      cases n with
      | zero => rfl
      | succ n => exact absurd rfl habsolute
    rcases ha with ⟨k, hk⟩ | ⟨before, c, hc, hbefore⟩
    · rw [if_pos (by cases k <;> simp [hk, List.getLast?_replicate]), hk]
      exact Or.inl ⟨k, by simp⟩
    · rw [if_neg (by simp [hbefore, hc]), hbefore]
      exact Or.inr ⟨before, c, hc, by simp⟩
  · refine Or.inr ?_
    split_ifs
    · exact ⟨a.toList ++ before, c, hc, by simp⟩
    · exact ⟨a.toList ++ '/' :: before, c, hc, by simp⟩

/-! ## Relative paths -/

/-- The normal form of a relative path is relative. -/
theorem isAbsolute_normalize {s : String} (h : isAbsolute s = false) :
    isAbsolute (normalize s) = false := by
  have hroot : rootSlashes s.toList = 0 := by
    unfold isAbsolute at h
    cases hs : s.toList with
    | nil => rfl
    | cons c rest =>
      have hc : c ≠ '/' := by
        rintro rfl
        simp [hs] at h
      simp [rootSlashes, hc]
  unfold isAbsolute normalize normalizeList
  rw [String.toList_ofList, hroot, List.replicate_zero, List.nil_append]
  cases hsettled : settledComponents s.toList with
  | nil => rfl
  | cons first rest =>
    -- the first component has a first character, which is no slash
    have hfirst : first ∈ settledComponents s.toList := by simp [hsettled]
    obtain ⟨hne, hslash⟩ := mem_settledComponents hfirst
    obtain ⟨c, others, rfl⟩ := List.exists_cons_of_ne_nil hne
    have hc : c ≠ '/' := fun h => hslash (h ▸ List.mem_cons_self)
    cases rest with
    | nil => simp [hc]
    | cons second more => simp [List.intercalate_cons_cons, hc]

/-- Behind a relative path, different paths stay different. -/
theorem join_injective {a p q : String} (ha : isAbsolute a = false) (hne : a.toList ≠ [])
    (h : join a p = join a q) : p = q := by
  have hhead : a.toList.head? ≠ some '/' := by
    intro hslash
    simp [isAbsolute, hslash] at ha
  -- nothing that starts with the relative path is absolute
  have hfront : ∀ rest, (a.toList ++ rest).head? ≠ some '/' := by
    intro rest
    obtain ⟨c, others, hc⟩ := List.exists_cons_of_ne_nil hne
    rw [hc] at hhead ⊢
    exact hhead
  refine String.toList_injective ?_
  have hlist := congrArg String.toList h
  rw [toList_join, toList_join] at hlist
  by_cases hp : p.toList.head? = some '/'
  · rw [if_pos hp] at hlist
    by_cases hq : q.toList.head? = some '/'
    · rwa [if_pos hq] at hlist
    · rw [if_neg hq] at hlist
      split_ifs at hlist
      · exact absurd (hlist ▸ hp) (hfront _)
      · exact absurd (hlist ▸ hp) (hfront _)
  · rw [if_neg hp] at hlist
    by_cases hq : q.toList.head? = some '/'
    · rw [if_pos hq] at hlist
      split_ifs at hlist
      · exact absurd (hlist ▸ hq) (hfront _)
      · exact absurd (hlist ▸ hq) (hfront _)
    · rw [if_neg hq] at hlist
      split_ifs at hlist
      · exact List.append_cancel_left hlist
      · exact (List.cons.inj (List.append_cancel_left hlist)).2

/-! ## From one file to another -/

theorem basename_append (hfront : IsFront front) (hpart : '/' ∉ part) :
    basename (String.ofList (front ++ part)) = String.ofList part := by
  unfold basename
  rw [String.toList_ofList]
  rcases hfront with rfl | ⟨before, rfl⟩
  · rw [List.nil_append, cutLast?_eq_none hpart]
  · rw [List.append_assoc, List.singleton_append, cutLast?_append hpart]

/-- From the directory of one file, the last component of another file there leads to that file. -/
theorem join_dirname {other : List Char} (hfront : IsDirectory front) (hpart : '/' ∉ part)
    (hother : '/' ∉ other) :
    join (dirname (String.ofList (front ++ part))) (String.ofList other) =
      String.ofList (front ++ other) := by
  refine String.toList_injective ?_
  have hhead : other.head? ≠ some '/' := by
    intro h
    obtain ⟨rest, rfl⟩ := List.head?_eq_some_iff.1 h
    exact hother List.mem_cons_self
  rw [toList_join, String.toList_ofList, String.toList_ofList, if_neg hhead]
  unfold dirname
  rw [String.toList_ofList]
  -- slashes only stay as they are, and any other directory loses the slash that `join` puts back
  rcases hfront with ⟨n, rfl⟩ | ⟨before, c, hc, rfl⟩
  · cases n with
    | zero =>
      rw [List.replicate_zero, List.nil_append, cutLast?_eq_none hpart]
      simp
    | succ n =>
      rw [List.replicate_succ', List.append_assoc, List.singleton_append, cutLast?_append hpart]
      simp
  · have hfront : before ++ [c, '/'] ++ part = (before ++ [c]) ++ '/' :: part := by simp
    have hall : (before ++ [c]).all (· == '/') = false := by simp [hc]
    have hdrop : dirname.dropRightSlashes (before ++ [c]) = before ++ [c] := by
      simp [dirname.dropRightSlashes, hc]
    rw [hfront, cutLast?_append hpart]
    simp [hall, hdrop, hc]

end Path

end Makewright
