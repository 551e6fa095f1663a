import Makewright.Text.Blank
import Makewright.Text.Surrogate
import Mathlib.Data.List.DropRight

/-!
# Stripped texts, and texts with lone surrogates

A text without its outer characters of some class is a part of it, starts and ends with other
characters (`Text.head?_strip`, `Text.getLast?_strip`), and is left alone when it is stripped once
more (`Text.strip_strip`).

A text can be written to a file if none of its code points is a surrogate
(`Text.refusal?_eq_none_iff`): a text without the mark of surrogates can, and one with the two
characters that show a surrogate cannot.
-/

set_option autoImplicit false

namespace Makewright.Text

variable {p : Char → Bool} {front back : List Char}

theorem stripList_sublist (p : Char → Bool) (s : List Char) : (stripList p s).Sublist s := by
  have hback : stripList p s <+: s.dropWhile p := List.rdropWhile_prefix p _
  exact hback.sublist.trans (List.dropWhile_suffix p).sublist

/-- A text that is stripped does not start with a character that is stripped off. -/
theorem head?_strip (p : Char → Bool) (text : String) (c : Char)
    (h : (strip p text).toList.head? = some c) : p c = false := by
  rw [strip, String.toList_ofList, stripList] at h
  have hprefix : (dropRight p (text.toList.dropWhile p)) <+: text.toList.dropWhile p :=
    List.rdropWhile_prefix p _
  have hstart := List.head?_dropWhile_not p text.toList
  obtain ⟨rest, hrest⟩ := List.head?_eq_some_iff.1 h
  obtain ⟨back, hback⟩ := hprefix
  rw [← hback, hrest] at hstart
  simpa using hstart

/-- Nor does it end with one. -/
theorem getLast?_strip (p : Char → Bool) (text : String) (c : Char)
    (h : (strip p text).toList.getLast? = some c) : p c = false := by
  rw [strip, String.toList_ofList, stripList, dropRight, List.getLast?_reverse] at h
  have hstart := List.head?_dropWhile_not p (text.toList.dropWhile p).reverse
  rw [h] at hstart
  simpa using hstart

theorem dropWhile_eq_self {s : List Char} (h : ∀ c, s.head? = some c → p c = false) :
    s.dropWhile p = s := by
  cases s with
  | nil => rfl
  | cons c rest =>
    rw [List.dropWhile_cons, h c rfl]
    rfl

/-- A text that neither starts nor ends with a character of the class is left alone. -/
theorem strip_eq_self {text : String} (hhead : ∀ c, text.toList.head? = some c → p c = false)
    (hlast : ∀ c, text.toList.getLast? = some c → p c = false) : strip p text = text := by
  have hback : text.toList.reverse.dropWhile p = text.toList.reverse :=
    dropWhile_eq_self (by simpa only [List.head?_reverse] using hlast)
  rw [strip, stripList, dropWhile_eq_self hhead, dropRight, hback, List.reverse_reverse,
    String.ofList_toList]

theorem strip_strip (p : Char → Bool) (s : String) : strip p (strip p s) = strip p s :=
  strip_eq_self (head?_strip p s) (getLast?_strip p s)

theorem trim_trim (s : String) : trim (trim s) = trim s :=
  strip_strip isBlank s

theorem mem_of_mem_trim {s : String} {c : Char} (h : c ∈ (trim s).toList) : c ∈ s.toList := by
  rw [trim, strip, String.toList_ofList] at h
  exact (stripList_sublist isBlank s.toList).subset h

/-! ## What is stripped off -/

/-- What is stripped off stands around the rest. -/
theorem exists_stripList (p : Char → Bool) (s : List Char) :
    ∃ front back, s = front ++ stripList p s ++ back ∧ (∀ c ∈ front, p c = true) ∧
      ∀ c ∈ back, p c = true := by
  refine ⟨s.takeWhile p, (s.dropWhile p).rtakeWhile p, ?_, ?_, ?_⟩
  · have hback : stripList p s = (s.dropWhile p).rdropWhile p := rfl
    rw [hback, List.append_assoc, List.rdropWhile_append_rtakeWhile,
      List.takeWhile_append_dropWhile]
  · exact fun c hc => List.mem_takeWhile_imp hc
  · intro c hc
    rw [List.rtakeWhile, List.mem_reverse] at hc
    exact List.mem_takeWhile_imp hc

/-- The blanks that are trimmed stand around the rest. -/
theorem exists_trim (text : String) :
    ∃ front back, text.toList = front ++ (trim text).toList ++ back ∧
      (∀ c ∈ front, isBlank c = true) ∧ ∀ c ∈ back, isBlank c = true := by
  rw [trim, strip, String.toList_ofList]
  exact exists_stripList isBlank text.toList

theorem dropRight_append (hback : ∀ c ∈ back, p c = true) (s : List Char) :
    dropRight p (s ++ back) = dropRight p s := by
  rw [dropRight, List.reverse_append, List.dropWhile_append_of_pos (by simpa using hback)]
  rfl

/-- Characters of the class around a text are stripped off with those of the text. -/
theorem stripList_padded (hfront : ∀ c ∈ front, p c = true) (hback : ∀ c ∈ back, p c = true)
    (s : List Char) : stripList p (front ++ s ++ back) = stripList p s := by
  rw [stripList, stripList, List.append_assoc, List.dropWhile_append_of_pos hfront,
    List.dropWhile_append]
  split
  · next hempty =>
    rw [List.isEmpty_iff] at hempty
    rw [hempty, List.dropWhile_eq_nil_iff.2 hback]
  · rw [dropRight_append hback]

/-! ## Lone surrogates -/

/-- The mark is not the second of two characters that stand for a surrogate. -/
theorem surrogate?_mark (c : Char) : surrogate? c surrogateMark = none := by
  have hmark : isSurrogate (surrogateMark.toNat - surrogateShift) = false := by decide
  simp [surrogate?, hmark]

/-- The two characters that show a surrogate stand for it. -/
theorem surrogate?_ofNat {code : Nat} (h : isSurrogate code = true) :
    surrogate? surrogateMark (Char.ofNat (code + surrogateShift)) = some code := by
  have hrange := h
  simp only [isSurrogate, Bool.and_eq_true, decide_eq_true_eq] at hrange
  have hvalid : (code + surrogateShift).isValidChar := by
    right
    simp only [surrogateShift]
    omega
  have htell : (Char.ofNat (code + surrogateShift)).toNat = code + surrogateShift := by
    rw [Char.ofNat, dif_pos hvalid]
    rfl
  simp [surrogate?, htell, h]

theorem isSurrogate_toNat (c : Char) : isSurrogate c.toNat = false := by
  have hvalid : c.toNat < 0xD800 ∨ 0xDFFF < c.toNat ∧ c.toNat < 0x110000 := c.valid
  simp only [isSurrogate, Bool.and_eq_false_iff, decide_eq_false_iff_not]
  omega

/-- A surrogate is read wherever the two characters that show it stand. -/
theorem mem_codePoints {code : Nat} (h : isSurrogate code = true) (rest : List Char) :
    ∀ front, code ∈ codePoints (front ++ charsOfCode code ++ rest)
  | [] => by simp [charsOfCode, h, codePoints, surrogate?_ofNat h]
  | [x] => by simp [charsOfCode, h, codePoints, surrogate?_mark, surrogate?_ofNat h]
  | x :: y :: front => by
    simp only [List.cons_append, codePoints]
    cases surrogate? x y with
    | some first => exact List.mem_cons_of_mem _ (mem_codePoints h rest front)
    | none => exact List.mem_cons_of_mem _ (mem_codePoints h rest (y :: front))

/-- A text without the mark shows no surrogate. -/
theorem codePoints_of_not_mem {s : List Char} (h : surrogateMark ∉ s) :
    codePoints s = s.map Char.toNat := by
  fun_induction codePoints s with
  | case1 => rfl
  | case2 => rfl
  | case3 c d rest code hcode _ =>
    rw [List.mem_cons, not_or] at h
    simp [surrogate?, Ne.symm h.1] at hcode
  | case4 c d rest _ ih =>
    rw [List.map_cons, ih fun hrest => h (List.mem_cons_of_mem c hrest)]

theorem refusalFrom_eq_none_iff {accepts : Nat → Bool} {codes : List Nat} (position : Nat) :
    refusalFrom accepts position codes = none ↔
      ∀ code ∈ codes, isSurrogate code → accepts code := by
  induction codes generalizing position with
  | nil => simp [refusalFrom]
  | cons code rest ih =>
    rw [refusalFrom]
    split <;> simp_all

theorem refusal?_eq_none_iff {s : String} :
    refusal? s = none ↔ ∀ code ∈ codePoints s.toList, isSurrogate code = false := by
  simp [refusal?, refusalFrom_eq_none_iff]

theorem refusal?_eq_none {s : String} (h : surrogateMark ∉ s.toList) : refusal? s = none := by
  rw [refusal?_eq_none_iff, codePoints_of_not_mem h]
  intro code hcode
  obtain ⟨c, -, rfl⟩ := List.mem_map.1 hcode
  exact isSurrogate_toNat c

theorem exists_refusal? {s : String} {code : Nat} (h : isSurrogate code = true)
    (hshown : charsOfCode code <:+: s.toList) : ∃ refusal, refusal? s = some refusal := by
  apply Option.ne_none_iff_exists'.1
  intro hnone
  obtain ⟨front, rest, htext⟩ := hshown
  have hcode := refusal?_eq_none_iff.1 hnone code
  rw [← htext] at hcode
  rw [hcode (mem_codePoints h rest front)] at h
  cases h

end Makewright.Text
