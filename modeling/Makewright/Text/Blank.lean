/-!
# Blank characters and trimming

The characters that count as blank around a value: the ASCII blanks, the four information
separators, the next-line control and the space separators of Unicode. `trim` removes them from
both ends of a text and `strip` does the same for any class of characters.
-/

set_option autoImplicit false

namespace Makewright.Text

/-- The blank code points as inclusive ranges. -/
def blankRanges : List (Nat × Nat) :=
  [(9, 13), (28, 32), (133, 133), (160, 160), (5760, 5760), (8192, 8202), (8232, 8233),
   (8239, 8239), (8287, 8287), (12288, 12288)]

/-- A character counts as blank at the ends of a value. -/
def isBlank (c : Char) : Bool :=
  blankRanges.any fun (first, last) => first ≤ c.toNat && c.toNat ≤ last

/-- Drop the characters of a class from the right end. -/
def dropRight (p : Char → Bool) (s : List Char) : List Char :=
  (s.reverse.dropWhile p).reverse

/-- Drop the characters of a class from both ends. -/
def stripList (p : Char → Bool) (s : List Char) : List Char :=
  dropRight p (s.dropWhile p)

/-- Drop the characters of a class from both ends of a text. -/
def strip (p : Char → Bool) (s : String) : String :=
  String.ofList (stripList p s.toList)

/-- Remove the blanks at both ends. -/
def trim (s : String) : String :=
  strip isBlank s

/-- Remove the blanks at the right end. -/
def trimRight (s : String) : String :=
  String.ofList (dropRight isBlank s.toList)

/-- A text with nothing but blanks in it. -/
def isAllBlank (s : String) : Bool :=
  s.toList.all isBlank

@[simp]
theorem stripList_nil (p : Char → Bool) : stripList p [] = [] := rfl

end Makewright.Text
