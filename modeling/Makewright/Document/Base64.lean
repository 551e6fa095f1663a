import Makewright.Document.Basic

/-!
# Base64

Bytes written in the sixty-four letters of base64. Reading is lenient: characters outside the
alphabet are skipped, and the bytes end with the padding of a group of four.
-/

set_option autoImplicit false

namespace Makewright.Base64

/-- The six bits that a letter stands for. -/
def sextet? (c : Char) : Option Nat :=
  if 'A' ≤ c && c ≤ 'Z' then some (c.toNat - 'A'.toNat)
  else if 'a' ≤ c && c ≤ 'z' then some (c.toNat - 'a'.toNat + 26)
  else if Document.isDigit c then some (c.toNat - '0'.toNat + 52)
  else if c = '+' then some 62
  else if c = '/' then some 63
  else none

/-- Go on reading: `filled` letters of the present group have gone by, `left` holds the bits of the
last one that no byte has taken yet, and `pads` counts the padding since then. The bytes so far are
held last first. -/
def decodeFrom (seen : List UInt8) (filled left pads : Nat) : List Char → Option (List UInt8)
  | [] => if filled = 0 then some seen.reverse else none
  | c :: rest =>
    if c = '=' then
      if 2 ≤ filled then
        if 4 ≤ filled + (pads + 1) then some seen.reverse
        else decodeFrom seen filled left (pads + 1) rest
      else decodeFrom seen filled left pads rest
    else
      match sextet? c with
      | none => decodeFrom seen filled left pads rest
      | some bits =>
        match filled with
        | 0 => decodeFrom seen 1 bits 0 rest
        | 1 => decodeFrom (UInt8.ofNat (left * 4 + bits / 16) :: seen) 2 (bits % 16) 0 rest
        | 2 => decodeFrom (UInt8.ofNat (left * 16 + bits / 4) :: seen) 3 (bits % 4) 0 rest
        | _ => decodeFrom (UInt8.ofNat (left * 64 + bits) :: seen) 0 0 0 rest

/-- The bytes that a text stands for, unless its last group is cut off. -/
def decode? (text : List Char) : Option (List UInt8) :=
  decodeFrom [] 0 0 0 text

end Makewright.Base64
