/-!
# Doubles as exact data

A double is a sign, a significand and a binary exponent, an infinity, or not a number. All rounding
happens in exact natural-number arithmetic: `roundRatio` takes a quotient to the nearest double and
an exact half to the even significand. `ofDecimal`, `add` and `mul` are built on it.
-/

set_option autoImplicit false

namespace Makewright

/-- A double: `finite s m q` stands for `m · 2 ^ q`, negated when `s` holds. In the canonical form
`m < 2 ^ 53` and `-1074 ≤ q`, and `2 ^ 52 ≤ m` unless `q = -1074`. -/
inductive Binary64 where
  | nan
  | infinity (negative : Bool)
  | finite (negative : Bool) (significand : Nat) (exponent : Int)
  deriving DecidableEq, Repr, Inhabited

namespace Binary64

/-- The quotient rounded to the nearest whole number, a half to the even neighbour. -/
def roundDiv (num den : Nat) : Nat :=
  let q := num / den
  let twice := 2 * (num % den)
  if twice < den then q
  else if den < twice then q + 1
  else if q % 2 = 0 then q else q + 1

/-- The exponent of the highest power of two that is at most `num / den`. -/
def ratioLog2 (num den : Nat) : Int :=
  let guess : Int := (Nat.log2 num : Int) - Nat.log2 den
  let reached :=
    if 0 ≤ guess then den * Nat.pow 2 guess.toNat ≤ num else den ≤ num * Nat.pow 2 (-guess).toNat
  if reached then guess else guess - 1

/-- The double nearest to `num / den`, where a tie goes to the even significand. -/
def roundRatio (negative : Bool) (num den : Nat) : Binary64 :=
  if num = 0 then .finite negative 0 (-1074)
  else
    let q : Int := max (ratioLog2 num den - 52) (-1074)
    let m :=
      if 0 ≤ q then roundDiv num (den * Nat.pow 2 q.toNat)
      else roundDiv (num * Nat.pow 2 (-q).toNat) den
    let (m, q) := if m = Nat.pow 2 53 then (Nat.pow 2 52, q + 1) else (m, q)
    if 971 < q then .infinity negative else .finite negative m q

/-- The double nearest to `digits · 10 ^ tens`. Magnitudes beyond every double, and those that
round to zero, are settled by the number of digits. -/
def ofDecimal (negative : Bool) (digits : Nat) (tens : Int) : Binary64 :=
  let places : Int := (Nat.toDigits 10 digits).length + tens
  if digits = 0 || places < -330 then .finite negative 0 (-1074)
  else if 310 < places then .infinity negative
  else if 0 ≤ tens then roundRatio negative (digits * Nat.pow 10 tens.toNat) 1
  else roundRatio negative digits (Nat.pow 10 (-tens).toNat)

/-- The double nearest to a whole number. -/
def ofInt (n : Int) : Binary64 :=
  roundRatio (n < 0) n.natAbs 1

/-- The other sign. -/
def neg : Binary64 → Binary64
  | .nan => .nan
  | .infinity s => .infinity !s
  | .finite s m q => .finite (!s) m q

/-- The whole number `± m · 2 ^ (q - low)`. -/
def scaledInt (negative : Bool) (m : Nat) (q low : Int) : Int :=
  let n : Int := m * Nat.pow 2 (q - low).toNat
  if negative then -n else n

/-- The sum of two doubles, rounded once. -/
def add : Binary64 → Binary64 → Binary64
  | .nan, _ => .nan
  | _, .nan => .nan
  | .infinity s, .infinity t => if s = t then .infinity s else .nan
  | .infinity s, .finite .. => .infinity s
  | .finite .., .infinity s => .infinity s
  | .finite s m p, .finite t n q =>
    let low := min p q
    let sum := scaledInt s m p low + scaledInt t n q low
    let negative := if sum = 0 then s && t else sum < 0
    if 0 ≤ low then roundRatio negative (sum.natAbs * Nat.pow 2 low.toNat) 1
    else roundRatio negative sum.natAbs (Nat.pow 2 (-low).toNat)

/-- The product of two doubles, rounded once. -/
def mul : Binary64 → Binary64 → Binary64
  | .nan, _ => .nan
  | _, .nan => .nan
  | .infinity s, .infinity t => .infinity (s != t)
  | .infinity s, .finite t n _ => if n = 0 then .nan else .infinity (s != t)
  | .finite s m _, .infinity t => if m = 0 then .nan else .infinity (s != t)
  | .finite s m p, .finite t n q =>
    let power := p + q
    if 0 ≤ power then roundRatio (s != t) (m * n * Nat.pow 2 power.toNat) 1
    else roundRatio (s != t) (m * n) (Nat.pow 2 (-power).toNat)

/-- A double and a whole number are the same number. -/
def isInt (x : Binary64) (n : Int) : Bool :=
  match x with
  | .finite s m q =>
    if 0 ≤ q then scaledInt s m q 0 == n
    else (if s then -(m : Int) else m) == n * Nat.pow 2 (-q).toNat
  | _ => false

/-- Two doubles are equal as numbers; a `nan` counts as equal to itself, because every `nan` that a
document can name is one and the same value. -/
def sameNumber : Binary64 → Binary64 → Bool
  | .finite _ 0 _, .finite _ 0 _ => true
  | x, y => x == y

/-- Neither zero nor nothing: a double that counts as true. -/
def isTruthy : Binary64 → Bool
  | .finite _ m _ => m != 0
  | _ => true

end Binary64

end Makewright
