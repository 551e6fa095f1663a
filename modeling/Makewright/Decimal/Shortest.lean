import Makewright.Decimal.Binary64

/-!
# The shortest decimal that reads back

`Shortest.ofMagnitude` gives the decimal with the fewest digits inside the interval of numbers
that round to a positive double `m · 2 ^ q`, and of several the one nearest to the double. For a
fixed number of digits only the two neighbours of the double on the decimal grid can be inside
and nearest, so the search tests two candidates for each of at most seventeen grids.

`Layout` holds the decisions of a number format, and `Layout.render` writes a double in it.
-/

set_option autoImplicit false

namespace Makewright

/-- The decimal `digits · 10 ^ tens`. -/
structure Decimal where
  digits : Nat
  tens : Int
  deriving DecidableEq, Repr

namespace Shortest

/-- Compare `a · 2 ^ p` with `b · 10 ^ t` after bringing both to whole numbers. -/
def compareScaled (a : Nat) (p : Int) (b : Nat) (t : Int) : Ordering :=
  let left := a * Nat.pow 2 p.toNat * Nat.pow 10 (-t).toNat
  let right := b * Nat.pow 10 t.toNat * Nat.pow 2 (-p).toNat
  compare left right

/-- The interval of numbers that round to `m · 2 ^ q`, given in units of `2 ^ (q - 2)`. Below a
power of two the gap to the next double is half as wide. -/
def interval (m : Nat) (q : Int) : Nat × Nat :=
  let low := if m = Nat.pow 2 52 && -1074 < q then 4 * m - 1 else 4 * m - 2
  (low, 4 * m + 2)

/-- The decimal `digits · 10 ^ tens` rounds to `m · 2 ^ q`; the ends count when `m` is even. -/
def readsBack (m : Nat) (q : Int) (digits : Nat) (tens : Int) : Bool :=
  let (low, high) := interval m q
  let below := compareScaled low (q - 2) digits tens
  let above := compareScaled high (q - 2) digits tens
  if m % 2 = 0 then below != .gt && above != .lt else below == .lt && above == .gt

/-- The whole part of `m · 2 ^ q / 10 ^ t`. -/
def floorScaled (m : Nat) (q t : Int) : Nat :=
  m * Nat.pow 2 q.toNat * Nat.pow 10 (-t).toNat / (Nat.pow 10 t.toNat * Nat.pow 2 (-q).toNat)

/-- The number of digits before the point of `m · 2 ^ q`: the least `k` with the number below
`10 ^ k`. It starts from a lower bound and steps up at most a few times. -/
def leadingPlace (m : Nat) (q : Int) : Int :=
  let bits : Int := Nat.log2 m + q
  go 8 (bits * 30103 / 100000 - 2)
where
  /-- Step up until the power of ten exceeds the number. -/
  go : Nat → Int → Int
    | 0, k => k
    | fuel + 1, k => if compareScaled m q 1 k == .lt then k else go fuel (k + 1)

/-- The candidate with `count` digits, if one of the two neighbours on that grid reads back: the
nearer of the two, a tie going to the even one. -/
def candidate (m : Nat) (q : Int) (place : Int) (count : Nat) : Option Decimal :=
  let tens := place - count
  let floor := floorScaled m q tens
  let lowFits := 0 < floor && readsBack m q floor tens
  let highFits := readsBack m q (floor + 1) tens
  let half := compareScaled (2 * m) q (2 * floor + 1) tens
  if lowFits && highFits then
    match half with
    | .lt => some ⟨floor, tens⟩
    | .gt => some ⟨floor + 1, tens⟩
    | .eq => some ⟨if floor % 2 = 0 then floor else floor + 1, tens⟩
  else if lowFits then some ⟨floor, tens⟩
  else if highFits then some ⟨floor + 1, tens⟩
  else none

/-- The shortest decimal that reads back as the positive double `m · 2 ^ q`. -/
def ofMagnitude (m : Nat) (q : Int) : Decimal :=
  let place := leadingPlace m q
  match (List.range 17).findSome? fun i => candidate m q place (i + 1) with
  | some d => d
  | none => ⟨floorScaled m q (place - 17), place - 17⟩

end Shortest

/-- The decisions of a number format: the places for which a number is written without an exponent,
the least number of exponent digits, and the words for the values that are no finite number. -/
structure Layout where
  leastPlace : Int
  greatestPlace : Int
  exponentDigits : Nat
  infinity : String
  nan : String

/-- Numbers from `0.0001` to below `10 ^ 16` are written out and always with a point; others get a
signed exponent of at least two digits. -/
def Layout.standard : Layout := ⟨-3, 16, 2, "inf", "nan"⟩

/-- The digits of a whole number, filled up with zeros on the left. -/
def padDigits (width n : Nat) : String :=
  let digits := Nat.toDigits 10 n
  String.ofList (List.replicate (width - digits.length) '0' ++ digits)

/-- Write the decimal with the given digits, whose point stands after `place` of them. -/
def Layout.renderDigits (layout : Layout) (digits : List Char) (place : Int) : String :=
  if layout.leastPlace ≤ place && place ≤ layout.greatestPlace then
    if place ≤ 0 then
      String.ofList (['0', '.'] ++ List.replicate (-place).toNat '0' ++ digits)
    else
      let whole := digits.take place.toNat ++ List.replicate (place.toNat - digits.length) '0'
      let fraction := digits.drop place.toNat
      String.ofList (whole ++ ['.'] ++ if fraction.isEmpty then ['0'] else fraction)
  else
    let mantissa :=
      match digits with
      | first :: second :: rest => first :: '.' :: second :: rest
      | short => short
    let exponent := place - 1
    String.ofList mantissa ++ "e" ++ (if exponent < 0 then "-" else "+")
      ++ padDigits layout.exponentDigits exponent.natAbs

/-- Write a double with the fewest digits that read back. -/
def Layout.render (layout : Layout) : Binary64 → String
  | .nan => layout.nan
  | .infinity negative => (if negative then "-" else "") ++ layout.infinity
  | .finite negative m q =>
    let digitsAndPlace : List Char × Int :=
      if m = 0 then (['0'], 1)
      else
        let d := Shortest.ofMagnitude m q
        let all := Nat.toDigits 10 d.digits
        let place := all.length + d.tens
        ((all.reverse.dropWhile (· == '0')).reverse, place)
    (if negative then "-" else "") ++ layout.renderDigits digitsAndPlace.1 digitsAndPlace.2

end Makewright
