/-!
# The digest SHA-1

The digest of a list of bytes: the bytes are padded to blocks of sixty-four, every block is expanded
to eighty words, and every word takes the five words of state one step further.
-/

set_option autoImplicit false

namespace Makewright.Sha1

/-- The five words of state. -/
structure State where
  a : UInt32
  b : UInt32
  c : UInt32
  d : UInt32
  e : UInt32

/-- The state that the digest starts from. -/
def State.initial : State :=
  ⟨0x67452301, 0xEFCDAB89, 0x98BADCFE, 0x10325476, 0xC3D2E1F0⟩

/-- The words of two states added up. -/
def State.add (s t : State) : State :=
  ⟨s.a + t.a, s.b + t.b, s.c + t.c, s.d + t.d, s.e + t.e⟩

/-- A word rotated to the left. -/
def rotate (w : UInt32) (n : UInt32) : UInt32 :=
  (w <<< n) ||| (w >>> (32 - n))

/-- The bytes of a number, highest first. -/
def bytesOf : Nat → Nat → List UInt8
  | 0, _ => []
  | count + 1, n => bytesOf count (n / 256) ++ [UInt8.ofNat (n % 256)]

/-- A message padded to whole blocks: a one bit, zeros, and the length in bits. -/
def pad (message : List UInt8) : List UInt8 :=
  let zeros := (119 - message.length % 64) % 64
  message ++ [0x80] ++ List.replicate zeros 0 ++ bytesOf 8 (message.length * 8)

/-- The words of a message, highest byte first. -/
def wordsOf : List UInt8 → List UInt32
  | a :: b :: c :: d :: rest =>
    ((a.toUInt32 <<< 24) ||| (b.toUInt32 <<< 16) ||| (c.toUInt32 <<< 8) ||| d.toUInt32)
      :: wordsOf rest
  | _ => []

/-- Expand a block by `count` more words; the words so far come last first. -/
def expand : Nat → List UInt32 → List UInt32
  | 0, words => words
  | count + 1, words =>
    let word (i : Nat) : UInt32 := (words[i]?).getD 0
    expand count (rotate (word 2 ^^^ word 7 ^^^ word 13 ^^^ word 15) 1 :: words)

/-- The mixing function and the constant of a step. -/
def mixing (step : Nat) (s : State) : UInt32 × UInt32 :=
  if step < 20 then ((s.b &&& s.c) ||| ((~~~ s.b) &&& s.d), 0x5A827999)
  else if step < 40 then (s.b ^^^ s.c ^^^ s.d, 0x6ED9EBA1)
  else if step < 60 then ((s.b &&& s.c) ||| (s.b &&& s.d) ||| (s.c &&& s.d), 0x8F1BBCDC)
  else (s.b ^^^ s.c ^^^ s.d, 0xCA62C1D6)

/-- Take the state one step further with one word. -/
def advance (word : UInt32) (step : Nat) (s : State) : State :=
  let (mixed, constant) := mixing step s
  ⟨rotate s.a 5 + mixed + s.e + constant + word, s.a, rotate s.b 30, s.c, s.d⟩

/-- Take the state further by one block of sixteen words. -/
def takeBlock (s : State) (block : List UInt32) : State :=
  let words := (expand 64 block.reverse).reverse
  s.add ((words.zipIdx).foldl (fun t (word, step) => advance word step t) s)

/-- Take the state further by all blocks; `count` is their number. -/
def takeBlocks : Nat → State → List UInt32 → State
  | 0, s, _ => s
  | count + 1, s, words => takeBlocks count (takeBlock s (words.take 16)) (words.drop 16)

/-- The digest of a message in lower-case hexadecimal. -/
def hexDigest (message : List UInt8) : String :=
  let words := wordsOf (pad message)
  let s := takeBlocks (words.length / 16) .initial words
  let hex (w : UInt32) : List Char :=
    let digits := Nat.toDigits 16 w.toNat
    List.replicate (8 - digits.length) '0' ++ digits
  String.ofList ([s.a, s.b, s.c, s.d, s.e].flatMap hex)

end Makewright.Sha1
