import DistributedMarket.Lib.Decimal

/-!
The constructor of the `decimal` module on a string.

The text is brought to ASCII first: surrounding white space is dropped,
underscores are dropped anywhere, and a decimal digit of any script is
replaced by the ASCII digit of its value. What remains has to match the
documented grammar, which is a sign followed by digits with at most one
point and an optional exponent, or by one of the words for the special
values. Construction is exact whatever the number of digits.
-/

namespace Lib.Decimal

/-- White space, as `str.strip` and the constructor understand it. -/
def isSpace (c : Char) : Bool :=
  let n := c.toNat
  (0x9 ≤ n && n ≤ 0xD) || (0x1C ≤ n && n ≤ 0x20) || n == 0x85 || n == 0xA0 || n == 0x1680 ||
    (0x2000 ≤ n && n ≤ 0x200A) || n == 0x2028 || n == 0x2029 || n == 0x202F || n == 0x205F ||
    n == 0x3000

/-- The zeros of the decimal digits of Unicode 15; the other nine of each
script follow its zero. -/
def digitZeros : List ℕ :=
  [0x30, 0x660, 0x6F0, 0x7C0, 0x966, 0x9E6, 0xA66, 0xAE6, 0xB66, 0xBE6, 0xC66, 0xCE6, 0xD66,
    0xDE6, 0xE50, 0xED0, 0xF20, 0x1040, 0x1090, 0x17E0, 0x1810, 0x1946, 0x19D0, 0x1A80, 0x1A90,
    0x1B50, 0x1BB0, 0x1C40, 0x1C50, 0xA620, 0xA8D0, 0xA900, 0xA9D0, 0xA9F0, 0xAA50, 0xABF0,
    0xFF10, 0x104A0, 0x10D30, 0x11066, 0x110F0, 0x11136, 0x111D0, 0x112F0, 0x11450, 0x114D0,
    0x11650, 0x116C0, 0x11730, 0x118E0, 0x11950, 0x11C50, 0x11D50, 0x11DA0, 0x11F50, 0x16A60,
    0x16AC0, 0x16B50, 0x1D7CE, 0x1D7D8, 0x1D7E2, 0x1D7EC, 0x1D7F6, 0x1E140, 0x1E2F0, 0x1E4F0,
    0x1E950, 0x1FBF0]

/-- The ASCII character the constructor reads for `c`, if any. -/
def asciiChar (c : Char) : Option Char :=
  if c.toNat ≤ 127 then some c
  else if isSpace c then some ' '
  else
    (digitZeros.find? fun base => base ≤ c.toNat && c.toNat < base + 10).map fun base =>
      Nat.digitChar (c.toNat - base)

def strip (cs : List Char) : List Char :=
  ((cs.dropWhile isSpace).reverse.dropWhile isSpace).reverse

/-- The text in ASCII; `none` when a character has no place in a number. -/
def numericAsAscii (text : String) : Option (List Char) :=
  ((strip text.toList).filter (· != '_')).mapM asciiChar

def splitSign : List Char → Bool × List Char
  | '-' :: cs => (true, cs)
  | '+' :: cs => (false, cs)
  | cs => (false, cs)

theorem splitSign_of_digit {c : Char} {cs : List Char} (hc : c.isDigit = true) :
    splitSign (c :: cs) = (false, c :: cs) := by
  unfold splitSign
  split
  · rename_i rest heq
    obtain ⟨rfl, -⟩ := List.cons.inj heq
    contradiction
  · rename_i rest heq
    obtain ⟨rfl, -⟩ := List.cons.inj heq
    contradiction
  · rfl

/-- The exponent part: nothing at all, or an `e` with an optional sign and
at least one digit. -/
def readExponent : List Char → Option ℤ
  | [] => some 0
  | c :: cs =>
      let (negative, digits) := splitSign cs
      if (c == 'e' || c == 'E') && !digits.isEmpty && digits.all Char.isDigit then
        let magnitude : ℤ := Nat.ofDigitChars 10 digits 0
        some (if negative then -magnitude else magnitude)
      else none

/-- The digits after a point, and what follows them. -/
def splitFraction : List Char → List Char × List Char
  | '.' :: cs => (cs.takeWhile Char.isDigit, cs.dropWhile Char.isDigit)
  | cs => ([], cs)

/-- Digits with at most one point, and an exponent. -/
def readFinite (negative : Bool) (cs : List Char) : Option Finite :=
  let whole := cs.takeWhile Char.isDigit
  let (fraction, rest) := splitFraction (cs.dropWhile Char.isDigit)
  if whole.isEmpty && fraction.isEmpty then none
  else
    (readExponent rest).map fun e =>
      ⟨negative, Nat.ofDigitChars 10 (whole ++ fraction) 0, e - fraction.length⟩

/-- The words for the special values, in any case; a NaN may carry digits. -/
def readSpecial (negative : Bool) (cs : List Char) : Option Number :=
  let word := cs.map Char.toLower
  if word == "inf".toList || word == "infinity".toList then some (.infinity negative)
  else if "nan".toList.isPrefixOf word && (word.drop 3).all Char.isDigit then
    some (.nan negative false (Nat.ofDigitChars 10 (word.drop 3) 0))
  else if "snan".toList.isPrefixOf word && (word.drop 4).all Char.isDigit then
    some (.nan negative true (Nat.ofDigitChars 10 (word.drop 4) 0))
  else none

/-- `Decimal(text)`. -/
def Number.ofText (text : String) : Except Signal Number :=
  let read := do
    let cs ← numericAsAscii text
    let (negative, body) := splitSign cs
    readSpecial negative body <|> (readFinite negative body).map .finite
  match read with
  | some value => .ok value
  | none => .error .InvalidOperation

example : Number.ofText " -1_0.50e+3\n" = .ok (.finite ⟨true, 1050, 1⟩) := by decide
example : Number.ofText "1.0.0" = .error .InvalidOperation := by decide

end Lib.Decimal
