import DeviceModel.Text.Integer

/-!
Decimal numbers that keep their scale. A number is written as it is stored, trailing zeros and all.
Reading takes the digits that fit in 96 bits and 28 places and rounds at the first one that does
not; a number too large even without a fraction is refused.
-/

namespace DeviceModel

/-- The number `± mantissa / 10 ^ scale`. A zero has a sign where rounding made it of a number below
zero. -/
structure Decimal where
  negative : Bool
  mantissa : Nat
  scale : Nat
  deriving DecidableEq, Repr, Inhabited, Hashable

namespace Decimal

def zero : Decimal := ⟨false, 0, 0⟩

def one : Decimal := ⟨false, 1, 0⟩

def ofInt (i : Int) : Decimal := ⟨i < 0, i.natAbs, 0⟩

/-- The number whose sign shows only if it is not zero. -/
def ofParts (negative : Bool) (mantissa scale : Nat) : Decimal :=
  ⟨negative && mantissa != 0, mantissa, scale⟩

def maxScale : Nat := 28

/-- The largest mantissa, of 96 bits. -/
def maxMantissa : Nat := 79228162514264337593543950335

/-- The numbers that have a stored form. -/
def Storable (d : Decimal) : Prop := d.mantissa ≤ maxMantissa ∧ d.scale ≤ maxScale

instance (d : Decimal) : Decidable d.Storable :=
  inferInstanceAs (Decidable (_ ∧ _))

/-- The digits with a point before the last `scale` of them. -/
def chars (d : Decimal) : List Char :=
  let ds := Nat.toDigits 10 d.mantissa
  let ds := List.replicate (d.scale + 1 - ds.length) '0' ++ ds
  let k := ds.length - d.scale
  let sign := if d.negative then ['-'] else []
  let point := if d.scale = 0 then [] else '.' :: ds.drop k
  sign ++ ds.take k ++ point

def text (d : Decimal) : String := String.ofList d.chars

/-- The mantissa and scale, rounded at the digit `c` behind them; a half goes up. A mantissa that
becomes too large gives up its last place. -/
def roundAt (mantissa scale : Nat) (c : Char) : Option (Nat × Nat) :=
  if c < '5' then some (mantissa, scale)
  else if mantissa < maxMantissa then some (mantissa + 1, scale)
  else if scale = 0 then none
  else some ((mantissa + 5) / 10, scale - 1)

/-- Digits with at most one point, and underscores behind the first digit. -/
def scan (point seen : Bool) (mantissa scale : Nat) : List Char → Option (Nat × Nat)
  | [] => if seen then some (mantissa, scale) else none
  | c :: cs =>
    if c.isDigit then
      let m := mantissa * 10 + (c.toNat - '0'.toNat)
      if m ≤ maxMantissa ∧ (point → scale < maxScale) then
        scan point true m (if point then scale + 1 else scale) cs
      else if point ∧ cs.all fun c => c.isDigit || c == '_' then roundAt mantissa scale c
      else none
    else if c = '.' ∧ !point then scan true seen mantissa scale cs
    else if c = '_' ∧ seen then scan point seen mantissa scale cs
    else none

def ofPlain? (cs : List Char) : Option Decimal :=
  match cs with
  | '-' :: r => (scan false false 0 0 r).map fun (m, s) => ofParts true m s
  | '+' :: r => (scan false false 0 0 r).map fun (m, s) => ofParts false m s
  | r => (scan false false 0 0 r).map fun (m, s) => ofParts false m s

/-- The number times `10 ^ e`; past the scale, without a fraction. -/
def shiftUp (d : Decimal) (e : Nat) : Option Decimal :=
  if e ≤ d.scale then some ⟨d.negative, d.mantissa, d.scale - e⟩
  else if maxScale < e then none
  else
    let m := d.mantissa * Nat.pow 10 (e - d.scale)
    if m ≤ maxMantissa then some ⟨d.negative, m, 0⟩ else none

/-- `n / 10 ^ k`, a half going up. -/
def roundPlaces (n k : Nat) : Nat := (2 * n + Nat.pow 10 k) / (2 * Nat.pow 10 k)

/-- The number over `10 ^ e`, rounded to the places that there are. The sign stays even if all digits
go. -/
def shiftDown (d : Decimal) (e : Nat) : Option Decimal :=
  if maxScale < e then none
  else if d.scale + e ≤ maxScale then some ⟨d.negative, d.mantissa, d.scale + e⟩
  else some ⟨d.negative, roundPlaces d.mantissa (d.scale + e - maxScale), maxScale⟩

def isExponentMark (c : Char) : Bool := c == 'e' || c == 'E'

/-- The size of an exponent: digits, with a plus or without. -/
def exponent? : List Char → Option Nat
  | '+' :: r => Text.readNat? 10 r
  | r => Text.readNat? 10 r

/-- A number with an exponent, or a plain one. -/
def ofChars? (cs : List Char) : Option Decimal :=
  match cs.dropWhile (!isExponentMark ·) with
  | [] => ofPlain? cs
  | _ :: exponent => do
    let d ← ofPlain? (cs.takeWhile (!isExponentMark ·))
    match exponent with
    | '-' :: r => exponent? r >>= d.shiftDown
    | r => exponent? r >>= d.shiftUp

def ofText? (s : String) : Option Decimal := ofChars? s.toList

end Decimal

end DeviceModel

/-!
### Arithmetic

Comparison by value, and the arithmetic of decimal numbers: removal of trailing zeros, rounding to
an integer, and division to as many places as 96 bits hold. A half goes to the even neighbour.
-/

namespace DeviceModel.Decimal

def signed (negative : Bool) (n : Nat) : Int := if negative then -(n : Int) else n

/-- The number times `10 ^ scale`. -/
def numerator (d : Decimal) : Int := signed d.negative d.mantissa

/-- Two scales of one number are the same number, and zero is the same with a sign. -/
def same (a b : Decimal) : Bool :=
  a.numerator * Int.pow 10 b.scale == b.numerator * Int.pow 10 a.scale

def less (a b : Decimal) : Bool :=
  a.numerator * Int.pow 10 b.scale < b.numerator * Int.pow 10 a.scale

def isZero (d : Decimal) : Bool := d.mantissa == 0

/-- The mantissa and scale without zeros at the end of the places. -/
def strip (mantissa : Nat) : Nat → Nat × Nat
  | 0 => (mantissa, 0)
  | s + 1 => if mantissa % 10 = 0 then strip (mantissa / 10) s else (mantissa, s + 1)

/-- The same number without trailing zeros behind the point; a zero loses its sign. -/
def normalize (d : Decimal) : Decimal :=
  let (m, s) := strip d.mantissa d.scale
  ofParts d.negative m s

/-- The integer nearest to `n / d`. -/
def roundQuotient (n d : Nat) : Nat :=
  let q := n / d
  let r := n % d
  if d < 2 * r ∨ d = 2 * r ∧ q % 2 = 1 then q + 1 else q

def round (d : Decimal) : Decimal := ⟨d.negative, roundQuotient d.mantissa (Nat.pow 10 d.scale), 0⟩

/-- The quotient `n / d` to the most places, at most `s`, at which it fits in 96 bits. -/
def quotient (n d : Nat) : Nat → Nat × Nat
  | 0 => (roundQuotient n d, 0)
  | s + 1 =>
    let q := roundQuotient (n * Nat.pow 10 (s + 1)) d
    if q ≤ maxMantissa then (q, s + 1) else quotient n d s

def div (a b : Decimal) : Decimal :=
  let (q, s) :=
    quotient (a.mantissa * Nat.pow 10 b.scale) (b.mantissa * Nat.pow 10 a.scale) maxScale
  ⟨a.negative != b.negative, q, s⟩

theorem same_self (a : Decimal) : a.same a = true := by simp [same]

end DeviceModel.Decimal
