import DeviceModel.Text.Blank

/-!
Integers in text. Integers of a model are 64-bit: a reader refuses the others. Entered integers
may be hexadecimal, and negative ones are shown in hexadecimal as their two's complement.
-/

namespace DeviceModel.Text

def digitValue? (c : Char) : Option Nat :=
  if '0' ≤ c ∧ c ≤ '9' then some (c.toNat - '0'.toNat)
  else if 'a' ≤ c ∧ c ≤ 'z' then some (c.toNat - 'a'.toNat + 10)
  else if 'A' ≤ c ∧ c ≤ 'Z' then some (c.toNat - 'A'.toNat + 10)
  else none

/-- The number that digits following a number `n` make of it. -/
def readDigits (base : Nat) : Nat → List Char → Option Nat
  | n, [] => some n
  | n, c :: cs => do
    let d ← digitValue? c
    if d < base then readDigits base (n * base + d) cs else none

def readNat? (base : Nat) (cs : List Char) : Option Nat :=
  if cs.isEmpty then none else readDigits base 0 cs

/-- The integers of 64 bits, in two's complement. -/
def is64 (i : Int) : Bool := -9223372036854775808 ≤ i && i ≤ 9223372036854775807

/-- At most one sign, then digits; nothing past 64 bits. -/
def readInt? (base : Nat) (cs : List Char) : Option Int :=
  let i : Option Int := match cs with
    | '+' :: r => (readNat? base r).map (fun n => (n : Int))
    | '-' :: r => (readNat? base r).map (fun n => -(n : Int))
    | r => (readNat? base r).map (fun n => (n : Int))
  i.filter is64

/-- An entered integer: a minus, a `0x` for hexadecimal, and then an integer with a sign of its own. -/
def parseInteger? (text : String) : Option Int :=
  let read : List Char → Option Int
    | '0' :: 'x' :: r => readInt? 16 r
    | '0' :: 'X' :: r => readInt? 16 r
    | r => readInt? 10 r
  match trimChars text.toList with
  | '-' :: r => ((read r).map (- ·)).filter is64
  | r => read r

def natText (n : Nat) : String := String.ofList (Nat.toDigits 10 n)

def intText (i : Int) : String :=
  match i with
  | .ofNat n => natText n
  | .negSucc n => "-" ++ natText (n + 1)

def hexDigits (n : Nat) : List Char := (Nat.toDigits 16 n).map Char.toUpper

/-- Upper-case hexadecimal digits of a 64-bit integer. -/
def hexText (i : Int) : String :=
  String.ofList (hexDigits (match i with
    | .ofNat n => n
    | .negSucc n => 18446744073709551615 - n))

/-- `n` digits at least, with zeros in front. -/
def padZeros (n : Nat) (s : String) : String :=
  String.ofList (List.replicate (n - s.length) '0') ++ s

end DeviceModel.Text
