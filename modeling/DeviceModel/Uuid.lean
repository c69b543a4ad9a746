import DeviceModel.Text.Integer

/-!
Identifiers of nodes. An identifier is a number; written, it has 32 hexadecimal digits in five
groups, so only the numbers of 128 bits can be stored and read back.
-/

namespace DeviceModel

structure Uuid where
  val : Nat
  deriving DecidableEq, Repr, Inhabited, Hashable

namespace Uuid

def nil : Uuid := ⟨0⟩

/-- The identifiers that have a written form. -/
def Storable (u : Uuid) : Prop := u.val < Nat.pow 2 128

instance (u : Uuid) : Decidable u.Storable := inferInstanceAs (Decidable (u.val < Nat.pow 2 128))

/-- The digits of a number of `n` hexadecimal places, the last places of a longer one. -/
def places : Nat → Nat → List Char
  | 0, _ => []
  | n + 1, v => places n (v / 16) ++ [Nat.digitChar (v % 16)]

def chars (u : Uuid) : List Char :=
  let ds := places 32 u.val
  let cut := fun i n => (ds.drop i).take n
  cut 0 8 ++ '-' :: cut 8 4 ++ '-' :: cut 12 4 ++ '-' :: cut 16 4 ++ '-' :: cut 20 12

def text (u : Uuid) : String := String.ofList u.chars

/-- The five groups of 8, 4, 4, 4 and 12 digits. -/
def readHyphenated? (cs : List Char) : Option Nat :=
  match Text.splitOn '-' cs with
  | [a, b, c, d, e] =>
    if [a, b, c, d, e].map List.length = [8, 4, 4, 4, 12] then
      Text.readNat? 16 (a ++ b ++ c ++ d ++ e)
    else none
  | _ => none

/-- What may stand in front of an identifier, in either case. -/
def urn : List Char := ['u', 'r', 'n', ':', 'u', 'u', 'i', 'd', ':']

/-- Hyphenated in either case, also in braces or behind `urn:uuid:`; or the 32 digits alone. -/
def ofChars? (cs : List Char) : Option Uuid :=
  let n :=
    if cs.length = 32 then Text.readNat? 16 cs
    else if (cs.take 9).map Char.toLower = urn then readHyphenated? (cs.drop 9)
    else match cs with
      | '\x7b' :: r => if r.getLast? = some '\x7d' then readHyphenated? r.dropLast else none
      | _ => readHyphenated? cs
  n.map Uuid.mk

def ofText? (s : String) : Option Uuid := ofChars? s.toList

/-- The 16 bytes of an identifier, the highest first. -/
def bytes (u : Uuid) : List Nat := (List.range 16).map fun i => u.val / Nat.pow 256 (15 - i) % 256

def ofBytes (bs : List Nat) : Uuid := ⟨bs.foldl (fun n b => n * 256 + b) 0⟩

end Uuid

end DeviceModel
