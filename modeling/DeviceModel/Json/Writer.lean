import DeviceModel.Json.Basic

/-!
Text of documents: on one line without spaces, or indented with a member or an item per line.
-/

namespace DeviceModel.Json

/-- How a string writes one of its characters. -/
def escape (c : Char) : List Char :=
  match c with
  | '"' => ['\\', '"']
  | '\\' => ['\\', '\\']
  | '\n' => ['\\', 'n']
  | '\r' => ['\\', 'r']
  | '\t' => ['\\', 't']
  | '\x08' => ['\\', 'b']
  | '\x0c' => ['\\', 'f']
  | c =>
    if c.toNat < 0x20 then
      ['\\', 'u', '0', '0', Nat.digitChar (c.toNat / 16), Nat.digitChar (c.toNat % 16)]
    else [c]

def quote (s : String) : List Char := '"' :: (s.toList.flatMap escape ++ ['"'])

/-- The first and last power of ten written without exponent. -/
def plainExponents : Int × Int := (-5, 15)

/-- The shortest digits that read back, with a fraction or an exponent in every case. -/
def floatChars (x : Binary64) : List Char :=
  let (d, k) := x.shortest
  let ds := Nat.toDigits 10 d
  let e := k + ds.length - 1
  let sign := if x.negative then ['-'] else []
  if x.mantissa = 0 then sign ++ ['0', '.', '0']
  else if plainExponents.1 ≤ e ∧ e ≤ plainExponents.2 then
    if 0 ≤ k then sign ++ ds ++ List.replicate k.toNat '0' ++ ['.', '0']
    else if 0 ≤ e then sign ++ ds.take (e.toNat + 1) ++ '.' :: ds.drop (e.toNat + 1)
    else sign ++ ['0', '.'] ++ List.replicate (-e - 1).toNat '0' ++ ds
  else
    let point := if ds.length = 1 then [] else '.' :: ds.drop 1
    let exponentSign := if 0 ≤ e then '+' else '-'
    sign ++ ds.take 1 ++ point ++ 'e' :: exponentSign :: Nat.toDigits 10 e.natAbs

/-- On one line. -/
def compactChars : Json → List Char
  | .null => ['n', 'u', 'l', 'l']
  | .bool true => ['t', 'r', 'u', 'e']
  | .bool false => ['f', 'a', 'l', 's', 'e']
  | .integer i => (Text.intText i).toList
  | .float x => floatChars x
  | .string s => quote s
  | .array [] => ['[', ']']
  | .array (j :: js) => '[' :: (compactChars j ++ rest js)
  | .object [] => ['\x7b', '\x7d']
  | .object ((k, j) :: ms) => '\x7b' :: (quote k ++ ':' :: compactChars j ++ members ms)
where
  rest : List Json → List Char
    | [] => [']']
    | j :: js => ',' :: (compactChars j ++ rest js)
  members : List (String × Json) → List Char
    | [] => ['\x7d']
    | (k, j) :: ms => ',' :: (quote k ++ ':' :: compactChars j ++ members ms)

def newline (width depth : Nat) : List Char := '\n' :: List.replicate (width * depth) ' '

/-- Each level `width` spaces deeper; an empty array or object stays on its line. -/
def indentedChars (width : Nat) (depth : Nat) : Json → List Char
  | .array (j :: js) =>
    '[' :: (newline width (depth + 1) ++ indentedChars width (depth + 1) j ++ rest depth js)
  | .object ((k, j) :: ms) =>
    '\x7b' :: (newline width (depth + 1) ++ quote k ++ ':' :: ' ' ::
      indentedChars width (depth + 1) j ++ members depth ms)
  | .array [] => ['[', ']']
  | .object [] => ['\x7b', '\x7d']
  | .null => ['n', 'u', 'l', 'l']
  | .bool true => ['t', 'r', 'u', 'e']
  | .bool false => ['f', 'a', 'l', 's', 'e']
  | .integer i => (Text.intText i).toList
  | .float x => floatChars x
  | .string s => quote s
where
  rest (depth : Nat) : List Json → List Char
    | [] => newline width depth ++ [']']
    | j :: js =>
      ',' :: (newline width (depth + 1) ++ indentedChars width (depth + 1) j ++ rest depth js)
  members (depth : Nat) : List (String × Json) → List Char
    | [] => newline width depth ++ ['\x7d']
    | (k, j) :: ms =>
      ',' :: (newline width (depth + 1) ++ quote k ++ ':' :: ' ' ::
        indentedChars width (depth + 1) j ++ members depth ms)

def compact (j : Json) : String := String.ofList (compactChars j)

def indented (width : Nat) (j : Json) : String := String.ofList (indentedChars width 0 j)

end DeviceModel.Json
