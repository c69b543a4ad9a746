import DeviceModel.Json.Basic

/-!
Reading documents, strictly: one value and blanks around it, at most 127 levels of nesting, no lone
surrogates and no control characters in strings.
-/

namespace DeviceModel.Json

def isSpace (c : Char) : Bool := c == ' ' || c == '\n' || c == '\t' || c == '\r'

def skip (cs : List Char) : List Char := cs.dropWhile isSpace

def hex4? (a b c d : Char) : Option Nat := Text.readNat? 16 [a, b, c, d]

def isHighSurrogate (n : Nat) : Bool := 0xD800 ≤ n && n < 0xDC00

def isLowSurrogate (n : Nat) : Bool := 0xDC00 ≤ n && n < 0xE000

def unescape? (c : Char) : Option Char :=
  match c with
  | '"' => some '"'
  | '\\' => some '\\'
  | '/' => some '/'
  | 'b' => some '\x08'
  | 'f' => some '\x0c'
  | 'n' => some '\n'
  | 'r' => some '\r'
  | 't' => some '\t'
  | _ => none

/-- One character of a string. A pair of surrogates is one character. -/
def scanChar : List Char → Option (Char × List Char)
  | [] => none
  | '\\' :: 'u' :: a :: b :: c :: d :: r => do
    let n ← hex4? a b c d
    if isLowSurrogate n then none
    else if isHighSurrogate n then
      match r with
      | '\\' :: 'u' :: a :: b :: c :: d :: r => do
        let m ← hex4? a b c d
        if isLowSurrogate m then
          some (Char.ofNat (0x10000 + (n - 0xD800) * 0x400 + (m - 0xDC00)), r)
        else none
      | _ => none
    else some (Char.ofNat n, r)
  | '\\' :: e :: r => (unescape? e).map (·, r)
  | c :: r => if c.toNat < 0x20 then none else some (c, r)

/-- The characters up to the closing quote, and what follows it. -/
def scanString : Nat → List Char → Option (List Char × List Char)
  | 0, _ => none
  | _ + 1, '"' :: r => some ([], r)
  | fuel + 1, cs => do
    let (c, r) ← scanChar cs
    let (s, r) ← scanString fuel r
    some (c :: s, r)

def spanDigits (cs : List Char) : List Char × List Char := cs.span Char.isDigit

def digitsValue (ds : List Char) : Nat := ds.foldl (fun n c => n * 10 + (c.toNat - '0'.toNat)) 0

/-- The exponent behind its mark, if the mark is there. -/
def scanExponent (cs : List Char) : Option (Option Int × List Char) :=
  let read := fun (negative : Bool) (cs : List Char) =>
    let (ds, r) := spanDigits cs
    if ds.isEmpty then none
    else some (some (Decimal.signed negative (digitsValue ds)), r)
  match cs with
  | c :: r =>
    if c = 'e' ∨ c = 'E' then
      match r with
      | '+' :: r => read false r
      | '-' :: r => read true r
      | r => read false r
    else some (none, cs)
  | [] => some (none, [])

/-- The digits behind the point, if the point is there. -/
def scanFraction (cs : List Char) : Option (Option (List Char) × List Char) :=
  match cs with
  | '.' :: r =>
    let (ds, r) := spanDigits r
    if ds.isEmpty then none else some (some ds, r)
  | _ => some (none, cs)

/-- Digits are added to `n` as long as it fits in 64 bits; the first that does not fit and all behind
it are left out. Gives the number and how many digits it left out. -/
def addDigits (n : Nat) : List Char → Nat × Nat
  | [] => (n, 0)
  | c :: r =>
    let more := n * 10 + (c.toNat - '0'.toNat)
    if more ≤ 18446744073709551615 then addDigits more r else (n, (c :: r).length)

/-- A number: an integer if it is written as one, is not `-0`, and fits in 64 bits with its sign or
without one. Of any other, the digits that fit in 64 bits are scaled by the power of ten of their last
place; a digit behind the point still counts if it fits after digits in front of it were left out. -/
def makeNumber (negative : Bool) (whole : List Char) (fraction : Option (List Char))
    (exponent : Option Int) : Option Json :=
  let (n, left) := addDigits 0 whole
  let plain := left == 0 && fraction.isNone && exponent.isNone
  if plain && !negative then some (.integer n)
  else if plain && n != 0 && n ≤ 9223372036854775808 then some (.integer (-(n : Int)))
  else
    let digits := fraction.getD []
    let (n, unread) := addDigits n digits
    let place : Int := left - (digits.length - unread : Nat)
    (Binary64.ofScientific? negative n (place + exponent.getD 0)).map .float

def scanNumber (cs : List Char) : Option (Json × List Char) := do
  let (negative, r) := match cs with
    | '-' :: r => (true, r)
    | r => (false, r)
  let (whole, r) := spanDigits r
  if whole.isEmpty || whole.length != 1 && whole.head? == some '0' then none
  else
    let (fraction, r) ← scanFraction r
    let (exponent, r) ← scanExponent r
    let number ← makeNumber negative whole fraction exponent
    some (number, r)

/-- A value at the head of the text, and what follows it. `depth` is the number of levels left. -/
def scanValue : Nat → Nat → List Char → Option (Json × List Char)
  | 0, _, _ => none
  | fuel + 1, depth, cs =>
    match cs with
    | 'n' :: 'u' :: 'l' :: 'l' :: r => some (.null, r)
    | 't' :: 'r' :: 'u' :: 'e' :: r => some (.bool true, r)
    | 'f' :: 'a' :: 'l' :: 's' :: 'e' :: r => some (.bool false, r)
    | '"' :: r => (scanString r.length r).map fun (s, r) => (.string (String.ofList s), r)
    | '[' :: r =>
      match depth with
      | 0 => none
      | depth + 1 =>
        match skip r with
        | ']' :: r => some (.array [], r)
        | r => (scanItems fuel depth [] r).map fun (js, r) => (.array js, r)
    | '\x7b' :: r =>
      match depth with
      | 0 => none
      | depth + 1 =>
        match skip r with
        | '\x7d' :: r => some (.object [], r)
        | r => (scanMembers fuel depth [] r).map fun (ms, r) => (.object ms, r)
    | cs => scanNumber cs
where
  /-- Items up to the closing bracket; `done` holds the earlier ones, the last first. -/
  scanItems : Nat → Nat → List Json → List Char → Option (List Json × List Char)
    | 0, _, _, _ => none
    | fuel + 1, depth, done, cs => do
      let (j, r) ← scanValue fuel depth cs
      match skip r with
      | ',' :: r => scanItems fuel depth (j :: done) (skip r)
      | ']' :: r => some ((j :: done).reverse, r)
      | _ => none
  /-- Members up to the closing brace; `done` holds the earlier ones, the last first. -/
  scanMembers : Nat → Nat → List (String × Json) → List Char →
      Option (List (String × Json) × List Char)
    | 0, _, _, _ => none
    | fuel + 1, depth, done, cs => do
      match cs with
      | '"' :: r =>
        let (k, r) ← scanString r.length r
        match skip r with
        | ':' :: r =>
          let (j, r) ← scanValue fuel depth (skip r)
          let done := (String.ofList k, j) :: done
          match skip r with
          | ',' :: r => scanMembers fuel depth done (skip r)
          | '\x7d' :: r => some (done.reverse, r)
          | _ => none
        | _ => none
      | _ => none

def maxDepth : Nat := 127

def ofChars? (cs : List Char) : Option Json := do
  let (j, r) ← scanValue (2 * cs.length + 2) maxDepth (skip cs)
  if (skip r).isEmpty then some j else none

/-- The document with every member that its text has. -/
def ofWholeText? (s : String) : Option Json := ofChars? s.toList

/-- Of the members with one key the last value, in the place of the first. -/
def merged : Json → Json
  | .array js => .array (items js)
  | .object ms => .object (members [] ms)
  | .null => .null
  | .bool b => .bool b
  | .integer i => .integer i
  | .float x => .float x
  | .string s => .string s
where
  items : List Json → List Json
    | [] => []
    | j :: js => merged j :: items js
  members (done : List (String × Json)) : List (String × Json) → List (String × Json)
    | [] => done
    | (k, j) :: ms => members (put done k (merged j)) ms

def ofText? (s : String) : Option Json := (ofWholeText? s).map merged

/-!
### Records

An object with some of the given keys, each at most once, or an array of their
values in order.
-/

/-- The values under `keys`, in their order; nothing else may stand in the record. -/
def record? (keys : List String) (j : Json) : Option (List (Option Json)) :=
  match j with
  | .object ms =>
    let names := ms.map (·.1)
    if names.all keys.contains && decide names.Nodup then some (keys.map (member? · ms)) else none
  | .array js =>
    if js.length ≤ keys.length then
      some (js.map some ++ List.replicate (keys.length - js.length) none)
    else none
  | _ => none

theorem length_of_record? {keys : List String} {j : Json} {vs : List (Option Json)}
    (h : record? keys j = some vs) : vs.length = keys.length := by
  cases j with
  | object ms =>
    simp only [record?] at h
    split at h
    · cases h; simp
    · cases h
  | array js =>
    simp only [record?] at h
    split at h
    · cases h
      simp only [List.length_append, List.length_map, List.length_replicate]
      omega
    · cases h
  | _ => simp [record?] at h

end DeviceModel.Json
